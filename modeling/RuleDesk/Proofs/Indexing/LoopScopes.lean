import RuleDesk.Proofs.Indexing.Occurrences
import RuleDesk.Proofs.Parsing.Frontiers

namespace RuleDesk

/-! ## The scopes of loop variables

A visit keeps the variables in scope as a list, the innermost first, and a look
at an offset compares the lengths of all scopes around it. The visit goes through
the expressions in the order of the text, so both come to the same variable. -/

theorem Span.contains_iff {s t : Span} : s.contains t ↔ s.start ≤ t.start ∧ t.stop ≤ s.stop := by
  rw [contains, Bool.and_eq_true, decide_eq_true_eq, decide_eq_true_eq]

/-- A span that goes around another one is longer. -/
theorem Span.length_lt {s t : Span} (around : t.contains s) (other : t ≠ s)
    (wide : s.start < s.stop) : s.length < t.length := by
  obtain ⟨start, stop⟩ := contains_iff.mp around
  have apart : t.start < s.start ∨ s.stop < t.stop := by
    by_contra none
    have same : t.start = s.start ∧ t.stop = s.stop := by omega
    exact other (by cases t; cases s; simp_all)
  simp only [length]
  omega

/-- A variable is in scope at a span, and every other one of its name is not, or
has a scope that goes around its own. -/
structure BoundAt (vars : List LoopVariable) (i : Nat) (v : LoopVariable) (span : Span) : Prop where
  place : vars[i]? = some v
  wide : span.start < span.stop
  inside : v.scope.contains span
  others : ∀ (j : Nat) w, vars[j]? = some w → j ≠ i → w.name = v.name →
    w.scope.stop ≤ span.start ∨ span.stop ≤ w.scope.start ∨ w.scope.contains v.scope

theorem BoundAt.add {vars : List LoopVariable} {i : Nat} {v w : LoopVariable} {span : Span}
    (h : BoundAt vars i v span)
    (apart : span.stop ≤ w.scope.start) : BoundAt (vars ++ [w]) i v span where
  place := getElem?_of_longer (List.prefix_append _ _) h.place
  wide := h.wide
  inside := h.inside
  others j u found other same := by
    rcases of_getElem?_concat found with before | ⟨_, rfl⟩
    · exact h.others j u before other same
    · exact .inr (.inl apart)

/-- The variables in scope while a part of a condition is visited that was read
from one frontier to another. Each scope goes around it, and the scopes are
nested unless no name was read. -/
structure InScope (vars : List (Nat × LoopVariable)) (low high : Frontier) : Prop where
  starts : ∀ v ∈ vars, v.2.scope.start ≤ low.ahead
  stops : ∀ v ∈ vars, high.here ≤ v.2.scope.stop
  nested : vars.Pairwise fun v w => w.2.scope.contains v.2.scope ∨ high.here ≤ low.ahead

namespace InScope

variable {vars : List (Nat × LoopVariable)} {low mid high low' high' : Frontier}

theorem empty : InScope [] low high := ⟨nofun, nofun, .nil⟩

theorem narrow (h : InScope vars low high) (le : low ≤ low') (le' : high' ≤ high) :
    InScope vars low' high' where
  starts v member := Nat.le_trans (h.starts v member) le.2
  stops v member := Nat.le_trans le'.1 (h.stops v member)
  nested := h.nested.imp fun either => either.imp_right fun none =>
    Nat.le_trans le'.1 (Nat.le_trans none le.2)

theorem front (h : InScope vars low high) (le : mid ≤ high) : InScope vars low mid :=
  h.narrow le_rfl le

theorem behind (h : InScope vars low high) (le : low ≤ mid) : InScope vars mid high :=
  h.narrow le le_rfl

/-- One more variable, whose scope lies in the others. -/
theorem cons {v : Nat × LoopVariable} (h : InScope vars low high)
    (start : v.2.scope.start ≤ low.ahead) (stop : high.here ≤ v.2.scope.stop)
    (inner : ∀ w ∈ vars, w.2.scope.contains v.2.scope ∨ high.here ≤ low.ahead) :
    InScope (v :: vars) low high where
  starts := List.forall_mem_cons.mpr ⟨start, h.starts⟩
  stops := List.forall_mem_cons.mpr ⟨stop, h.stops⟩
  nested := List.pairwise_cons.mpr ⟨inner, h.nested⟩

end InScope

/-- What is known when a visit has come to a frontier: the scopes of all other
variables than those in scope are left behind, and the references so far are
bound as they should be. -/
structure Found.Bound (out : Found) (low : Frontier) (vars : List (Nat × LoopVariable)) : Prop where
  known : ∀ v ∈ vars, out.loopVars[v.1]? = some v.2
  closed : ∀ (j : Nat) w, out.loopVars[j]? = some w → (j, w) ∈ vars ∨ w.scope.stop ≤ low.ahead
  behind : ∀ o ∈ out.occurrences, ∀ i, o.kind = .variableReference i → o.span.stop ≤ low.here
  bound : ∀ o ∈ out.occurrences, ∀ i, o.kind = .variableReference i →
      ∃ v, BoundAt out.loopVars i v o.span

/-- What is added is no loop variable and no reference to one. -/
structure Found.Notes (out out' : Found) : Prop where
  vars : out'.loopVars = out.loopVars
  occurrences : ∀ o ∈ out'.occurrences, o ∈ out.occurrences ∨ ∀ i, o.kind ≠ .variableReference i

namespace Found

variable {out mid out' : Found} {low high : Frontier} {vars : List (Nat × LoopVariable)}

namespace Notes

theorem refl (out : Found) : out.Notes out := ⟨rfl, fun _ => .inl⟩

theorem trans (h : out.Notes mid) (h' : mid.Notes out') : out.Notes out' :=
  ⟨h'.vars.trans h.vars, fun o member => (h'.occurrences o member).elim (h.occurrences o) .inr⟩

theorem error (out : Found) (span : Span) (message : String) (code : Option String) :
    out.Notes (out.addError span message code) :=
  ⟨rfl, fun _ => .inl⟩

theorem occurrence (out : Found) (s : Scope) (span : Span) {kind : OccurrenceKind}
    (other : ∀ i, kind ≠ .variableReference i) :
    out.Notes (out.addOccurrence s span kind) := by
  refine ⟨rfl, fun o member => (List.mem_append.mp member).imp_right fun new i => ?_⟩
  obtain rfl := List.mem_singleton.mp new
  exact other i

end Notes

theorem addPattern_notes (out : Found) (s : Scope) (ident : Ident) (indexed : Bool) :
    out.Notes (out.addPattern s ident indexed) := by
  unfold addPattern
  split
  · split
    · exact .refl out
    · exact .error ..
  · dsimp only
    split
    · exact (Notes.error ..).trans (.occurrence _ _ _ nofun)
    · exact .occurrence _ _ _ nofun

theorem addSetItem_notes (s : Scope) (out : Found) (item : SetItem) :
    out.Notes (addSetItem s out item) := by
  unfold addSetItem
  split
  · have matched : ∀ b : Bool, out.Notes (if b then out
      else out.addError item.span ("no pattern matches `" ++ item.ident.name ++ "*`") none) :=
      fun b => by cases b; exacts [.error .., .refl out]
    dsimp only
    split
    · exact matched _
    · exact (matched _).trans (.occurrence _ _ _ nofun)
  · exact addPattern_notes ..

theorem addSet_notes (s : Scope) (out : Found) (set : PatternSet) :
    out.Notes (addSet s out set) := by
  cases set with
  | them span => exact .refl out
  | items items =>
    unfold addSet
    induction items generalizing out with
    | nil => exact .refl out
    | cons item rest ih => exact (addSetItem_notes s out item).trans (ih _)

theorem addField_notes (s : Scope) (name : Ident) (acc : Found × Option Path) :
    acc.1.Notes (addField s name acc).1 := by
  obtain ⟨out, path⟩ := acc
  cases path with
  | none => exact .refl out
  | some path => exact .occurrence _ _ _ nofun

namespace Bound

theorem later (h : out.Bound low vars) (le : low ≤ high) : out.Bound high vars where
  known := h.known
  closed j w found := (h.closed j w found).imp_right fun stop => Nat.le_trans stop le.2
  behind o member i kind := Nat.le_trans (h.behind o member i kind) le.1
  bound := h.bound

theorem notes (h : out.Bound low vars) (added : out.Notes out') : out'.Bound low vars where
  known := added.vars ▸ h.known
  closed := added.vars ▸ h.closed
  behind o member i kind := by
    rcases added.occurrences o member with before | other
    · exact h.behind o before i kind
    · exact absurd kind (other i)
  bound o member i kind := by
    rcases added.occurrences o member with before | other
    · exact added.vars ▸ h.bound o before i kind
    · exact absurd kind (other i)

/-- A reference means the innermost variable of its name. -/
theorem reference {mid : Frontier} (h : out.Bound low vars) (scope : InScope vars low high)
    {i : Nat} {v : LoopVariable} {ident : Ident}
    (found : vars.find? (·.2.name == ident.name) = some (i, v))
    (start : low.ahead ≤ ident.span.start)
    (wide : ident.span.start < ident.span.stop) (stop : ident.span.stop ≤ mid.here) (le : low ≤ mid)
    (le' : mid ≤ high) (s : Scope) :
    (out.addOccurrence s ident.span (.variableReference i)).Bound mid vars where
  known := h.known
  closed := (h.later le).closed
  behind o member j kind := by
    rcases List.mem_append.mp member with before | new
    · exact (h.later le).behind o before j kind
    · obtain rfl := List.mem_singleton.mp new
      exact stop
  bound o member j kind := by
    rcases List.mem_append.mp member with before | new
    · exact h.bound o before j kind
    obtain rfl := List.mem_singleton.mp new
    obtain rfl := OccurrenceKind.variableReference.inj kind
    obtain ⟨same, inner, outer, split, missed⟩ := List.find?_eq_some_iff_append.mp found
    have member : (i, v) ∈ vars := split ▸ List.mem_append_right _ List.mem_cons_self
    have inside : v.scope.contains ident.span := Span.contains_iff.mpr
      ⟨Nat.le_trans (scope.starts _ member) start,
        Nat.le_trans stop (Nat.le_trans le'.1 (scope.stops _ member))⟩
    refine ⟨v, h.known _ member, wide, inside, fun j w known other name => ?_⟩
    -- another variable of the name is further out, since the first one in scope was taken,
    -- or left behind
    rcases h.closed j w known with visible | past
    · have nested := (List.pairwise_cons.mp (List.pairwise_append.mp (split ▸ scope.nested)).2.1).1
      rcases List.mem_append.mp (split ▸ visible) with earlier | this_or_outer
      · have named : (w.name == ident.name) = true := name ▸ same
        exact absurd named (Bool.eq_false_iff.mp (Bool.not_eq_true' _ ▸ missed _ earlier))
      rcases List.mem_cons.mp this_or_outer with this | around
      · exact absurd (congrArg Prod.fst this) other
      · refine .inr (.inr ((nested _ around).resolve_right fun none => ?_))
        exact Nat.not_lt_of_le
          (Nat.le_trans stop (Nat.le_trans le'.1 (Nat.le_trans none start))) wide
    · exact .inl (Nat.le_trans past start)

/-- A variable that is declared behind the references so far. -/
theorem declare (h : out.Bound low vars) {w : LoopVariable} (behind : low.here ≤ w.scope.start)
    (s : Scope) (span : Span) :
    (Found.addOccurrence { out with loopVars := out.loopVars ++ [w] } s span
      (.variableDeclaration out.loopVars.length)).Bound low ((out.loopVars.length, w) :: vars) := by
  have longer : Found.Bound { out with loopVars := out.loopVars ++ [w] } low
      ((out.loopVars.length, w) :: vars) := by
    refine ⟨?_, fun j u found => ?_, h.behind, fun o member i kind => ?_⟩
    · refine List.forall_mem_cons.mpr ⟨List.getElem?_concat_length, fun v member => ?_⟩
      exact getElem?_of_longer (List.prefix_append _ _) (h.known v member)
    · rcases of_getElem?_concat found with before | ⟨rfl, rfl⟩
      · exact (h.closed j u before).imp_left (List.mem_cons_of_mem _)
      · exact .inl List.mem_cons_self
    · obtain ⟨v, bound⟩ := h.bound o member i kind
      exact ⟨v, bound.add (Nat.le_trans (h.behind o member i kind) behind)⟩
  exact longer.notes (.occurrence _ _ _ nofun)

/-- Variables whose scopes are left behind are in scope no more. -/
theorem leave {inner : List (Nat × LoopVariable)} (h : out.Bound high inner) (outer : vars ⊆ inner)
    (left : ∀ v ∈ inner, v ∈ vars ∨ v.2.scope.stop ≤ high.ahead) : out.Bound high vars where
  known v member := h.known v (outer member)
  closed j w found := (h.closed j w found).elim (left _) .inr
  behind := h.behind
  bound := h.bound

end Bound

/-- The variables of a loop come into scope at its body. -/
theorem addVariables_bound {before inner after : Frontier} {scope : Span}
    (behind : before.here ≤ scope.start)
    (opens : scope.start ≤ inner.ahead) (closes : after.here ≤ scope.stop) (items : Option Path)
    (idents : List Ident) (s : Scope)
    (out : Found) (bound : out.Bound before s.vars) (visible : InScope s.vars inner after)
    (around : ∀ w ∈ s.vars, w.2.scope.contains scope ∨ after.here ≤ inner.ahead) :
    (addVariables scope items idents (s, out)).2.Bound before
      (addVariables scope items idents (s, out)).1.vars ∧
      InScope (addVariables scope items idents (s, out)).1.vars inner after ∧
      s.vars ⊆ (addVariables scope items idents (s, out)).1.vars ∧
      ∀ v ∈ (addVariables scope items idents (s, out)).1.vars, v ∈ s.vars ∨ v.2.scope = scope := by
  induction idents generalizing s out with
  | nil => exact ⟨bound, visible, List.Subset.refl _, fun _ => .inl⟩
  | cons ident rest ih =>
    let v : LoopVariable := ⟨ident.name, ident.span, scope, if rest.isEmpty then items else none⟩
    have same : scope.contains scope := Span.contains_iff.mpr ⟨Nat.le_refl _, Nat.le_refl _⟩
    have declared :=
      bound.declare (w := v) behind { s with vars := (out.loopVars.length, v) :: s.vars } ident.span
    have entered : InScope ((out.loopVars.length, v) :: s.vars) inner after :=
      visible.cons opens closes around
    obtain ⟨bound, visible, outer, new⟩ :=
      ih { s with vars := (out.loopVars.length, v) :: s.vars } _ declared entered
      (List.forall_mem_cons.mpr ⟨.inl same, around⟩)
    refine ⟨bound, visible, fun w member => outer (List.mem_cons_of_mem _ member),
      fun w member => ?_⟩
    rcases new w member with known | inside
    · rcases List.mem_cons.mp known with rfl | old
      · exact .inr rfl
      · exact .inl old
    · exact .inr inside

end Found

/-! ### Visits -/

section Visit

mutual

theorem visit_bound (s : Scope) (e : Expr) (out : Found) {low high : Frontier}
    (spread : Spread low [e] high)
    (visible : InScope s.vars low high) (bound : out.Bound low s.vars) :
    (visit s e out).1.Bound high s.vars := by
  match e with
  | .atom .. | .integer .. | .ruleWildcard _ | .error _ => exact bound.later spread.le
  | .ident ident =>
    cases spread with
    | node plain => cases plain
    | name le start wide stop later =>
      rw [visit]
      unfold Found.addRoot
      split
      · rename_i found
        exact (bound.reference visible found start wide stop le later.le s).later later.le
      · have still := bound.later (le.trans later.le)
        split
        · exact still.notes (.occurrence _ _ _ nofun)
        split
        · exact still
        · exact still.notes (.occurrence _ _ _ nofun)
  | .field object name _ =>
    exact (visit_bound s object out (spread.parts rfl) visible bound).notes
      (Found.addField_notes s name _)
  | .lookup object index _ =>
    obtain ⟨mid, first, second⟩ := Spread.split [object] (spread.parts rfl)
    have before := visit_bound s object out first (visible.front second.le) bound
    exact visit_bound s index _ second (visible.behind first.le) before
  | .call callee args _ =>
    obtain ⟨mid, first, second⟩ := Spread.split [callee] (spread.parts rfl)
    have before := visit_bound s callee out first (visible.front second.le) bound
    exact visitAll_bound s args _ second (visible.behind first.le) before
  | .pattern ident anchor _ =>
    exact visitAnchor_bound s anchor _ (spread.parts rfl) visible
      (bound.notes (Found.addPattern_notes ..))
  | .count ident range _ =>
    exact visitRange_bound s range _ (spread.parts rfl) visible
      (bound.notes (Found.addPattern_notes ..))
  | .offset ident index _ =>
    exact visitIndex_bound s index _ (spread.parts rfl) visible
      (bound.notes (Found.addPattern_notes ..))
  | .length ident index _ =>
    exact visitIndex_bound s index _ (spread.parts rfl) visible
      (bound.notes (Found.addPattern_notes ..))
  | .group inner _ => exact visit_bound s inner out (spread.parts rfl) visible bound
  | .unary _ operand _ => exact visit_bound s operand out (spread.parts rfl) visible bound
  | .binary _ operands _ => exact visitAll_bound s operands out (spread.parts rfl) visible bound
  | .of quantifier items anchor _ =>
    obtain ⟨mid, first, later⟩ := Spread.split quantifier.parts (spread.parts rfl)
    obtain ⟨mid', second, third⟩ := later.split items.parts
    have counted := visitQuantifier_bound s quantifier out first (visible.front later.le) bound
    have listed :=
      visitItems_bound s items _ second ((visible.behind first.le).front third.le) counted
    exact visitAnchor_bound s anchor _ third (visible.behind (first.le.trans second.le)) listed
  | .forOf quantifier set body _ =>
    obtain ⟨mid, first, second⟩ := Spread.split quantifier.parts (spread.parts rfl)
    have counted := visitQuantifier_bound s quantifier out first (visible.front second.le) bound
    exact visit_bound { s with insideForOf := true } body _ second (visible.behind first.le)
      (counted.notes (Found.addSet_notes s _ set))
  | .forIn quantifier vars iterable body _ =>
    cases spread with
    | node plain => cases plain
    | loop head place inside later =>
      obtain ⟨mid, first, second⟩ := head.split quantifier.parts
      have entered := head.le.trans place.entered
      have whole := inside.le.trans later.le
      have counted := visitQuantifier_bound s quantifier out
        first (visible.front ((second.le.trans place.entered).trans whole)) bound
      have values := visitIterable_bound s iterable _ second
        ((visible.behind first.le).front (place.entered.trans whole)) counted
      -- the scopes around the loop go on at least to where its body was read to
      have around : ∀ w ∈ s.vars, w.2.scope.contains body.span ∨ _ :=
        fun w member => place.read.imp_left fun stop =>
        Span.contains_iff.mpr ⟨Nat.le_trans (visible.starts w member) place.passed,
          Nat.le_trans stop (Nat.le_trans later.le.1 (visible.stops w member))⟩
      obtain ⟨declared, inner, outer, new⟩ :=
        Found.addVariables_bound place.behind place.opens place.closes
        (visitIterable s iterable (visitQuantifier s quantifier out)).2 vars s _ values
          (visible.narrow entered later.le) around
      have looped := visit_bound _ body _ inside inner (declared.later place.entered)
      exact (looped.leave outer fun v member =>
        (new v member).imp_right fun same => by rw [same]; exact place.ends).later later.le

theorem visitAll_bound (s : Scope) (es : List Expr) (out : Found) {low high : Frontier}
    (spread : Spread low es high)
    (visible : InScope s.vars low high) (bound : out.Bound low s.vars) :
    (visitAll s es out).Bound high s.vars := by
  match es with
  | [] => exact bound.later spread.le
  | e :: rest =>
    obtain ⟨mid, first, second⟩ := Spread.split [e] spread
    have before := visit_bound s e out first (visible.front second.le) bound
    exact visitAll_bound s rest _ second (visible.behind first.le) before

theorem visitBounds_bound (s : Scope) (b : Bounds Expr) (out : Found) {low high : Frontier}
    (spread : Spread low b.parts high)
    (visible : InScope s.vars low high) (bound : out.Bound low s.vars) :
    (visitBounds s b out).Bound high s.vars := by
  match b with
  | ⟨_, lower, upper⟩ =>
    obtain ⟨mid, first, second⟩ := Spread.split [lower] spread
    have before := visit_bound s lower out first (visible.front second.le) bound
    exact visit_bound s upper _ second (visible.behind first.le) before

theorem visitRange_bound (s : Scope) (o : Option (Bounds Expr)) (out : Found) {low high : Frontier}
    (spread : Spread low (o.elim [] Bounds.parts) high) (visible : InScope s.vars low high)
    (bound : out.Bound low s.vars) :
    (visitRange s o out).Bound high s.vars := by
  match o with
  | none => exact bound.later spread.le
  | some b => exact visitBounds_bound s b out spread visible bound

theorem visitIndex_bound (s : Scope) (o : Option Expr) (out : Found) {low high : Frontier}
    (spread : Spread low o.toList high)
    (visible : InScope s.vars low high) (bound : out.Bound low s.vars) :
    (visitIndex s o out).Bound high s.vars := by
  match o with
  | none => exact bound.later spread.le
  | some e => exact visit_bound s e out spread visible bound

theorem visitAnchor_bound (s : Scope) (a : Anchor Expr) (out : Found) {low high : Frontier}
    (spread : Spread low a.parts high)
    (visible : InScope s.vars low high) (bound : out.Bound low s.vars) :
    (visitAnchor s a out).Bound high s.vars := by
  match a with
  | .anywhere => exact bound.later spread.le
  | .at e => exact visit_bound s e out spread visible bound
  | .within b => exact visitBounds_bound s b out spread visible bound

theorem visitQuantifier_bound (s : Scope) (q : Quantifier Expr) (out : Found) {low high : Frontier}
    (spread : Spread low q.parts high)
    (visible : InScope s.vars low high) (bound : out.Bound low s.vars) :
    (visitQuantifier s q out).Bound high s.vars := by
  match q with
  | .percentage e | .count e => exact visit_bound s e out spread visible bound
  | .none _ | .all _ | .any _ => exact bound.later spread.le

theorem visitItems_bound (s : Scope) (i : OfItems Expr) (out : Found) {low high : Frontier}
    (spread : Spread low i.parts high)
    (visible : InScope s.vars low high) (bound : out.Bound low s.vars) :
    (visitItems s i out).Bound high s.vars := by
  match i with
  | .patterns set => exact (bound.later spread.le).notes (Found.addSet_notes s out set)
  | .tuple items => exact visitAll_bound s items out spread visible bound

theorem visitIterable_bound (s : Scope) (i : Iterable Expr) (out : Found) {low high : Frontier}
    (spread : Spread low i.parts high)
    (visible : InScope s.vars low high) (bound : out.Bound low s.vars) :
    (visitIterable s i out).1.Bound high s.vars := by
  match i with
  | .range b => exact visitBounds_bound s b out spread visible bound
  | .tuple items => exact visitAll_bound s items out spread visible bound
  | .value e => exact visit_bound s e out spread visible bound

end

end Visit

/-! ### The references of a document -/

namespace Document

/-- Behind the condition of a rule none of its loop variables is in scope. -/
theorem visitRule_bound (d : Document) (catalog : Catalog) {out : Found} {low high : Frontier}
    {r : Rule} (i : Nat)
    (spread : Spread low (Parser.conditionOf r) high) (bound : out.Bound low []) :
    (d.visitRule catalog out (r, i)).Bound high [] := by
  have declared : out.Notes { out with occurrences := out.occurrences ++ declarations i r } := by
    refine ⟨rfl, fun o member => (List.mem_append.mp member).imp_right fun new v => ?_⟩
    rcases mem_declarations.mp new with ⟨_, rfl⟩ | ⟨_, _, _, _, rfl⟩ <;> nofun
  unfold Document.visitRule Parser.conditionOf at *
  dsimp only
  cases condition : r.condition with
  | none => exact (bound.notes declared).later spread.le
  | some e =>
    rw [condition] at spread
    exact visit_bound _ e _ spread .empty (bound.notes declared)

theorem found_bound (d : Document) (catalog : Catalog) {low high : Frontier}
    (spread : Spread low (Parser.conditionsOf d.file.rules) high) :
    (d.found catalog).Bound high [] := by
  have all : ∀ (rules : List Rule) (n : Nat) (low : Frontier) (out : Found),
      Spread low (Parser.conditionsOf rules) high →
      out.Bound low [] → ((rules.zipIdx n).foldl (d.visitRule catalog) out).Bound high [] := by
    intro rules
    induction rules with
    | nil => exact fun n low out spread bound => bound.later spread.le
    | cons r rest ih =>
      intro n low out spread bound
      obtain ⟨mid, first, later⟩ := Spread.split (Parser.conditionOf r) spread
      exact ih (n + 1) mid _ later (d.visitRule_bound catalog n first bound)
  exact all d.file.rules 0 low _ spread ⟨nofun, nofun, nofun, nofun⟩

end Document

namespace DocumentIndex

theorem innermost?_mem {vars : List (LoopVariable × Nat)} {v : LoopVariable × Nat}
    (h : innermost? vars = some v) : v ∈ vars := by
  induction vars with
  | nil => cases h
  | cons u rest ih =>
    unfold innermost? at h
    split at h
    · exact Option.some.inj h ▸ List.mem_cons_self
    · rename_i w found
      split at h
      · exact List.mem_cons_of_mem _ (ih (found.trans h))
      · exact Option.some.inj h ▸ List.mem_cons_self

/-- A variable with a smaller scope than all others is the innermost. -/
theorem innermost?_eq {vars : List (LoopVariable × Nat)} {v : LoopVariable × Nat}
    (member : v ∈ vars)
    (least : ∀ w ∈ vars, w ≠ v → v.1.scope.length < w.1.scope.length) :
    innermost? vars = some v := by
  induction vars with
  | nil => cases member
  | cons u rest ih =>
    have others : ∀ w ∈ rest, w ≠ v → v.1.scope.length < w.1.scope.length :=
      fun w inside => least w (List.mem_cons_of_mem _ inside)
    unfold innermost?
    by_cases same : u = v
    · subst same
      split
      · rfl
      · rename_i w found
        refine if_neg fun less => ?_
        by_cases again : w = u
        · exact Nat.lt_irrefl _ (again ▸ less)
        · exact Nat.lt_asymm less (others w (innermost?_mem found) again)
    · have inside : v ∈ rest := (List.mem_cons.mp member).resolve_left fun eq => same eq.symm
      rw [ih inside others]
      exact if_pos (least u List.mem_cons_self same)

/-- A look at an offset of a reference comes to the variable that it is bound
to, if no other one of its name has the same scope or one that stops right there. -/
theorem variableAt?_bound {x : DocumentIndex} {i : Nat} {v : LoopVariable} {span : Span}
    (bound : BoundAt x.loopVars i v span) {n : Nat} (start : span.start ≤ n) (stop : n < span.stop)
    (others : ∀ (j : Nat) w, x.loopVars[j]? = some w → j ≠ i → w.name = v.name → w.scope ≠ v.scope ∧
    w.scope.stop ≠ n) :
    x.variableAt? v.name n = some i := by
  have inside := Span.contains_iff.mp bound.inside
  have member :
      (v, i) ∈ x.loopVars.zipIdx.filter fun w => w.1.name == v.name && w.1.scope.touches n := by
    refine List.mem_filter.mpr ⟨List.mem_zipIdx_iff_getElem?.mpr bound.place, ?_⟩
    rw [Bool.and_eq_true, beq_self_eq_true, Span.touches, Bool.and_eq_true, decide_eq_true_eq,
      decide_eq_true_eq]
    exact ⟨rfl, Nat.le_trans inside.1 start, Nat.le_trans (Nat.le_of_lt stop) inside.2⟩
  unfold variableAt?
  rw [innermost?_eq member ?_]
  · rfl
  rintro ⟨w, j⟩ found different
  obtain ⟨known, visible⟩ := List.mem_filter.mp found
  have place : x.loopVars[j]? = some w := List.mem_zipIdx_iff_getElem?.mp known
  rw [Bool.and_eq_true, beq_iff_eq, Span.touches, Bool.and_eq_true, decide_eq_true_eq,
    decide_eq_true_eq] at visible
  obtain ⟨name, starts, stops⟩ : w.name = v.name ∧ w.scope.start ≤ n ∧ n ≤ w.scope.stop := visible
  have other : j ≠ i := by
    rintro rfl
    exact different (by rw [Option.some.inj (place.symm.trans bound.place)])
  obtain ⟨wider, beyond⟩ := others j w place other name
  rcases bound.others j w place other name with before | behind | around
  · omega
  · omega
  · exact Span.length_lt around wider
      (Nat.lt_of_le_of_lt inside.1 (Nat.lt_of_lt_of_le bound.wide inside.2))

end DocumentIndex

/-- In the index of every text, malformed or not, a look at an offset in a
reference to a loop variable comes to the variable that the visit of the text has
bound it to. Two variables of one name are told apart only if their scopes differ,
and one whose scope stops right at the offset still counts there. -/
theorem variables_looked_up (uri : String) (version : Option Int) (text : List Char)
    (catalog : Catalog) (order : Nat) :
    let x := (Document.ofText uri version text).index catalog order
    ∀ o ∈ x.occurrences, ∀ i, o.kind = .variableReference i → ∃ v, x.loopVars[i]? = some v ∧
      sliceBytes? text o.span.start o.span.stop = some v.name.toList ∧
      ∀ n, o.span.start ≤ n → n < o.span.stop →
        (∀ (j : Nat) w, x.loopVars[j]? = some w → j ≠ i → w.name = v.name → w.scope ≠ v.scope ∧
          w.scope.stop ≠ n) →
        x.variableAt? v.name n = some i := by
  intro x o member i kind
  have found := DocumentIndex.mem_occurrences.mp member
  obtain ⟨low, high, spread⟩ := parse_spreads text
  obtain ⟨v, bound⟩ :=
    ((Document.ofText uri version text).found_bound catalog spread).bound o found i kind
  refine ⟨v, bound.place, ?_, fun n start stop others =>
    DocumentIndex.variableAt?_bound bound start stop others⟩
  obtain ⟨r, k, ident, place, named, span, names⟩ :=
    (Document.ofText uri version text).found_names catalog found
  obtain ⟨t, known, _, rfl⟩ := name_token (List.mem_of_getElem? place) named
  rw [kind] at names
  obtain ⟨_, w, there, name⟩ := names
  obtain rfl := Option.some.inj (there.symm.trans bound.place)
  obtain ⟨c, after, reaches, _, meant, next⟩ := (finalState_tracked text).read.stands t known
  rw [span, ← name, Parser.identOf, Token.name, String.toList_ofList]
  exact (reaches.standsAt (Cursor.nextSolid?_of_solid next meant)).slice

/-- A loop in a loop, both with a variable of the same name. -/
def nestedLoops : List Char :=
  "rule a \x7b condition: for any i in (1) : ( for any i in (i) : ( i ) ) \x7d".toList

set_option maxRecDepth 2000 in
/-- The last name is that of the inner variable. -/
theorem variables_looked_up_nestedLoops :
    let x := (Document.ofText "file:///a.yar" none nestedLoops).index ⟨[]⟩ 0
    x.loopVars.map (fun v => (v.name, v.scope)) = [("i", ⟨39, 67⟩), ("i", ⟨60, 65⟩)] ∧
      ⟨⟨62, 63⟩, 0, .variableReference 1⟩ ∈ x.occurrences ∧ x.variableAt? "i" 62 = some 1 := by
  intro x
  let found := (Document.ofText "file:///a.yar" none nestedLoops).found ⟨[]⟩
  have both : (x.loopVars, found.occurrences.getLast?) =
      ([⟨"i", ⟨28, 29⟩, ⟨39, 67⟩, none⟩, ⟨"i", ⟨49, 50⟩, ⟨60, 65⟩, none⟩],
      some ⟨⟨62, 63⟩, 0, .variableReference 1⟩) := by decide +kernel
  obtain ⟨vars, last⟩ := Prod.mk.inj both
  have member : ⟨⟨62, 63⟩, 0, .variableReference 1⟩ ∈ x.occurrences :=
    DocumentIndex.mem_occurrences.mpr (List.mem_of_getLast? last)
  obtain ⟨v, place, _, found⟩ :=
    variables_looked_up "file:///a.yar" none nestedLoops ⟨[]⟩ 0 _ member 1 rfl
  have inner : v = ⟨"i", ⟨49, 50⟩, ⟨60, 65⟩, none⟩ := by
    have second : x.loopVars[1]? = some ⟨"i", ⟨49, 50⟩, ⟨60, 65⟩, none⟩ := by rw [vars]; rfl
    exact Option.some.inj (place.symm.trans second)
  subst inner
  refine ⟨by rw [vars]; rfl, member, found 62 (by decide) (by decide) fun j w known other _ => ?_⟩
  have outer : w = ⟨"i", ⟨28, 29⟩, ⟨39, 67⟩, none⟩ := by
    have known : x.loopVars[j]? = some w := known
    rw [vars] at known
    rcases j with _ | _ | j
    · exact (Option.some.inj known).symm
    · exact absurd rfl other
    · cases known
  subst outer
  decide

/-- Of two variables of one name in a loop the second one is meant, and the first one is found. -/
example :
    let d := Document.ofText "file:///a.yar" none
      "rule a \x7b condition: for any a, a in (1, 2) : ( a ) \x7d".toList
    (d.found ⟨[]⟩).occurrences.getLast? = some ⟨⟨47, 48⟩, 0, .variableReference 1⟩ ∧
      (d.index ⟨[]⟩ 0).variableAt? "a" 47 = some 0 := by
  decide +kernel

end RuleDesk
