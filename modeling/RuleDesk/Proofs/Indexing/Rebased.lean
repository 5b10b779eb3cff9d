import Mathlib.Data.List.Forall2
import Mathlib.Data.List.Pairwise
import RuleDesk.Proofs.Indexing.Places
import RuleDesk.Proofs.Parsing.Rebase

namespace RuleDesk

/-- Lists that correspond to each other still do so when both are sorted. -/
theorem forall₂_mergeSort {R : α → β → Prop} {le : α → α → Bool} {le' : β → β → Bool} {l : List α}
    {l' : List β}
    (h : List.Forall₂ R l l') (same : ∀ a ∈ l.zip l', ∀ b ∈ l.zip l', le a.1 b.1 = le' a.2 b.2) :
    List.Forall₂ R (l.mergeSort le) (l'.mergeSort le') := by
  obtain ⟨length, each⟩ := List.forall₂_iff_zip.mp h
  generalize pairs : l.zip l' = z at same
  have left : z.map Prod.fst = l := pairs ▸ List.map_fst_zip (Nat.le_of_eq length)
  have right : z.map Prod.snd = l' := pairs ▸ List.map_snd_zip (Nat.le_of_eq length.symm)
  have sorted := List.map_mergeSort (r := fun a b : α × β => le a.1 b.1) (s := le) (f := Prod.fst)
    (l := z) fun _ _ _ _ => rfl
  have sorted' :=
    List.map_mergeSort (r := fun a b : α × β => le a.1 b.1) (s := le') (f := Prod.snd) (l := z) same
  rw [← left, ← right, ← sorted, ← sorted', List.forall₂_map_left_iff, List.forall₂_map_right_iff,
    List.forall₂_same]
  intro a member
  have inside : a ∈ l.zip l' := pairs ▸ (List.mergeSort_perm z _).mem_iff.mp member
  exact each inside

/-- The order of spans apart stays when their offsets move in order. -/
theorem Span.Apart.notAfter_rebase {v : View} (ordered : ∀ {a b}, a ≤ b → v.offset a ≤ v.offset b)
    {s t : Span} (h : s.Apart t)
    (wide : s.start < s.stop) (wide' : t.start < t.stop)
    (moved : v.offset s.start < v.offset s.stop)
    (moved' : v.offset t.start < v.offset t.stop) :
    s.notAfter t = (s.rebase v).notAfter (t.rebase v) := by
  have sorted : ∀ {s t : Span}, s.start < s.stop → s.stop ≤ t.start → s.notAfter t = true ∧
      t.notAfter s = false := by
    intro s t wide first
    have less : s.start < t.start := Nat.lt_of_lt_of_le wide first
    simp only [notAfter, Span.before, Bool.not_eq_true', Bool.or_eq_false_iff,
      decide_eq_false_iff_not, Bool.and_eq_false_iff,
      beq_eq_false_iff_ne, Bool.not_eq_false', Bool.or_eq_true, decide_eq_true_eq]
    omega
  rcases h with first | second
  · rw [(sorted wide first).1, (sorted (s := s.rebase v) (t := t.rebase v) moved (ordered first)).1]
  · rw [(sorted wide' second).2,
      (sorted (s := t.rebase v) (t := s.rebase v) moved' (ordered second)).2]

/-! ## What is found in a condition and in a view of it -/

def LoopVariable.rebase (v : View) (w : LoopVariable) : LoopVariable :=
  { w with nameSpan := w.nameSpan.rebase v, scope := w.scope.rebase v }

/-- References that look a pattern up by its name. -/
def OccurrenceKind.asksPattern : OccurrenceKind → Bool
  | patternReference _ wildcard _ => !wildcard
  | _ => false

/-- What is asked of the names of a rule, so that what is found in the rule and
what is found in a view of it are in the relation `rel`. Only the names of
patterns may differ. -/
structure Compares (v : View) (rel : Occurrence → Occurrence → Prop) (rule : Nat)
    (patterns patterns' : List PatternSymbol) (names : List (Kind × Ident)) : Prop where
  same : ∀ span kind, ¬ kind.asksPattern → rel ⟨span, rule, kind⟩ ⟨span.rebase v, rule, kind⟩
  word : ∀ i, (.ident, i) ∈ names → v.name i.span i.name = i.name
  bare : ∀ sigil i, (.sigil sigil, i) ∈ names →
      (bareName (v.name i.span i.name) = "" ↔ bareName i.name = "")
  pattern : ∀ sigil i indexed, (.sigil sigil, i) ∈ names → bareName i.name ≠ "" →
    rel ⟨i.span, rule, .patternReference (patternNamed? patterns i.name) false indexed⟩
      ⟨i.span.rebase v, rule,
          .patternReference (patternNamed? patterns' (v.name i.span i.name)) false indexed⟩

/-- What was found so far in both. -/
structure Found.Rebased (v : View) (rel : Occurrence → Occurrence → Prop)
    (out out' : Found) : Prop where
  vars : out'.loopVars = out.loopVars.map (·.rebase v)
  occurrences : List.Forall₂ rel out.occurrences out'.occurrences

/-- Two visits that find the same and lead to the same path. -/
structure Found.RebasedBoth (v : View) (rel : Occurrence → Occurrence → Prop)
    (r r' : Found × Option Path) : Prop where
  found : r.1.Rebased v rel r'.1
  path : r.2 = r'.2

/-- The scopes of the same place in both, in a rule with some names. -/
structure Scope.Rebased (v : View) (rel : Occurrence → Occurrence → Prop)
    (names : List (Kind × Ident)) (s s' : Scope) :
    Prop where
  compares : Compares v rel s.rule s.patterns s'.patterns names
  catalog : s.catalog = s'.catalog
  imports : s.imports = s'.imports
  rule : s.rule = s'.rule
  vars : s'.vars = s.vars.map fun w => (w.1, w.2.rebase v)
  insideForOf : s.insideForOf = s'.insideForOf

namespace Scope.Rebased

variable {v : View} {rel : Occurrence → Occurrence → Prop} {names : List (Kind × Ident)}
    {s s' : Scope}

theorem varNamed? (h : Rebased v rel names s s') (name : String) :
    s'.varNamed? name = (s.varNamed? name).map fun w => (w.1, w.2.rebase v) := by
  rw [Scope.varNamed?, h.vars, List.find?_map]
  rfl

theorem isModule (h : Rebased v rel names s s') (name : String) :
    s.isModule name = s'.isModule name := by
  rw [Scope.isModule, Scope.isModule, h.catalog, h.imports]

theorem resolves (h : Rebased v rel names s s') (path : Path) :
    s.resolves path = s'.resolves path := by
  rw [Scope.resolves, Scope.resolves, h.catalog]

end Scope.Rebased

namespace Found.Rebased

variable {v : View} {rel : Occurrence → Occurrence → Prop} {names : List (Kind × Ident)}
    {s s' : Scope} {out out' : Found}

theorem add (h : Rebased v rel out out') {span span' : Span} {kind kind' : OccurrenceKind}
    (related : rel ⟨span, s.rule, kind⟩ ⟨span', s'.rule, kind'⟩) :
    Rebased v rel (out.addOccurrence s span kind) (out'.addOccurrence s' span' kind') :=
  ⟨h.vars, List.rel_append h.occurrences (.cons related .nil)⟩

variable (scopes : Scope.Rebased v rel names s s') (h : Rebased v rel out out')

include scopes h

theorem addSame (span : Span) {kind : OccurrenceKind} (plain : ¬ kind.asksPattern) :
    Rebased v rel (out.addOccurrence s span kind) (out'.addOccurrence s' (span.rebase v) kind) :=
  h.add (scopes.rule ▸ scopes.compares.same span kind plain)

theorem addPattern {sigil : Sigil} {ident : Ident} (named : (.sigil sigil, ident) ∈ names)
    (indexed : Bool) :
    Rebased v rel (out.addPattern s ident indexed)
      (out'.addPattern s' (ident.rebase v) indexed) := by
  unfold Found.addPattern
  by_cases empty : bareName ident.name = ""
  · have empty' : bareName (ident.rebase v).name = "" :=
      (scopes.compares.bare sigil ident named).mpr empty
    rw [if_pos (beq_iff_eq.mpr empty), if_pos (beq_iff_eq.mpr empty'), scopes.insideForOf]
    split
    · exact h
    · exact ⟨h.vars, h.occurrences⟩
  · have some_name : ¬ (bareName ident.name == "") = true := fun same => empty (beq_iff_eq.mp same)
    have some_name' : ¬ (bareName (ident.rebase v).name == "") = true := fun same =>
      empty ((scopes.compares.bare sigil ident named).mp (beq_iff_eq.mp same))
    rw [if_neg some_name, if_neg some_name']
    refine add ⟨?_, ?_⟩ (scopes.rule ▸ scopes.compares.pattern sigil ident indexed named empty)
    · split <;> split <;> exact h.vars
    · split <;> split <;> exact h.occurrences

theorem addSetItem {item : SetItem} (named : (.sigil .identity, item.ident) ∈ names) :
    Rebased v rel (Found.addSetItem s out item) (Found.addSetItem s' out' (item.rebase v)) := by
  unfold Found.addSetItem
  rw [show (item.rebase v).wildcard = item.wildcard from rfl]
  split
  · dsimp only
    by_cases empty : bareName item.ident.name = ""
    · have empty' : bareName (item.rebase v).ident.name = "" :=
        (scopes.compares.bare _ _ named).mpr empty
      rw [if_pos (beq_iff_eq.mpr empty), if_pos (beq_iff_eq.mpr empty')]
      split <;> split <;> exact ⟨h.vars, h.occurrences⟩
    · have empty' : ¬ bareName (item.rebase v).ident.name = "" :=
        fun same => empty ((scopes.compares.bare _ _ named).mp same)
      rw [if_neg (fun same => empty (beq_iff_eq.mp same)),
        if_neg (fun same => empty' (beq_iff_eq.mp same))]
      refine addSame scopes ?_ _ Bool.false_ne_true
      split <;> split <;> exact ⟨h.vars, h.occurrences⟩
  · exact h.addPattern scopes named false

theorem addSet {set : PatternSet} (named : namesOf set.leaves ⊆ names) :
    Rebased v rel (Found.addSet s out set) (Found.addSet s' out' (set.rebase v)) := by
  cases set with
  | them span => exact h
  | items items =>
    have each : ∀ item ∈ items, (.sigil .identity, item.ident) ∈ names := by
      intro item member
      refine named ?_
      simp only [PatternSet.leaves, namesOf_mark, namesOf_append, namesOf_separated, namesOf_nil,
        List.append_nil]
      refine List.mem_flatMap.mpr ⟨item.leaves, List.mem_map_of_mem member, ?_⟩
      unfold SetItem.leaves
      split <;> exact List.mem_cons_self ..
    unfold Found.addSet
    show Rebased v rel (items.foldl (Found.addSetItem s) out)
      ((items.map (·.rebase v)).foldl (Found.addSetItem s') out')
    clear named
    induction items generalizing out out' with
    | nil => exact h
    | cons item rest ih =>
      exact ih (h.addSetItem scopes (each item (List.mem_cons_self ..))) fun item member =>
        each item (List.mem_cons_of_mem _ member)

theorem addRoot {ident : Ident} (named : (.ident, ident) ∈ names) :
    RebasedBoth v rel (Found.addRoot s out ident) (Found.addRoot s' out' (ident.rebase v)) := by
  have name : (ident.rebase v).name = ident.name := scopes.compares.word ident named
  unfold Found.addRoot
  rw [name, scopes.varNamed?, ← scopes.isModule]
  cases s.varNamed? ident.name with
  | some w => exact ⟨h.addSame scopes _ Bool.false_ne_true, rfl⟩
  | none =>
    dsimp only [Option.map_none]
    split
    · rw [scopes.resolves]
      exact ⟨h.addSame scopes _ Bool.false_ne_true, rfl⟩
    split
    · exact ⟨h, rfl⟩
    · exact ⟨h.addSame scopes _ Bool.false_ne_true, rfl⟩

theorem addField {name : Ident} (named : (.ident, name) ∈ names) {path path' : Option Path}
    (leads : path = path') :
    RebasedBoth v rel (Found.addField s name (out, path))
      (Found.addField s' (name.rebase v) (out', path')) := by
  subst leads
  have same : (name.rebase v).name = name.name := scopes.compares.word name named
  cases path with
  | none => exact ⟨h, rfl⟩
  | some path =>
    dsimp only [Found.addField]
    rw [same, scopes.resolves]
    exact ⟨h.addSame scopes _ Bool.false_ne_true, rfl⟩

theorem addVariables (scope : Span) {items items' : Option Path} (leads : items = items')
    {vars : List Ident} (named : ∀ i ∈ vars, (.ident, i) ∈ names) :
    Rebased v rel (Found.addVariables scope items vars (s, out)).2
        (Found.addVariables (scope.rebase v) items' (vars.map (·.rebase v)) (s', out')).2 ∧
      Scope.Rebased v rel names (Found.addVariables scope items vars (s, out)).1
        (Found.addVariables (scope.rebase v) items' (vars.map (·.rebase v)) (s', out')).1 := by
  subst leads
  induction vars generalizing s s' out out' with
  | nil => exact ⟨h, scopes⟩
  | cons ident rest ih =>
    have name : (ident.rebase v).name = ident.name :=
      scopes.compares.word ident (named ident (List.mem_cons_self ..))
    have count : out'.loopVars.length = out.loopVars.length := by rw [h.vars, List.length_map]
    have last : (rest.map (Ident.rebase v)).isEmpty = rest.isEmpty := List.isEmpty_map
    simp only [List.map_cons, Found.addVariables, name, count, last]
    refine ih ?_ ?_ fun i member => named i (List.mem_cons_of_mem _ member)
    · exact { scopes with vars := by rw [scopes.vars, List.map_cons]; rfl }
    · have longer : Rebased v rel
          { out with
            loopVars := out.loopVars ++
              [⟨ident.name, ident.span, scope, if rest.isEmpty then items else none⟩] }
          { out' with
            loopVars := out'.loopVars ++
              [⟨ident.name, (ident.rebase v).span, scope.rebase v,
                if rest.isEmpty then items else none⟩] } := by
        refine ⟨?_, h.occurrences⟩
        rw [h.vars, List.map_append]
        rfl
      exact longer.addSame scopes ident.span Bool.false_ne_true

end Found.Rebased

/-! ### Visits -/

section Visit

variable {v : View} {rel : Occurrence → Occurrence → Prop} {names : List (Kind × Ident)}

mutual

theorem visit_rebased {s s' : Scope} (scopes : Scope.Rebased v rel names s s') (e : Expr)
    {out out' : Found} (h : out.Rebased v rel out') (within : namesOf e.leaves ⊆ names) :
    Found.RebasedBoth v rel (visit s e out) (visit s' (e.rebase v) out') := by
  match e with
  | .atom .. | .integer .. | .error _ => exact ⟨h, rfl⟩
  | .ruleWildcard i => exact ⟨h, rfl⟩
  | .ident i => exact h.addRoot scopes (within (List.mem_cons_self ..))
  | .field object name _ =>
    simp only [Expr.leaves, namesOf_append, namesOf_mark, namesOf_name, namesOf_nil,
      List.append_subset, List.cons_subset] at within
    obtain ⟨found, path⟩ := visit_rebased scopes object h within.1
    exact found.addField scopes within.2.1 path
  | .lookup object index _ =>
    simp only [Expr.leaves, namesOf_append, namesOf_mark, namesOf_nil, List.append_subset] at within
    obtain ⟨first, path⟩ := visit_rebased scopes object h within.1
    have second := (visit_rebased scopes index first within.2.1).found
    rw [Expr.rebase, visit, visit]
    exact ⟨second, congrArg (Option.map (· ++ [.index])) path⟩
  | .call callee args _ =>
    simp only [Expr.leaves, namesOf_append, namesOf_mark, namesOf_nil, namesOf_separated,
      List.append_subset] at within
    obtain ⟨first, _⟩ := visit_rebased scopes callee h within.1
    exact ⟨visitAll_rebased scopes args first within.2.1, rfl⟩
  | .pattern ident anchor _ =>
    simp only [Expr.leaves, namesOf_name, List.cons_subset] at within
    exact ⟨visitAnchor_rebased scopes anchor (h.addPattern scopes within.1 false) within.2, rfl⟩
  | .count ident range _ =>
    simp only [Expr.leaves, namesOf_name, List.cons_subset] at within
    exact ⟨visitRange_rebased scopes range (h.addPattern scopes within.1 false) within.2, rfl⟩
  | .offset ident index _ =>
    simp only [Expr.leaves, namesOf_name, List.cons_subset] at within
    have same : (Expr.rebaseIndex v index).isSome = index.isSome := by cases index <;> rfl
    have found :=
      visitIndex_rebased scopes index (h.addPattern scopes within.1 index.isSome) within.2
    exact ⟨by rw [Expr.rebase, visit, visit, same]; exact found, rfl⟩
  | .length ident index _ =>
    simp only [Expr.leaves, namesOf_name, List.cons_subset] at within
    have same : (Expr.rebaseIndex v index).isSome = index.isSome := by cases index <;> rfl
    have found :=
      visitIndex_rebased scopes index (h.addPattern scopes within.1 index.isSome) within.2
    exact ⟨by rw [Expr.rebase, visit, visit, same]; exact found, rfl⟩
  | .group inner _ =>
    simp only [Expr.leaves, namesOf_mark, namesOf_append, namesOf_nil, List.append_subset] at within
    exact ⟨(visit_rebased scopes inner h within.1).found, rfl⟩
  | .unary _ operand _ =>
    simp only [Expr.leaves, namesOf_mark] at within
    exact ⟨(visit_rebased scopes operand h within).found, rfl⟩
  | .binary _ operands _ =>
    simp only [Expr.leaves, namesOf_separated] at within
    exact ⟨visitAll_rebased scopes operands h within, rfl⟩
  | .of quantifier items anchor _ =>
    simp only [Expr.leaves, namesOf_append, namesOf_mark, List.append_subset] at within
    have first := visitQuantifier_rebased scopes quantifier h within.1
    have second := visitItems_rebased scopes items first within.2.1
    exact ⟨visitAnchor_rebased scopes anchor second within.2.2, rfl⟩
  | .forOf quantifier set body _ =>
    simp only [Expr.leaves, namesOf_append, namesOf_mark, List.append_subset] at within
    have first := visitQuantifier_rebased scopes quantifier h within.1
    have second := first.addSet scopes within.2.1
    have inside :
      Scope.Rebased v rel names { s with insideForOf := true } { s' with insideForOf := true } :=
      { scopes with insideForOf := rfl }
    exact ⟨(visit_rebased inside body second within.2.2).found, rfl⟩
  | .forIn quantifier vars iterable body _ =>
    simp only [Expr.leaves, namesOf_append, namesOf_mark, namesOf_separated,
      List.append_subset] at within
    obtain ⟨in_quantifier, in_vars, in_iterable, in_body⟩ := within
    have named : ∀ i ∈ vars, (.ident, i) ∈ names := fun i member =>
      in_vars (List.mem_flatMap.mpr ⟨[.name .ident i], List.mem_map_of_mem member,
        List.mem_cons_self ..⟩)
    have first := visitQuantifier_rebased scopes quantifier h in_quantifier
    obtain ⟨second, path⟩ := visitIterable_rebased scopes iterable first in_iterable
    obtain ⟨third, inner⟩ := second.addVariables scopes body.span path named
    rw [← body.rebase_span] at third inner
    have fourth := (visit_rebased inner body third in_body).found
    rw [Expr.rebase, visit, visit]
    exact ⟨fourth, rfl⟩

theorem visitAll_rebased {s s' : Scope} (scopes : Scope.Rebased v rel names s s') (es : List Expr)
    {out out' : Found}
    (h : out.Rebased v rel out') (within : (Expr.leavesOfEach es).flatMap namesOf ⊆ names) :
    (visitAll s es out).Rebased v rel (visitAll s' (Expr.rebaseAll v es) out') := by
  match es with
  | [] => exact h
  | e :: rest =>
    simp only [Expr.leavesOfEach, List.flatMap_cons, List.append_subset] at within
    exact visitAll_rebased scopes rest (visit_rebased scopes e h within.1).found within.2

theorem visitBounds_rebased {s s' : Scope} (scopes : Scope.Rebased v rel names s s')
    (b : Bounds Expr)
    {out out' : Found} (h : out.Rebased v rel out')
    (within : namesOf (Expr.leavesOfBounds b) ⊆ names) :
    (visitBounds s b out).Rebased v rel (visitBounds s' (Expr.rebaseBounds v b) out') := by
  match b with
  | ⟨_, lower, upper⟩ =>
    simp only [Expr.leavesOfBounds, namesOf_append, namesOf_mark, namesOf_nil,
      List.append_subset] at within
    exact (visit_rebased scopes upper (visit_rebased scopes lower h within.1).found
      within.2.1).found

theorem visitRange_rebased {s s' : Scope} (scopes : Scope.Rebased v rel names s s')
    (o : Option (Bounds Expr))
    {out out' : Found} (h : out.Rebased v rel out')
    (within : namesOf (Expr.leavesOfRange o) ⊆ names) :
    (visitRange s o out).Rebased v rel (visitRange s' (Expr.rebaseRange v o) out') := by
  match o with
  | none => exact h
  | some b => exact visitBounds_rebased scopes b h within

theorem visitIndex_rebased {s s' : Scope} (scopes : Scope.Rebased v rel names s s')
    (o : Option Expr)
    {out out' : Found} (h : out.Rebased v rel out')
    (within : namesOf (Expr.leavesOfIndex o) ⊆ names) :
    (visitIndex s o out).Rebased v rel (visitIndex s' (Expr.rebaseIndex v o) out') := by
  match o with
  | none => exact h
  | some e =>
    simp only [Expr.leavesOfIndex, namesOf_mark, namesOf_append, namesOf_nil,
      List.append_subset] at within
    exact (visit_rebased scopes e h within.1).found

theorem visitAnchor_rebased {s s' : Scope} (scopes : Scope.Rebased v rel names s s')
    (a : Anchor Expr)
    {out out' : Found} (h : out.Rebased v rel out')
    (within : namesOf (Expr.leavesOfAnchor a) ⊆ names) :
    (visitAnchor s a out).Rebased v rel (visitAnchor s' (Expr.rebaseAnchor v a) out') := by
  match a with
  | .anywhere => exact h
  | .at e => exact (visit_rebased scopes e h within).found
  | .within b => exact visitBounds_rebased scopes b h within

theorem visitQuantifier_rebased {s s' : Scope} (scopes : Scope.Rebased v rel names s s')
    (q : Quantifier Expr)
    {out out' : Found} (h : out.Rebased v rel out')
    (within : namesOf (Expr.leavesOfQuantifier q) ⊆ names) :
    (visitQuantifier s q out).Rebased v rel
      (visitQuantifier s' (Expr.rebaseQuantifier v q) out') := by
  match q with
  | .percentage e =>
    simp only [Expr.leavesOfQuantifier, namesOf_append, List.append_subset] at within
    exact (visit_rebased scopes e h within.1).found
  | .count e => exact (visit_rebased scopes e h within).found
  | .none _ | .all _ | .any _ => exact h

theorem visitItems_rebased {s s' : Scope} (scopes : Scope.Rebased v rel names s s')
    (i : OfItems Expr)
    {out out' : Found} (h : out.Rebased v rel out')
    (within : namesOf (Expr.leavesOfItems i) ⊆ names) :
    (visitItems s i out).Rebased v rel (visitItems s' (Expr.rebaseItems v i) out') := by
  match i with
  | .patterns set => exact h.addSet scopes within
  | .tuple items =>
    simp only [Expr.leavesOfItems, namesOf_mark, namesOf_append, namesOf_separated, namesOf_nil,
      List.append_subset] at within
    exact visitAll_rebased scopes items h within.1

theorem visitIterable_rebased {s s' : Scope} (scopes : Scope.Rebased v rel names s s')
    (i : Iterable Expr)
    {out out' : Found} (h : out.Rebased v rel out')
    (within : namesOf (Expr.leavesOfIterable i) ⊆ names) :
    Found.RebasedBoth v rel (visitIterable s i out)
      (visitIterable s' (Expr.rebaseIterable v i) out') := by
  match i with
  | .range b => exact ⟨visitBounds_rebased scopes b h within, rfl⟩
  | .tuple items =>
    simp only [Expr.leavesOfIterable, namesOf_mark, namesOf_append, namesOf_separated, namesOf_nil,
      List.append_subset] at within
    exact ⟨visitAll_rebased scopes items h within.1, rfl⟩
  | .value e =>
    obtain ⟨found, path⟩ := visit_rebased scopes e h within
    rw [Expr.rebaseIterable, visitIterable, visitIterable]
    exact ⟨found, congrArg (Option.map (· ++ [.index])) path⟩

end

end Visit

/-! ### Documents -/

namespace Document

variable {d d' : Document} {catalog : Catalog} {v : View} {rel : Occurrence → Occurrence → Prop}
  {i : Nat} {r : Rule} {known known' : List PatternSymbol}

theorem declarations_rebased (c : Compares v rel i known known' r.names)
    (nameless : ∀ span, v.name span "" = "") :
    List.Forall₂ rel (declarations i r) (declarations i (r.rebase v)) := by
  unfold declarations
  refine List.rel_append ?_ ?_
  · by_cases empty : r.ident.name = ""
    · have empty' : (r.rebase v).ident.name = "" :=
        (congrArg (v.name r.ident.span) empty).trans (nameless _)
      rw [if_pos (beq_iff_eq.mpr empty), if_pos (beq_iff_eq.mpr empty')]
      exact .nil
    · have named : (.ident, r.ident) ∈ r.names := by
        rw [Rule.names, if_neg empty]
        exact List.mem_append_left _ (List.mem_singleton_self _)
      have empty' : ¬ (r.rebase v).ident.name = "" :=
        fun none => empty ((c.word r.ident named).symm.trans none)
      rw [if_neg (fun same => empty (beq_iff_eq.mp same)),
        if_neg (fun same => empty' (beq_iff_eq.mp same))]
      exact .cons (c.same r.ident.span _ Bool.false_ne_true) .nil
  · have named : ∀ p ∈ r.patterns, (.sigil .identity, p.ident) ∈ r.names := fun p member =>
      List.mem_append_right _ (List.mem_append_left _ (List.mem_map_of_mem member))
    show List.Forall₂ rel _ (((r.patterns.map (·.rebase v)).zipIdx).filterMap _)
    generalize r.patterns = ps at named
    generalize 0 = k
    induction ps generalizing k with
    | nil => exact .nil
    | cons p rest ih =>
      have later := ih (fun q member => named q (List.mem_cons_of_mem _ member)) (k + 1)
      have empty : bareName (p.rebase v).ident.name = "" ↔ _ :=
        c.bare _ p.ident (named p (List.mem_cons_self ..))
      rw [List.map_cons, List.zipIdx_cons, List.zipIdx_cons, List.filterMap_cons,
        List.filterMap_cons]
      dsimp only
      by_cases none : bareName p.ident.name = ""
      · rw [if_pos (beq_iff_eq.mpr none), if_pos (beq_iff_eq.mpr (empty.mpr none))]
        exact later
      · rw [if_neg (fun same => none (beq_iff_eq.mp same)),
          if_neg (fun same => none (empty.mp (beq_iff_eq.mp same)))]
        exact .cons (c.same p.ident.span _ Bool.false_ne_true) later

theorem visitRule_rebased
    (imports : d.file.imports.map (·.moduleName) = d'.file.imports.map (·.moduleName))
    (c : Compares v rel i (d.ruleSymbol r).patterns (d'.ruleSymbol (r.rebase v)).patterns r.names)
    (nameless : ∀ span, v.name span "" = "") {out out' : Found} (h : out.Rebased v rel out') :
    (d.visitRule catalog out (r, i)).Rebased v rel (d'.visitRule catalog out' (r.rebase v, i)) := by
  have first : Found.Rebased v rel { out with occurrences := out.occurrences ++ declarations i r }
      { out' with occurrences := out'.occurrences ++ declarations i (r.rebase v) } :=
    ⟨h.vars, List.rel_append h.occurrences (declarations_rebased c nameless)⟩
  unfold Document.visitRule
  dsimp only
  rw [show (r.rebase v).condition = r.condition.map (·.rebase v) from rfl]
  cases condition : r.condition with
  | none => exact first
  | some e =>
    have scopes : Scope.Rebased v rel r.names
        ⟨catalog, d.file.imports.map (·.moduleName), i, (d.ruleSymbol r).patterns, [], false⟩
        ⟨catalog, d'.file.imports.map (·.moduleName), i, (d'.ruleSymbol (r.rebase v)).patterns,
          [], false⟩ :=
      ⟨c, rfl, imports, rfl, rfl, rfl⟩
    refine (visit_rebased scopes e first ?_).found
    rw [Rule.names, condition]
    exact List.Subset.trans (List.subset_append_right _ _) (List.subset_append_right _ _)

theorem found_rebased (rules : d'.file.rules = d.file.rules.map (·.rebase v))
    (imports : d.file.imports.map (·.moduleName) = d'.file.imports.map (·.moduleName))
    (compares : ∀ i r, d.file.rules[i]? = some r →
      Compares v rel i (d.ruleSymbol r).patterns (d'.ruleSymbol (r.rebase v)).patterns r.names)
    (nameless : ∀ span, v.name span "" = "") :
    (d.found catalog).Rebased v rel (d'.found catalog) := by
  have start : Found.Rebased v rel ⟨[], [], d.syntaxDiagnostics⟩ ⟨[], [], d'.syntaxDiagnostics⟩ :=
    ⟨rfl, .nil⟩
  have all : ∀ (rs : List Rule) (k : Nat) (out out' : Found), out.Rebased v rel out' →
      (∀ i r, rs[i]? = some r → Compares v rel (k + i) (d.ruleSymbol r).patterns
        (d'.ruleSymbol (r.rebase v)).patterns r.names) →
      Found.Rebased v rel ((rs.zipIdx k).foldl (d.visitRule catalog) out)
        (((rs.map (·.rebase v)).zipIdx k).foldl (d'.visitRule catalog) out') := by
    intro rs
    induction rs with
    | nil => exact fun _ _ _ h _ => h
    | cons r rest ih =>
      intro k out out' h each
      rw [List.map_cons, List.zipIdx_cons, List.zipIdx_cons, List.foldl_cons, List.foldl_cons]
      refine ih (k + 1) _ _ (visitRule_rebased imports (each 0 r rfl) nameless h)
        fun i q place => ?_
      have here := each (i + 1) q place
      rwa [Nat.add_comm i 1, ← Nat.add_assoc] at here
  unfold found
  rw [rules]
  exact all d.file.rules 0 _ _ start fun i r place => (Nat.zero_add i).symm ▸ compares i r place

/-- The index of a text whose parse is a view of another one. -/
theorem index_rebased {uri : String} {version version' : Option Int} {text text' : List Char}
    {order order' : Nat}
    (file : parse text' = (parse text).rebase v)
    (ordered : ∀ {a b}, a ≤ b → v.offset a ≤ v.offset b)
    (spans : ∀ o o', rel o o' → o'.span = o.span.rebase v) (nameless : ∀ span, v.name span "" = "")
    (compares : ∀ i r, (parse text).rules[i]? = some r →
      Compares v rel i ((ofText uri version text).ruleSymbol r).patterns
        ((ofText uri version' text').ruleSymbol (r.rebase v)).patterns r.names) :
    ((ofText uri version' text').index catalog order').loopVars =
        ((ofText uri version text).index catalog order).loopVars.map (·.rebase v) ∧
      List.Forall₂ rel ((ofText uri version text).index catalog order).occurrences
        ((ofText uri version' text').index catalog order').occurrences := by
  have rules : (ofText uri version' text').file.rules =
    (ofText uri version text).file.rules.map (·.rebase v) :=
    congrArg SourceFile.rules file
  have imports : (ofText uri version text).file.imports.map (·.moduleName) =
      (ofText uri version' text').file.imports.map (·.moduleName) := by
    refine Eq.symm ((congrArg (fun f : SourceFile => f.imports.map (·.moduleName)) file).trans ?_)
    show ((parse text).imports.map _).map _ = _
    rw [List.map_map]
    rfl
  have found : ((ofText uri version text).found catalog).Rebased v rel
    ((ofText uri version' text').found catalog) :=
    found_rebased rules imports compares nameless
  obtain ⟨apart, wide⟩ := DocumentIndex.Read.ordered ⟨uri, version, text, catalog, order, rfl⟩
  obtain ⟨_, wide'⟩ := DocumentIndex.Read.ordered ⟨uri, version', text', catalog, order', rfl⟩
  refine ⟨found.vars, forall₂_mergeSort found.occurrences ?_⟩
  obtain ⟨_, related⟩ := List.forall₂_iff_zip.mp found.occurrences
  have facts : ∀ a ∈ ((ofText uri version text).found catalog).occurrences.zip
      ((ofText uri version' text').found catalog).occurrences,
      a.2.span = a.1.span.rebase v ∧
        a.1 ∈ ((ofText uri version text).index catalog order).occurrences ∧
        a.1.span.start < a.1.span.stop ∧ v.offset a.1.span.start < v.offset a.1.span.stop := by
    intro a pair
    have place := spans _ _ (related pair)
    have member : a.1 ∈ ((ofText uri version text).index catalog order).occurrences :=
      DocumentIndex.mem_occurrences.mpr (List.of_mem_zip pair).1
    have member' : a.2 ∈ ((ofText uri version' text').index catalog order').occurrences :=
      DocumentIndex.mem_occurrences.mpr (List.of_mem_zip pair).2
    have moved := wide' _ member'
    rw [place] at moved
    exact ⟨place, member, wide _ member, moved⟩
  intro a pair b pair'
  obtain ⟨place, member, wide, moved⟩ := facts a pair
  obtain ⟨place', member', wide', moved'⟩ := facts b pair'
  rw [place, place']
  by_cases same : a.1 = b.1
  · rw [← same, (or_self_iff.mp (Bool.or_eq_true_iff.mp (Span.notAfter_total a.1.span a.1.span))),
      (or_self_iff.mp
        (Bool.or_eq_true_iff.mp (Span.notAfter_total (a.1.span.rebase v) (a.1.span.rebase v))))]
  · have symm : Std.Symm fun o u : Occurrence => o.span.Apart u.span := ⟨fun _ _ => Span.Apart.symm⟩
    have all_apart := apart.imp (S := fun o u => o.span.Apart u.span) Or.inl
    have both := all_apart.forall member member' same
    exact both.notAfter_rebase ordered wide wide' moved moved'

end Document

end RuleDesk
