import Mathlib.Data.List.Perm.Subperm
import RuleDesk.Index.Visit
import RuleDesk.Proofs.Indexing.Mentions

namespace RuleDesk

/-- What a list has at a place, a longer one has there too. -/
theorem getElem?_of_longer {l l' : List α} (longer : l <+: l') {i : Nat} {a : α}
    (known : l[i]? = some a) : l'[i]? = some a := by
  obtain ⟨_, rfl⟩ := longer
  exact (List.getElem?_append_left (List.getElem?_eq_some_iff.mp known).1).trans known

/-! ### What a name yields -/

/-- The occurrences and the errors that come from a name in the condition of a
rule, where some patterns are declared and some loop variables are known. -/
inductive Mention.Yields (rule : Nat) (patterns : List PatternSymbol) (vars : List LoopVariable) :
    Mention → List Occurrence → List Diagnostic → Prop
  | anonymous {sigil : Sigil} {indexed inForOf : Bool} {i : Ident}
      (nameless : bareName i.name = "") :
      Yields rule patterns vars ⟨.pattern sigil indexed, i, inForOf⟩ []
        (if inForOf then []
        else [.error i.span ("`" ++ i.name ++ "` used outside of `for .. of`") none])
  | pattern {sigil : Sigil} {indexed inForOf : Bool} {i : Ident} (named : bareName i.name ≠ "") :
      Yields rule patterns vars ⟨.pattern sigil indexed, i, inForOf⟩
        [⟨i.span, rule, .patternReference (patternNamed? patterns i.name) false indexed⟩]
        (if (patternNamed? patterns i.name).isNone then
          [.error i.span ("unknown pattern `" ++ i.name ++ "`") (some "unknown_pattern")] else [])
  | wildcard {item : Span} {inForOf : Bool} {i : Ident} :
      Yields rule patterns vars ⟨.wildcard item, i, inForOf⟩
        (if bareName i.name == "" then [] else [⟨i.span, rule, .patternReference none true false⟩])
        (if patterns.any fun p => (bareName i.name).toList.isPrefixOf (bareName p.name).toList
          then [] else [.error item ("no pattern matches `" ++ i.name ++ "*`") none])
  | loopVariable {inForOf : Bool} {i : Ident} {v : Nat} {w : LoopVariable}
      (known : vars[v]? = some w) (same : w.name = i.name) :
      Yields rule patterns vars ⟨.root, i, inForOf⟩ [⟨i.span, rule, .variableReference v⟩] []
  | module {inForOf resolved : Bool} {i : Ident} :
      Yields rule patterns vars ⟨.root, i, inForOf⟩
          [⟨i.span, rule, .moduleReference [.field i.name] resolved⟩] []
  | rule {inForOf : Bool} {i : Ident} (named : i.name ≠ "") :
      Yields rule patterns vars ⟨.root, i, inForOf⟩ [⟨i.span, rule, .ruleReference i.name⟩] []
  | nameless {inForOf : Bool} {i : Ident} (empty : i.name = "") :
      Yields rule patterns vars ⟨.root, i, inForOf⟩ [] []
  | member {inForOf resolved : Bool} {i : Ident} {path : Path} :
      Yields rule patterns vars ⟨.field, i, inForOf⟩
          [⟨i.span, rule, .moduleReference (path ++ [.field i.name]) resolved⟩] []
  | field {inForOf : Bool} {i : Ident} : Yields rule patterns vars ⟨.field, i, inForOf⟩ [] []
  | declared {inForOf : Bool} {i : Ident} {v : Nat} {w : LoopVariable} (known : vars[v]? = some w)
      (same : w.name = i.name) :
      Yields rule patterns vars ⟨.declared, i, inForOf⟩ [⟨i.span, rule, .variableDeclaration v⟩] []
  | rules {inForOf : Bool} {i : Ident} : Yields rule patterns vars ⟨.rules, i, inForOf⟩ [] []

/-- What an occurrence in a condition may be, where some patterns and so many
loop variables are known. -/
inductive OccurrenceKind.Sound (patterns : List PatternSymbol) (vars : Nat) : OccurrenceKind → Prop
  | rule {name : String} (named : name ≠ "") : Sound patterns vars (.ruleReference name)
  | pattern {p : Nat} {q : PatternSymbol} {wildcard indexed : Bool} (place : patterns[p]? = some q)
      (named : bareName q.name ≠ "") :
      Sound patterns vars (.patternReference (some p) wildcard indexed)
  | noPattern {wildcard indexed : Bool} :
      Sound patterns vars (.patternReference none wildcard indexed)
  | declaration {v : Nat} : Sound patterns vars (.variableDeclaration v)
  | var {v : Nat} (known : v < vars) : Sound patterns vars (.variableReference v)
  | member {path : Path} {resolved : Bool} : Sound patterns vars (.moduleReference path resolved)

theorem patternNamed?_some {patterns : List PatternSymbol} {name : String} {p : Nat}
    (h : patternNamed? patterns name = some p) : ∃ q, patterns[p]? = some q ∧
    bareName q.name = bareName name ∧ bareName name ≠ "" := by
  unfold patternNamed? at h
  dsimp only at h
  split at h
  · cases h
  · rename_i named
    obtain ⟨inside, found, _⟩ := List.findIdx?_eq_some_iff_getElem.mp h
    refine ⟨patterns[p], List.getElem?_eq_getElem inside, beq_iff_eq.mp found,
      fun empty => named ?_⟩
    rw [empty]
    rfl

namespace Mention.Yields

variable {rule : Nat} {patterns : List PatternSymbol} {vars more : List LoopVariable} {m : Mention}
  {os : List Occurrence} {errors : List Diagnostic}

/-- More loop variables do not matter. -/
theorem mono (h : m.Yields rule patterns vars os errors) (longer : vars <+: more) :
    m.Yields rule patterns more os errors := by
  cases h with
  | anonymous nameless => exact .anonymous nameless
  | pattern named => exact .pattern named
  | wildcard => exact .wildcard
  | loopVariable known same => exact .loopVariable (getElem?_of_longer longer known) same
  | module => exact .module
  | rule named => exact .rule named
  | nameless empty => exact .nameless empty
  | member => exact .member
  | field => exact .field
  | declared known same => exact .declared (getElem?_of_longer longer known) same
  | rules => exact .rules

/-- There is at most one occurrence, at the name. -/
theorem spans (h : m.Yields rule patterns vars os errors) :
    (os.map (·.span)).Sublist [m.ident.span] := by
  cases h with
  | wildcard =>
    split
    · exact .cons _ .slnil
    · exact List.Sublist.refl _
  | anonymous | nameless | field | rules => exact .cons _ .slnil
  | _ => exact List.Sublist.refl _

theorem sound (h : m.Yields rule patterns vars os errors) {o : Occurrence} (member : o ∈ os) :
    o.rule = rule ∧ o.kind.Sound patterns vars.length := by
  cases h with
  | anonymous | nameless | field | rules => cases member
  | pattern named =>
    obtain rfl := List.mem_singleton.mp member
    refine ⟨rfl, ?_⟩
    cases found : patternNamed? patterns _ with
    | none => exact .noPattern
    | some p =>
      obtain ⟨q, place, same, named⟩ := patternNamed?_some found
      exact .pattern place (same ▸ named)
  | wildcard =>
    split at member
    · cases member
    · obtain rfl := List.mem_singleton.mp member
      exact ⟨rfl, .noPattern⟩
  | loopVariable known =>
    obtain rfl := List.mem_singleton.mp member
    exact ⟨rfl, .var (List.getElem?_eq_some_iff.mp known).1⟩
  | module | member =>
    obtain rfl := List.mem_singleton.mp member
    exact ⟨rfl, .member⟩
  | rule named =>
    obtain rfl := List.mem_singleton.mp member
    exact ⟨rfl, .rule named⟩
  | declared =>
    obtain rfl := List.mem_singleton.mp member
    exact ⟨rfl, .declaration⟩

/-- What is recorded as a reference to a pattern names one, with a name behind its sigil. -/
theorem asks (h : m.Yields rule patterns vars os errors) {o : Occurrence} (member : o ∈ os)
    {p : Option Nat} {indexed : Bool} (kind : o.kind = .patternReference p false indexed) :
    ∃ sigil, m.use = .pattern sigil indexed ∧ m.ident.span = o.span ∧
      patternNamed? patterns m.ident.name = p := by
  cases h with
  | @pattern sigil =>
    obtain rfl := List.mem_singleton.mp member
    cases kind
    exact ⟨sigil, rfl, rfl, rfl⟩
  | wildcard =>
    split at member
    · cases member
    · obtain rfl := List.mem_singleton.mp member
      cases kind
  | anonymous | nameless | field | rules => cases member
  | _ =>
    obtain rfl := List.mem_singleton.mp member
    cases kind

end Mention.Yields

/-! ### What a visit finds -/

/-- Some names have been visited, in this order or another one: what they yield
has come to what was found before. A variable of a loop is a new one. -/
inductive Visited (rule : Nat) (patterns : List PatternSymbol) : Found → List Mention → Found → Prop
  | refl (out : Found) : Visited rule patterns out [] out
  | mention {out out' : Found} {m : Mention} {ms : List Mention} {os : List Occurrence}
      {errors : List Diagnostic} (yields : m.Yields rule patterns out.loopVars os errors)
      (rest : Visited rule patterns ⟨out.loopVars, out.occurrences ++ os, out.diagnostics ++ errors⟩
      ms out') :
      Visited rule patterns out (m :: ms) out'
  | declared {out out' : Found} {inForOf : Bool} {i : Ident} {ms : List Mention} {w : LoopVariable}
      (same : w.name = i.name) (place : w.nameSpan = i.span)
      (rest : Visited rule patterns ⟨out.loopVars ++ [w],
        out.occurrences ++ [⟨i.span, rule, .variableDeclaration out.loopVars.length⟩],
            out.diagnostics⟩ ms out') :
      Visited rule patterns out (⟨.declared, i, inForOf⟩ :: ms) out'
  | perm {out out' : Found} {ms ms' : List Mention} (h : Visited rule patterns out ms out')
      (same : ms.Perm ms') :
      Visited rule patterns out ms' out'

namespace Visited

variable {rule : Nat} {patterns : List PatternSymbol} {out mid out' : Found} {ms ms' : List Mention}

theorem trans (h : Visited rule patterns out ms mid) (h' : Visited rule patterns mid ms' out') :
    Visited rule patterns out (ms ++ ms') out' := by
  induction h with
  | refl => exact h'
  | mention yields _ ih => exact .mention yields (ih h')
  | declared same place _ ih => exact .declared same place (ih h')
  | perm _ same ih => exact .perm (ih h') (same.append_right _)

/-- One name has been visited. -/
theorem one {m : Mention} {os : List Occurrence} {errors : List Diagnostic}
    (yields : m.Yields rule patterns out.loopVars os errors)
    (vars : out'.loopVars = out.loopVars) (occurrences : out'.occurrences = out.occurrences ++ os)
    (diagnostics : out'.diagnostics = out.diagnostics ++ errors) : Visited rule patterns out
    [m] out' := by
  refine .mention yields ?_
  rw [← vars, ← occurrences, ← diagnostics]
  exact .refl out'

theorem vars (h : Visited rule patterns out ms out') : out.loopVars <+: out'.loopVars := by
  induction h with
  | refl => exact List.prefix_refl _
  | mention _ _ ih => exact ih
  | declared _ _ _ ih => exact (List.prefix_append _ _).trans ih
  | perm _ _ ih => exact ih

/-- The new occurrences are at the names, each at one of its own. -/
theorem places (h : Visited rule patterns out ms out') :
    ∃ new, out'.occurrences = out.occurrences ++ new ∧
    (new.map (·.span)).Subperm (ms.map (·.ident.span)) := by
  induction h with
  | refl => exact ⟨[], (List.append_nil _).symm, List.Subperm.refl _⟩
  | @mention _ _ _ _ os _ yields _ ih =>
    obtain ⟨new, eq, spans⟩ := ih
    refine ⟨os ++ new, by rw [eq, List.append_assoc], ?_⟩
    rw [List.map_append]
    exact yields.spans.subperm.append spans
  | declared _ _ _ ih =>
    obtain ⟨new, eq, spans⟩ := ih
    refine ⟨_ :: new, by rw [eq, List.append_assoc]; rfl, ?_⟩
    rw [List.map_cons, List.map_cons]
    exact (List.subperm_cons _).mpr spans
  | perm _ same ih =>
    obtain ⟨new, eq, spans⟩ := ih
    exact ⟨new, eq, spans.trans (same.map _).subperm⟩

theorem errors_kept (h : Visited rule patterns out ms out') :
    out.diagnostics <+: out'.diagnostics := by
  induction h with
  | refl => exact List.prefix_refl _
  | mention _ _ ih => exact (List.prefix_append _ _).trans ih
  | declared _ _ _ ih => exact ih
  | perm _ _ ih => exact ih

/-- What each of the names yields is found. -/
theorem yields (h : Visited rule patterns out ms out') {m : Mention} (member : m ∈ ms) :
    ∃ os errors, m.Yields rule patterns out'.loopVars os errors ∧ os ⊆ out'.occurrences ∧
      errors ⊆ out'.diagnostics := by
  induction h with
  | refl => cases member
  | @mention _ _ _ _ os errors yields rest ih =>
    rcases List.mem_cons.mp member with rfl | later
    · obtain ⟨_, eq, _⟩ := rest.places
      refine ⟨os, errors, yields.mono rest.vars, fun o inside => ?_, fun e inside => ?_⟩
      · exact eq ▸ List.mem_append_left _ (List.mem_append_right _ inside)
      · exact rest.errors_kept.subset (List.mem_append_right _ inside)
    · exact ih later
  | @declared _ _ _ _ _ w same place rest ih =>
    rcases List.mem_cons.mp member with rfl | later
    · obtain ⟨_, eq, _⟩ := rest.places
      refine ⟨_, [], (Mention.Yields.declared List.getElem?_concat_length same).mono rest.vars,
        fun o inside => ?_, nofun⟩
      exact eq ▸ List.mem_append_left _ (List.mem_append_right _ inside)
    · exact ih later
  | perm _ same ih => exact ih (same.mem_iff.mpr member)

/-- A new occurrence comes from one of the names. -/
theorem occurrence (h : Visited rule patterns out ms out') {o : Occurrence}
    (member : o ∈ out'.occurrences) :
    o ∈ out.occurrences ∨ ∃ m ∈ ms, ∃ os errors, m.Yields rule patterns out'.loopVars os errors ∧
      o ∈ os := by
  induction h with
  | refl => exact .inl member
  | @mention _ _ m _ os errors yields rest ih =>
    rcases ih member with before | ⟨m', later, from_it⟩
    · refine (List.mem_append.mp before).imp id fun new => ?_
      exact ⟨m, List.mem_cons_self .., os, errors, yields.mono rest.vars, new⟩
    · exact .inr ⟨m', List.mem_cons_of_mem _ later, from_it⟩
  | declared same place rest ih =>
    rcases ih member with before | ⟨m', later, from_it⟩
    · refine (List.mem_append.mp before).imp id fun new => ?_
      exact ⟨_, List.mem_cons_self .., _, [],
        (Mention.Yields.declared List.getElem?_concat_length same).mono rest.vars, new⟩
    · exact .inr ⟨m', List.mem_cons_of_mem _ later, from_it⟩
  | perm _ same ih =>
    exact (ih member).imp id fun ⟨m, inside, from_it⟩ => ⟨m, same.mem_iff.mp inside, from_it⟩

/-- A new error comes from one of the names. -/
theorem error (h : Visited rule patterns out ms out') {e : Diagnostic}
    (member : e ∈ out'.diagnostics) :
    e ∈ out.diagnostics ∨ ∃ m ∈ ms, ∃ os errors, m.Yields rule patterns out'.loopVars os errors ∧
      e ∈ errors := by
  induction h with
  | refl => exact .inl member
  | @mention _ _ m _ os errors yields rest ih =>
    rcases ih member with before | ⟨m', later, from_it⟩
    · refine (List.mem_append.mp before).imp id fun new => ?_
      exact ⟨m, List.mem_cons_self .., os, errors, yields.mono rest.vars, new⟩
    · exact .inr ⟨m', List.mem_cons_of_mem _ later, from_it⟩
  | declared same place rest ih =>
    exact (ih member).imp id fun ⟨m, later, from_it⟩ => ⟨m, List.mem_cons_of_mem _ later, from_it⟩
  | perm _ same ih =>
    exact (ih member).imp id fun ⟨m, inside, from_it⟩ => ⟨m, same.mem_iff.mp inside, from_it⟩

/-- A new loop variable is declared at an occurrence. -/
theorem declares (h : Visited rule patterns out ms out') {v : Nat} {w : LoopVariable}
    (new : out.loopVars.length ≤ v) (known : out'.loopVars[v]? = some w) :
    ∃ o ∈ out'.occurrences, o.kind = .variableDeclaration v ∧ o.span = w.nameSpan := by
  induction h with
  | refl => exact absurd (List.getElem?_eq_some_iff.mp known).1 (Nat.not_lt_of_le new)
  | mention _ _ ih => exact ih new known
  | @declared out out' _ i _ u same place rest ih =>
    rcases Nat.lt_or_eq_of_le new with later | rfl
    · exact ih (List.length_append ▸ later) known
    · obtain ⟨_, eq, _⟩ := rest.places
      have here : out'.loopVars[out.loopVars.length]? = some u :=
        getElem?_of_longer rest.vars List.getElem?_concat_length
      obtain rfl := Option.some.inj (here.symm.trans known)
      exact ⟨_, eq ▸ List.mem_append_left _ (List.mem_append_right _ (List.mem_singleton_self _)),
        rfl, place.symm⟩
  | perm _ _ ih => exact ih new known

end Visited

/-- The loop variables of a scope are known. -/
def Scope.Within (s : Scope) (out : Found) : Prop := ∀ v ∈ s.vars, out.loopVars[v.1]? = some v.2

theorem Scope.Within.later {s : Scope} {rule : Nat} {patterns : List PatternSymbol}
    {out out' : Found} {ms : List Mention}
    (h : s.Within out) (visited : Visited rule patterns out ms out') : s.Within out' :=
  fun v member => getElem?_of_longer visited.vars (h v member)

namespace Found

variable {s : Scope} {out : Found}

theorem addPattern_visited (s : Scope) (out : Found) (sigil : Sigil) (ident : Ident)
    (indexed : Bool) :
    Visited s.rule s.patterns out
      [⟨.pattern sigil indexed, ident, s.insideForOf⟩] (out.addPattern s ident indexed) := by
  unfold addPattern
  by_cases nameless : bareName ident.name = ""
  · rw [if_pos (beq_iff_eq.mpr nameless)]
    refine .one (.anonymous nameless) ?_ ?_ ?_ <;> cases s.insideForOf <;> simp [addError]
  · rw [if_neg fun empty => nameless (beq_iff_eq.mp empty)]
    refine .one (.pattern nameless) ?_ ?_ ?_ <;>
      cases patternNamed? s.patterns ident.name <;> simp [addError, addOccurrence]

theorem addSetItem_visited (item : SetItem) :
    Visited s.rule s.patterns out [item.mention s.insideForOf] (addSetItem s out item) := by
  unfold addSetItem SetItem.mention
  cases item.wildcard with
  | false => exact addPattern_visited s out .identity item.ident false
  | true =>
    have yields : (⟨.wildcard item.span, item.ident, s.insideForOf⟩ :
        Mention).Yields s.rule s.patterns out.loopVars _ _ := .wildcard
    rw [if_pos rfl, if_pos rfl]
    dsimp only
    generalize (s.patterns.any _) = matched at yields ⊢
    generalize (bareName item.ident.name == "") = nameless at yields ⊢
    cases matched <;> cases nameless <;> exact .one yields rfl (by simp [addError, addOccurrence])
      (by simp [addError, addOccurrence])

theorem addSet_visited (s : Scope) (out : Found) (set : PatternSet) :
    Visited s.rule s.patterns out (set.listed.map (·.mention s.insideForOf))
      (addSet s out set) := by
  cases set with
  | them span => exact .refl out
  | items items =>
    unfold addSet PatternSet.listed
    induction items generalizing out with
    | nil => exact .refl out
    | cons item rest ih => exact (addSetItem_visited item).trans (ih _)

theorem addRoot_visited (within : s.Within out) (ident : Ident) :
    Visited s.rule s.patterns out [⟨.root, ident, s.insideForOf⟩] (addRoot s out ident).1 := by
  unfold addRoot
  split
  · rename_i v w found
    have same : w.name = ident.name := beq_iff_eq.mp
      (List.find?_some (p := fun v : Nat × LoopVariable => v.2.name == ident.name) found)
    exact .one (.loopVariable (within _ (List.mem_of_find?_eq_some found)) same) rfl rfl
      (List.append_nil _).symm
  · split
    · exact .one .module rfl rfl (List.append_nil _).symm
    split
    · rename_i empty
      exact .one (.nameless (beq_iff_eq.mp empty)) rfl (List.append_nil _).symm
        (List.append_nil _).symm
    · rename_i named
      exact .one (.rule fun empty => named (beq_iff_eq.mpr empty)) rfl rfl (List.append_nil _).symm

theorem addField_visited {ms : List Mention} {acc : Found × Option Path} (name : Ident) (b : Bool)
    (h : Visited s.rule s.patterns out ms acc.1) :
    Visited s.rule s.patterns out (ms ++ [⟨.field, name, b⟩]) (addField s name acc).1 := by
  obtain ⟨found, path⟩ := acc
  cases path with
  | none => exact h.trans (.one .field rfl (List.append_nil _).symm (List.append_nil _).symm)
  | some path => exact h.trans (.one .member rfl rfl (List.append_nil _).symm)

theorem addVariables_visited (scope : Span) (items : Option Path) (vars : List Ident) (b : Bool)
    (within : s.Within out) :
    Visited s.rule s.patterns out (vars.map (⟨.declared, ·, b⟩))
      (addVariables scope items vars (s, out)).2 ∧
      (addVariables scope items vars (s, out)).1.Within (addVariables scope items vars (s, out)).2 ∧
      (addVariables scope items vars (s, out)).1.rule = s.rule ∧
      (addVariables scope items vars (s, out)).1.patterns = s.patterns ∧
      (addVariables scope items vars (s, out)).1.insideForOf = s.insideForOf := by
  induction vars generalizing s out with
  | nil => exact ⟨.refl out, within, rfl, rfl, rfl⟩
  | cons ident rest ih =>
    let w : LoopVariable := ⟨ident.name, ident.span, scope, if rest.isEmpty then items else none⟩
    have inner : Scope.Within { s with vars := (out.loopVars.length, w) :: s.vars }
        ⟨out.loopVars ++ [w], out.occurrences ++
          [⟨ident.span, s.rule, .variableDeclaration out.loopVars.length⟩], out.diagnostics⟩ := by
      refine List.forall_mem_cons.mpr ⟨List.getElem?_concat_length, fun v member => ?_⟩
      exact getElem?_of_longer (List.prefix_append _ _) (within v member)
    obtain ⟨later, within, rule, patterns, inside⟩ := ih inner
    exact ⟨.declared rfl rfl later, within, rule, patterns, inside⟩

end Found

/-! ### Visits -/

section Visit

open RuleDesk.Expr (mentions_parts mentionsIn mentionsIn_nil mentionsIn_cons mentionsIn_singleton
  mentionsIn_append)

mutual

theorem visit_visited (s : Scope) (e : Expr) (out : Found) (within : s.Within out) :
    Visited s.rule s.patterns out (e.mentions s.insideForOf) (visit s e out).1 := by
  match e with
  | .forOf quantifier set body _ =>
    rw [Expr.mentions_forOf]
    have first := visitQuantifier_visited s quantifier out within
    have second := Found.addSet_visited s (visitQuantifier s quantifier out) set
    have third :=
      visit_visited { s with insideForOf := true } body _ ((within.later first).later second)
    exact (first.trans (second.trans third)).perm (List.perm_append_comm_assoc ..)
  | .atom .. | .integer .. | .error _ =>
    rw [mentions_parts _ rfl]
    exact .refl out
  | .ruleWildcard i =>
    rw [mentions_parts _ rfl]
    exact .one .rules rfl (List.append_nil _).symm (List.append_nil _).symm
  | .ident i =>
    rw [mentions_parts _ rfl]
    exact Found.addRoot_visited within i
  | .field object name _ =>
    rw [mentions_parts _ rfl]
    have first := visit_visited s object out within
    refine (Found.addField_visited name s.insideForOf first).perm ?_
    rw [Expr.parts, mentionsIn_singleton]
    exact List.perm_append_comm
  | .lookup object index _ =>
    rw [mentions_parts _ rfl]
    have first := visit_visited s object out within
    have second := visit_visited s index _ (within.later first)
    rw [Expr.parts, mentionsIn_cons, mentionsIn_singleton]
    exact first.trans second
  | .call callee args _ =>
    rw [mentions_parts _ rfl]
    have first := visit_visited s callee out within
    have second := visitAll_visited s args _ (within.later first)
    exact first.trans second
  | .pattern ident anchor _ =>
    rw [mentions_parts _ rfl]
    have first := Found.addPattern_visited s out .identity ident false
    exact first.trans (visitAnchor_visited s anchor _ (within.later first))
  | .count ident range _ =>
    rw [mentions_parts _ rfl]
    have first := Found.addPattern_visited s out .count ident false
    exact first.trans (visitRange_visited s range _ (within.later first))
  | .offset ident index _ =>
    rw [mentions_parts _ rfl]
    have first := Found.addPattern_visited s out .offset ident index.isSome
    exact first.trans (visitIndex_visited s index _ (within.later first))
  | .length ident index _ =>
    rw [mentions_parts _ rfl]
    have first := Found.addPattern_visited s out .length ident index.isSome
    exact first.trans (visitIndex_visited s index _ (within.later first))
  | .group inner _ =>
    rw [mentions_parts _ rfl, Expr.parts, mentionsIn_singleton]
    exact visit_visited s inner out within
  | .unary _ operand _ =>
    rw [mentions_parts _ rfl, Expr.parts, mentionsIn_singleton]
    exact visit_visited s operand out within
  | .binary _ operands _ =>
    rw [mentions_parts _ rfl]
    exact visitAll_visited s operands out within
  | .of quantifier items anchor _ =>
    rw [mentions_parts _ rfl]
    have first := visitQuantifier_visited s quantifier out within
    have second := visitItems_visited s items _ (within.later first)
    have third := visitAnchor_visited s anchor _ ((within.later first).later second)
    refine (first.trans (second.trans third)).perm ?_
    rw [Expr.parts, mentionsIn_append, mentionsIn_append, List.append_assoc]
    exact List.perm_append_comm_assoc ..
  | .forIn quantifier vars iterable body _ =>
    rw [mentions_parts _ rfl]
    have first := visitQuantifier_visited s quantifier out within
    have second := visitIterable_visited s iterable _ (within.later first)
    obtain ⟨third, inner, rule, patterns, inForOf⟩ := Found.addVariables_visited body.span
      (visitIterable s iterable (visitQuantifier s quantifier out)).2 vars s.insideForOf
        ((within.later first).later second)
    have fourth := visit_visited _ body _ inner
    rw [rule, patterns, inForOf] at fourth
    refine (first.trans (second.trans (third.trans fourth))).perm ?_
    rw [Expr.parts, mentionsIn_append, mentionsIn_append, mentionsIn_singleton]
    exact ((List.perm_append_comm_assoc ..).append_left _).trans (List.perm_append_comm_assoc ..)

theorem visitAll_visited (s : Scope) (es : List Expr) (out : Found) (within : s.Within out) :
    Visited s.rule s.patterns out (mentionsIn s.insideForOf es) (visitAll s es out) := by
  match es with
  | [] => exact .refl out
  | e :: rest =>
    have first := visit_visited s e out within
    exact first.trans (visitAll_visited s rest _ (within.later first))

theorem visitBounds_visited (s : Scope) (b : Bounds Expr) (out : Found) (within : s.Within out) :
    Visited s.rule s.patterns out (mentionsIn s.insideForOf b.parts) (visitBounds s b out) := by
  match b with
  | ⟨_, lower, upper⟩ =>
    have first := visit_visited s lower out within
    have second := visit_visited s upper _ (within.later first)
    rw [Bounds.parts, mentionsIn_cons, mentionsIn_singleton]
    exact first.trans second

theorem visitRange_visited (s : Scope) (o : Option (Bounds Expr)) (out : Found)
    (within : s.Within out) :
    Visited s.rule s.patterns out (mentionsIn s.insideForOf (o.elim [] Bounds.parts))
      (visitRange s o out) := by
  match o with
  | none => exact .refl out
  | some b => exact visitBounds_visited s b out within

theorem visitIndex_visited (s : Scope) (o : Option Expr) (out : Found) (within : s.Within out) :
    Visited s.rule s.patterns out (mentionsIn s.insideForOf o.toList) (visitIndex s o out) := by
  match o with
  | none => exact .refl out
  | some e =>
    rw [Option.toList_some, mentionsIn_singleton]
    exact visit_visited s e out within

theorem visitAnchor_visited (s : Scope) (a : Anchor Expr) (out : Found) (within : s.Within out) :
    Visited s.rule s.patterns out (mentionsIn s.insideForOf a.parts) (visitAnchor s a out) := by
  match a with
  | .anywhere => exact .refl out
  | .at e =>
    rw [Anchor.parts, mentionsIn_singleton]
    exact visit_visited s e out within
  | .within b => exact visitBounds_visited s b out within

theorem visitQuantifier_visited (s : Scope) (q : Quantifier Expr) (out : Found)
    (within : s.Within out) :
    Visited s.rule s.patterns out (mentionsIn s.insideForOf q.parts) (visitQuantifier s q out) := by
  match q with
  | .percentage e =>
    rw [Quantifier.parts, mentionsIn_singleton]
    exact visit_visited s e out within
  | .count e =>
    rw [Quantifier.parts, mentionsIn_singleton]
    exact visit_visited s e out within
  | .none _ | .all _ | .any _ => exact .refl out

theorem visitItems_visited (s : Scope) (i : OfItems Expr) (out : Found) (within : s.Within out) :
    Visited s.rule s.patterns out (i.listed.map (·.mention s.insideForOf) ++
      mentionsIn s.insideForOf i.parts) (visitItems s i out) := by
  match i with
  | .patterns set =>
    rw [OfItems.parts, mentionsIn_nil, List.append_nil]
    exact Found.addSet_visited s out set
  | .tuple items => exact visitAll_visited s items out within

theorem visitIterable_visited (s : Scope) (i : Iterable Expr) (out : Found)
    (within : s.Within out) :
    Visited s.rule s.patterns out (mentionsIn s.insideForOf i.parts) (visitIterable s i out).1 := by
  match i with
  | .range b => exact visitBounds_visited s b out within
  | .tuple items => exact visitAll_visited s items out within
  | .value e =>
    rw [Iterable.parts, mentionsIn_singleton]
    exact visit_visited s e out within

end

end Visit

end RuleDesk
