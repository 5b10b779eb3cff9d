import Mathlib.Data.List.Induction
import RuleDesk.Proofs.Indexing.Visited
import RuleDesk.Proofs.Parsing.Origins

namespace RuleDesk

/-- What a list with one more element has at a place, it had there before or it is the last one. -/
theorem of_getElem?_concat {l : List α} {a b : α} {i : Nat} (h : (l ++ [a])[i]? = some b) :
    l[i]? = some b ∨ i = l.length ∧ b = a := by
  rcases Nat.lt_or_ge i l.length with before | behind
  · exact .inl (List.getElem?_append_left before ▸ h)
  · rw [List.getElem?_append_right behind, List.getElem?_singleton] at h
    split at h
    · exact .inr ⟨by omega, (Option.some.inj h).symm⟩
    · cases h

namespace Document

variable {d : Document} {catalog : Catalog}

theorem mem_declarations {i : Nat} {r : Rule} {o : Occurrence} : o ∈ declarations i r ↔
    (r.ident.name ≠ "" ∧ o = ⟨r.ident.span, i, .ruleDeclaration⟩) ∨
      ∃ n p, r.patterns[n]? = some p ∧ bareName p.ident.name ≠ "" ∧
        o = ⟨p.ident.span, i, .patternDeclaration n⟩ := by
  unfold declarations
  rw [List.mem_append]
  refine or_congr ?_ ?_
  · by_cases unnamed : r.ident.name = ""
    · simp [unnamed]
    · simp [unnamed]
  · simp only [List.mem_filterMap, Prod.exists, List.mem_zipIdx_iff_getElem?]
    constructor
    · rintro ⟨p, n, place, found⟩
      split at found
      · cases found
      · rename_i named
        exact ⟨n, p, place, fun empty => named (beq_iff_eq.mpr empty), (Option.some.inj found).symm⟩
    · rintro ⟨n, p, place, named, rfl⟩
      exact ⟨p, n, place, by rw [if_neg fun empty => named (beq_iff_eq.mp empty)]⟩

/-- Declarations stand at the names of their rules and patterns. -/
theorem declarations_spans (i : Nat) (r : Rule) : ((declarations i r).map (·.span)).Sublist
    (((if r.ident.name = "" then [] else [(Kind.ident, r.ident)]) ++ patternNames r.patterns).map
      (·.2.span)) := by
  unfold declarations
  rw [List.map_append, List.map_append]
  refine List.Sublist.append ?_ ?_
  · by_cases unnamed : r.ident.name = ""
    · simp [unnamed]
    · simp [unnamed]
  · generalize r.patterns = ps
    generalize 0 = k
    induction ps generalizing k with
    | nil => exact .slnil
    | cons p rest ih =>
      rw [List.zipIdx_cons, List.filterMap_cons, patternNames, List.map_cons, List.map_cons]
      split
      · exact (ih (k + 1)).cons _
      · rename_i found
        dsimp only at found
        split at found
        · cases found
        · cases found
          exact (ih (k + 1)).cons_cons _

/-- What is known of what was found in some rules: the occurrences stand at
names of these rules, each at one of its own, and come from the declarations and
from what the names in the conditions yield, as do the errors. -/
structure FoundIn (d : Document) (rules : List Rule) (out : Found) : Prop where
  spans : (out.occurrences.map (·.span)).Subperm ((rules.flatMap Rule.names).map (·.2.span))
  origin : ∀ o ∈ out.occurrences, ∃ r : Rule, rules[o.rule]? = some r ∧ (o ∈ declarations o.rule r ∨
    ∃ m ∈ r.mentions, ∃ os errors,
        m.Yields o.rule (r.patterns.map d.patternSymbol) out.loopVars os errors ∧ o ∈ os)
  reported : ∀ e ∈ out.diagnostics, e ∈ d.syntaxDiagnostics ∨ ∃ (i : Nat)
    (r : Rule), rules[i]? = some r ∧
    ∃ m ∈ r.mentions, ∃ os errors,
        m.Yields i (r.patterns.map d.patternSymbol) out.loopVars os errors ∧ e ∈ errors
  declared : ∀ i r, rules[i]? = some r → ∀ o ∈ declarations i r, o ∈ out.occurrences
  mentioned : ∀ i (r : Rule), rules[i]? = some r → ∀ m ∈ r.mentions, ∃ os errors,
    m.Yields i (r.patterns.map d.patternSymbol) out.loopVars os errors ∧ os ⊆ out.occurrences ∧
        errors ⊆ out.diagnostics
  vars : ∀ i v, out.loopVars[i]? = some v →
    ∃ o ∈ out.occurrences, o.kind = .variableDeclaration i ∧ o.span = v.nameSpan

/-- The names in the condition of a rule are among its names. -/
theorem mention_name {r : Rule} {m : Mention} (member : m ∈ r.mentions) : m.named ∈ r.names :=
  List.mem_append_right _
    (List.mem_append_right _ (r.mentions_names.mem_iff.mp (List.mem_map_of_mem member)))

/-- The condition of a rule is visited behind its declarations. -/
theorem visitRule_visited (d : Document) (catalog : Catalog) (out : Found) (r : Rule) (i : Nat) :
    Visited i (r.patterns.map d.patternSymbol)
      { out with occurrences := out.occurrences ++ declarations i r } r.mentions
      (d.visitRule catalog out (r, i)) := by
  unfold Document.visitRule Rule.mentions
  dsimp only
  cases r.condition with
  | none => exact .refl _
  | some e =>
    exact visit_visited ⟨catalog, d.file.imports.map (·.moduleName), i,
      r.patterns.map d.patternSymbol, [], false⟩ e _ fun _ member => (List.not_mem_nil member).elim

theorem FoundIn.visitRule {rules : List Rule} {out : Found} (h : d.FoundIn rules out) (r : Rule) :
    d.FoundIn (rules ++ [r]) (d.visitRule catalog out (r, rules.length)) := by
  have visited := visitRule_visited d catalog out r rules.length
  generalize d.visitRule catalog out (r, rules.length) = out' at visited ⊢
  obtain ⟨new, eq, spans⟩ := visited.places
  have last : (rules ++ [r])[rules.length]? = some r := List.getElem?_concat_length
  have old : ∀ {i q}, rules[i]? = some q → (rules ++ [r])[i]? = some q :=
    getElem?_of_longer (List.prefix_append _ _)
  refine ⟨?_, fun o member => ?_, fun e member => ?_, fun i q found o member => ?_,
    fun i q found m member => ?_, fun i v found => ?_⟩
  · rw [eq, List.flatMap_append, List.flatMap_singleton, Rule.names]
    simp only [List.map_append, List.append_assoc]
    refine h.spans.append ?_
    have both :=
      (declarations_spans rules.length r).subperm.append (spans.trans r.mentions_spans.subperm)
    simpa only [List.map_append, List.append_assoc] using both
  · rcases visited.occurrence member with before | ⟨m, inside, os, errors, yields, from_it⟩
    · rcases List.mem_append.mp before with before | declaration
      · obtain ⟨q, place, known⟩ := h.origin o before
        refine ⟨q, old place, known.imp_right ?_⟩
        rintro ⟨m, inside, os, errors, yields, from_it⟩
        exact ⟨m, inside, os, errors, yields.mono visited.vars, from_it⟩
      · have rule : o.rule = rules.length := by
          rcases mem_declarations.mp declaration with ⟨_, rfl⟩ | ⟨_, _, _, _, rfl⟩ <;> rfl
        exact ⟨r, rule ▸ last, .inl (rule ▸ declaration)⟩
    · have rule : o.rule = rules.length := (yields.sound from_it).1
      exact ⟨r, rule ▸ last, .inr ⟨m, inside, os, errors, rule ▸ yields, from_it⟩⟩
  · rcases visited.error member with before | ⟨m, inside, os, errors, yields, from_it⟩
    · refine (h.reported e before).imp_right ?_
      rintro ⟨i, q, place, m, inside, os, errors, yields, from_it⟩
      exact ⟨i, q, old place, m, inside, os, errors, yields.mono visited.vars, from_it⟩
    · exact .inr ⟨rules.length, r, last, m, inside, os, errors, yields, from_it⟩
  · rw [eq]
    rcases of_getElem?_concat found with before | ⟨rfl, rfl⟩
    · exact List.mem_append_left _ (List.mem_append_left _ (h.declared i q before o member))
    · exact List.mem_append_left _ (List.mem_append_right _ member)
  · rcases of_getElem?_concat found with before | ⟨rfl, rfl⟩
    · obtain ⟨os, errors, yields, occur, report⟩ := h.mentioned i q before m member
      refine ⟨os, errors, yields.mono visited.vars, fun o inside => ?_, fun e inside => ?_⟩
      · exact eq ▸ List.mem_append_left _ (List.mem_append_left _ (occur inside))
      · exact visited.errors_kept.subset (report inside)
    · exact visited.yields member
  · rcases Nat.lt_or_ge i out.loopVars.length with before | behind
    · have same := getElem?_of_longer visited.vars (List.getElem?_eq_getElem before)
      obtain rfl := Option.some.inj (same.symm.trans found)
      obtain ⟨o, member, known⟩ := h.vars i _ (List.getElem?_eq_getElem before)
      exact ⟨o, eq ▸ List.mem_append_left _ (List.mem_append_left _ member), known⟩
    · exact visited.declares behind found

/-- An occurrence is a declaration of its rule, or something that may stand in its condition. -/
theorem FoundIn.sound {rules : List Rule} {out : Found} (h : d.FoundIn rules out) {o : Occurrence}
    (member : o ∈ out.occurrences) :
    ∃ r, rules[o.rule]? = some r ∧
      (o ∈ declarations o.rule r ∨
        o.kind.Sound (r.patterns.map d.patternSymbol) out.loopVars.length) := by
  obtain ⟨r, place, known⟩ := h.origin o member
  exact ⟨r, place, known.imp_right fun ⟨_, _, _, _, yields, from_it⟩ => (yields.sound from_it).2⟩

theorem found_foundIn (d : Document) (catalog : Catalog) :
    d.FoundIn d.file.rules (d.found catalog) := by
  have all : ∀ rules : List Rule,
      d.FoundIn rules (rules.zipIdx.foldl (d.visitRule catalog) ⟨[], [], d.syntaxDiagnostics⟩) := by
    intro rules
    induction rules using List.reverseRecOn with
    | nil => exact ⟨List.Subperm.refl _, nofun, fun _ => .inl, nofun, nofun, nofun⟩
    | append_singleton rules r ih =>
      rw [List.zipIdx_append, List.foldl_append, Nat.zero_add]
      exact ih.visitRule r
  exact all d.file.rules

/-! ### What is found in order -/

/-- What the walk finds stands in the order of its spans. -/
structure InOrder (d : Document) (catalog : Catalog) : Prop where
  occurrences : (d.found catalog).occurrences.Pairwise fun a b => a.span.notAfter b.span
  diagnostics : (d.found catalog).diagnostics.Pairwise fun a b => a.span.notAfter b.span

/-- The index of what the walk finds, which is not sorted. -/
def indexFound (d : Document) (catalog : Catalog) (order : Nat) : DocumentIndex :=
  let found := d.found catalog
  ⟨d, order, d.file.rules.map d.ruleSymbol, found.loopVars, found.occurrences, found.diagnostics⟩

theorem InOrder.index_eq {catalog : Catalog} (h : d.InOrder catalog) (order : Nat) :
    d.index catalog order = d.indexFound catalog order := by
  rw [index, Diagnostic.sortBySpan, List.mergeSort_of_pairwise h.occurrences,
    List.mergeSort_of_pairwise h.diagnostics]
  rfl

end Document

end RuleDesk
