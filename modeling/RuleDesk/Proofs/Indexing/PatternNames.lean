import RuleDesk.Proofs.Indexing.Renamed

namespace RuleDesk

namespace Snapshot

/-! ## The names of a pattern -/

section

variable {s : Snapshot} {uri : String} {x : DocumentIndex}

theorem mem_of_occurrenceAt? {n : Nat} {o : Occurrence} (h : x.occurrenceAt? n = some o) :
    o ∈ x.occurrences := by
  have inside := List.mem_of_mem_take (List.mem_of_find?_eq_some h)
  exact (List.takeWhile_sublist _).subset (List.mem_reverse.mp inside)

theorem enclosing?_role {n : Nat} {r : Resolved} (h : enclosing? x n = some r) :
    r.role = .enclosing := by
  unfold enclosing? at h
  obtain ⟨i, _, h⟩ := Option.bind_eq_some_iff.mp h
  obtain ⟨rule, _, h⟩ := Option.bind_eq_some_iff.mp h
  split at h <;> cases h <;> rfl

/-- An occurrence means a pattern if and only if it names it. -/
theorem means_pattern_iff {o : Occurrence} {owner : String} {rule pattern : Nat} :
    (∃ r, s.resolveOccurrence? uri o = some r ∧ r.entity = .pattern owner rule pattern) ↔
      owner = uri ∧ o.namesPattern rule pattern := by
  rw [Occurrence.namesPattern_iff]
  constructor
  · rintro ⟨⟨_, role, span⟩, means, rfl⟩
    cases (resolveOccurrence?_iff.mp means).1 with
    | patternDeclaration kind => exact ⟨rfl, rfl, .inl kind⟩
    | patternReference kind => exact ⟨rfl, rfl, .inr ⟨_, kind⟩⟩
  · rintro ⟨rfl, rfl, kind | ⟨indexed, kind⟩⟩
    · exact ⟨⟨_, _, o.span⟩, resolveOccurrence?_iff.mpr ⟨.patternDeclaration kind, rfl⟩, rfl⟩
    · exact ⟨⟨_, _, o.span⟩, resolveOccurrence?_iff.mpr ⟨.patternReference kind, rfl⟩, rfl⟩

theorem named?_eq (document : s.document? uri = some x) (p : Position) : s.named? uri p =
    .ok (((x.document.offset? p).bind (s.resolve? uri)).bind fun r => if r.role = .enclosing
      then none else some (x, r)) := by
  unfold named? require
  rw [document]
  rfl

/-- Where a pattern is named, there is an occurrence that names it. -/
theorem namesPattern_of_named? {p : Position} {y : DocumentIndex} {r : Resolved}
    (document : s.document? uri = some x)
    (named : s.named? uri p = .ok (some (y, r))) {owner : String} {rule pattern : Nat}
    (entity : r.entity = .pattern owner rule pattern) :
    owner = uri ∧ ∃ o ∈ x.occurrences, o.namesPattern rule pattern := by
  rw [named?_eq document] at named
  obtain ⟨r', resolved, role⟩ := Option.bind_eq_some_iff.mp (Except.ok.inj named)
  obtain ⟨n, _, resolved⟩ := Option.bind_eq_some_iff.mp resolved
  split at role
  · cases role
  rename_i on_name
  cases role
  rw [resolve?, document, Option.bind_some] at resolved
  cases at_n : x.occurrenceAt? n with
  | none =>
    rw [at_n] at resolved
    exact (on_name (enclosing?_role resolved)).elim
  | some o =>
    rw [at_n] at resolved
    obtain ⟨same, names_it⟩ := means_pattern_iff.mp ⟨r, resolved, entity⟩
    exact ⟨same, o, mem_of_occurrenceAt? at_n, names_it⟩

end

/-- A pattern that is named has a name behind its sigil. -/
theorem declared_of_namesPattern {uri : String} {version : Option Int} {text : List Char}
    {catalog : Catalog} {order rule pattern : Nat}
    {o : Occurrence}
    (occurs : o ∈ ((Document.ofText uri version text).index catalog order).occurrences)
    (names_it : o.namesPattern rule pattern) :
    ∃ r q, (parse text).rules[rule]? = some r ∧ r.patterns[pattern]? = some q ∧
      bareName q.ident.name ≠ "" := by
  obtain ⟨same, kind⟩ := Occurrence.namesPattern_iff.mp names_it
  obtain ⟨r, place, origin⟩ :=
    ((Document.ofText uri version text).found_foundIn catalog).sound
      (DocumentIndex.mem_occurrences.mp occurs)
  rw [same] at place origin
  rcases origin with declared | sound
  · rcases Document.mem_declarations.mp declared with ⟨_, rfl⟩ | ⟨n, q, inside, named, rfl⟩
    · rcases kind with kind | ⟨_, kind⟩ <;> cases kind
    · rcases kind with kind | ⟨_, kind⟩
      · cases kind
        exact ⟨r, q, place, inside, named⟩
      · cases kind
  · rcases kind with kind | ⟨_, kind⟩
    · rw [kind] at sound
      cases sound
    · rw [kind] at sound
      cases sound with
      | pattern inside named =>
        obtain ⟨q, found, rfl⟩ := Option.map_eq_some_iff.mp (List.getElem?_map ▸ inside)
        exact ⟨r, q, place, found, named⟩

/-- A pattern with a name, in a document of a snapshot. -/
structure HasPattern (s : Snapshot) (uri : String) (version : Option Int) (text : List Char)
    (catalog : Catalog) (order rule pattern : Nat) (r : Rule) (q : Pattern) : Prop where
  document : s.document? uri = some ((Document.ofText uri version text).index catalog order)
  place : (parse text).rules[rule]? = some r
  inside : r.patterns[pattern]? = some q
  named : bareName q.ident.name ≠ ""

/-- The places of the names of a pattern, in the order of the text. -/
def patternNames (s : Snapshot) (uri : String) (rule pattern : Nat) : List Span :=
  ((s.findReferences (.pattern uri rule pattern) true).map (·.2)).mergeSort fun a b =>
    a.start ≤ b.start

namespace HasPattern

variable {s : Snapshot} {uri : String} {version : Option Int} {text : List Char} {catalog : Catalog}
  {order rule pattern : Nat}
  {r : Rule} {q : Pattern} (h : s.HasPattern uri version text catalog order rule pattern r q)

include h

theorem ruleOf? : s.ruleOf? uri rule = some ((Document.ofText uri version text).ruleSymbol r) := by
  rw [Snapshot.ruleOf?, h.document, Option.bind_some]
  exact List.getElem?_map.trans (congrArg _ h.place)

theorem symbol : ((Document.ofText uri version text).ruleSymbol r).patterns[pattern]? =
    some ((Document.ofText uri version text).patternSymbol q) :=
  List.getElem?_map.trans (congrArg _ h.inside)

theorem findReferences : s.findReferences (.pattern uri rule pattern) true =
    (uri, q.ident.span) :: spansWhere ((Document.ofText uri version text).index catalog order)
      (refersToPattern rule pattern) := by
  rw [Snapshot.findReferences, if_pos rfl, declaration?, h.ruleOf?, Option.bind_some, h.symbol,
    referencesTo, h.document,
    Option.toList_some (a := (Document.ofText uri version text).index catalog order),
      List.flatMap_singleton]
  rfl

/-- The name that declares the pattern is an occurrence, and the only one with
its number that declares. -/
theorem declared : ⟨q.ident.span, rule, .patternDeclaration pattern⟩ ∈
    ((Document.ofText uri version text).index catalog order).occurrences := by
  refine DocumentIndex.mem_occurrences.mpr
    (((Document.ofText uri version text).found_foundIn catalog).declared rule r h.place _ ?_)
  exact Document.mem_declarations.mpr (.inr ⟨pattern, q, h.inside, h.named, rfl⟩)

theorem eq_of_declares {o : Occurrence}
    (occurs : o ∈ ((Document.ofText uri version text).index catalog order).occurrences)
    (here : o.rule = rule) (kind : o.kind = .patternDeclaration pattern) :
    o = ⟨q.ident.span, rule, .patternDeclaration pattern⟩ := by
  obtain ⟨r', place, origin⟩ :=
    ((Document.ofText uri version text).found_foundIn catalog).sound
      (DocumentIndex.mem_occurrences.mp occurs)
  rw [here] at place origin
  obtain rfl := Option.some.inj (place.symm.trans h.place)
  rcases origin with declares | sound
  · rcases Document.mem_declarations.mp declares with ⟨_, rfl⟩ | ⟨n, q', inside, _, rfl⟩
    · cases kind
    · cases kind
      obtain rfl := Option.some.inj (inside.symm.trans h.inside)
      rfl
  · rw [kind] at sound
    cases sound

theorem mem_findReferences {place : String × Span} :
    place ∈ s.findReferences (.pattern uri rule pattern) true ↔
    ∃ o ∈ ((Document.ofText uri version text).index catalog order).occurrences,
      o.namesPattern rule pattern ∧ place = (uri, o.span) := by
  rw [h.findReferences, List.mem_cons, mem_spansWhere]
  constructor
  · rintro (rfl | ⟨o, occurs, refers, rfl⟩)
    · exact ⟨_, h.declared, Occurrence.namesPattern_iff.mpr ⟨rfl, .inl rfl⟩, rfl⟩
    · exact ⟨o, occurs, Bool.or_eq_true_iff.mpr (.inr refers), rfl⟩
  · rintro ⟨o, occurs, names_it, rfl⟩
    rcases Bool.or_eq_true_iff.mp names_it with declares | refers
    · obtain ⟨here, kind⟩ := Bool.and_eq_true_iff.mp declares
      rw [h.eq_of_declares occurs (beq_iff_eq.mp here) (beq_iff_eq.mp kind)]
      exact .inl rfl
    · exact .inr ⟨o, occurs, refers, rfl⟩

theorem mem_patternNames {a : Span} : a ∈ s.patternNames uri rule pattern ↔
    ∃ o ∈ ((Document.ofText uri version text).index catalog order).occurrences,
      o.namesPattern rule pattern ∧ o.span = a := by
  rw [patternNames, (List.mergeSort_perm _ _).mem_iff, List.mem_map]
  constructor
  · rintro ⟨place, member, rfl⟩
    obtain ⟨o, occurs, names_it, rfl⟩ := h.mem_findReferences.mp member
    exact ⟨o, occurs, names_it, rfl⟩
  · rintro ⟨o, occurs, names_it, rfl⟩
    exact ⟨(uri, o.span), h.mem_findReferences.mpr ⟨o, occurs, names_it, rfl⟩, rfl⟩

/-- The names of a pattern come one behind the other. -/
theorem patternNames_ordered :
    (s.patternNames uri rule pattern).Pairwise fun a b => a.stop ≤ b.start := by
  have read : ((Document.ofText uri version text).index catalog order).Read :=
    ⟨uri, version, text, catalog, order, rfl⟩
  obtain ⟨ordered, wide⟩ := read.ordered
  have symm : Std.Symm fun o u : Occurrence => o.span.Apart u.span := ⟨fun _ _ => Span.Apart.symm⟩
  have apart := ordered.imp (S := fun o u => o.span.Apart u.span) Or.inl
  have names_apart :
      ((s.findReferences (.pattern uri rule pattern) true).map (·.2)).Pairwise Span.Apart := by
    rw [h.findReferences, List.map_cons, List.pairwise_cons, spansWhere, List.map_map,
      List.pairwise_map]
    refine ⟨fun a member => ?_, apart.sublist List.filter_sublist⟩
    obtain ⟨o, kept, rfl⟩ := List.mem_map.mp member
    obtain ⟨occurs, refers⟩ := List.mem_filter.mp kept
    refine apart.forall h.declared occurs ?_
    rintro rfl
    rw [refersToPattern, Bool.and_false] at refers
    cases refers
  have sorted := @List.pairwise_mergeSort _ (fun a b : Span => decide (a.start ≤ b.start))
    (fun _ _ _ first second =>
      decide_eq_true (Nat.le_trans (of_decide_eq_true first) (of_decide_eq_true second)))
    (fun a b => by
      simpa only [Bool.or_eq_true, decide_eq_true_eq] using Nat.le_total a.start b.start)
    ((s.findReferences (.pattern uri rule pattern) true).map (·.2))
  have both :=
    sorted.and (((List.mergeSort_perm _ _).pairwise_iff fun apart => apart.symm).mpr names_apart)
  refine both.imp_of_mem fun {a b} _ member first => first.2.resolve_right fun behind => ?_
  obtain ⟨o, occurs, _, rfl⟩ := h.mem_patternNames.mp member
  have more := wide o occurs
  have le := of_decide_eq_true first.1
  omega

end HasPattern

end Snapshot

end RuleDesk
