import RuleDesk.Proofs.Indexing.Found

namespace RuleDesk

/-! ### Spans -/

namespace Span

/-- Two spans have no byte in common. -/
def Apart (s t : Span) : Prop := s.stop ≤ t.start ∨ t.stop ≤ s.start

theorem Apart.symm {s t : Span} (h : s.Apart t) : t.Apart s := Or.symm h

/-- Of two spans apart that are in order, the first one ends before the second one starts. -/
theorem Apart.before {s t : Span} (h : s.Apart t) (order : s.notAfter t)
    (nonempty : t.start < t.stop) :
    s.stop ≤ t.start := by
  refine h.resolve_right fun behind => ?_
  have first : t.start < s.start := Nat.lt_of_lt_of_le nonempty behind
  unfold notAfter Span.before at order
  rw [decide_eq_true first] at order
  exact nomatch order

theorem notAfter_trans {s t u : Span} (h : s.notAfter t) (h' : t.notAfter u) : s.notAfter u := by
  simp only [notAfter, before, Bool.not_eq_true', Bool.or_eq_false_iff, decide_eq_false_iff_not,
    Nat.not_lt, Bool.and_eq_false_iff, beq_eq_false_iff_ne] at *
  omega

theorem notAfter_total (s t : Span) : s.notAfter t || t.notAfter s := by
  simp only [notAfter, before, Bool.or_eq_true, Bool.not_eq_true', Bool.or_eq_false_iff,
    decide_eq_false_iff_not, Nat.not_lt, Bool.and_eq_false_iff, beq_eq_false_iff_ne]
  omega

end Span

/-- The names of the rules of a text stand apart and are not empty. -/
theorem names_apart (text : List Char) :
    ((parse text).rules.flatMap Rule.names).Pairwise (fun a b => a.2.span.Apart b.2.span) ∧
      ∀ name ∈ (parse text).rules.flatMap Rule.names, name.2.span.start < name.2.span.stop := by
  obtain ⟨tokens, d, walk, read⟩ := parse_reads text
  obtain ⟨l, perm, sub⟩ := read.names
  have apart : (tokens.map Token.named).Pairwise fun a b => a.2.span.Apart b.2.span := by
    rw [List.pairwise_map]
    exact walk.ordered.2.imp Or.inl
  refine ⟨(perm.pairwise_iff fun h => h.symm).mp (apart.sublist sub), fun name member => ?_⟩
  obtain ⟨t, inside, rfl⟩ := List.mem_map.mp (sub.subset (perm.mem_iff.mpr member))
  have width := length_le_byteLength t.text
  have nonempty := List.length_pos_iff.mpr (walk.nonempty t inside)
  exact Nat.lt_add_of_pos_right (Nat.lt_of_lt_of_le nonempty width)

/-! ### Occurrences -/

/-- The index of a document that was read from a text. -/
def DocumentIndex.Read (x : DocumentIndex) : Prop :=
  ∃ uri version text catalog order, x = (Document.ofText uri version text).index catalog order

namespace DocumentIndex

variable {x : DocumentIndex}

/-- The occurrences of a document come in the order of the text, and no two of
them have a byte in common. -/
theorem Read.ordered (h : x.Read) :
    x.occurrences.Pairwise (fun o o' => o.span.stop ≤ o'.span.start) ∧
    ∀ o ∈ x.occurrences, o.span.start < o.span.stop := by
  obtain ⟨uri, version, text, catalog, order, rfl⟩ := h
  obtain ⟨apart, nonempty⟩ := names_apart text
  obtain ⟨l, perm, sub⟩ := ((Document.ofText uri version text).found_foundIn catalog).spans
  generalize foundEq : (Document.ofText uri version text).found catalog = found at perm
  have sorted : ((Document.ofText uri version text).index catalog order).occurrences =
      found.occurrences.mergeSort fun a b => a.span.notAfter b.span := by rw [← foundEq]; rfl
  rw [sorted]
  have same := List.mergeSort_perm found.occurrences fun a b => a.span.notAfter b.span
  have spans_apart : found.occurrences.Pairwise fun o o' => o.span.Apart o'.span := by
    have spans := (perm.pairwise_iff (R := Span.Apart) fun h => h.symm).mp
      ((List.pairwise_map.mpr apart).sublist sub)
    exact List.pairwise_map.mp spans
  have wide : ∀ o ∈ found.occurrences, o.span.start < o.span.stop := by
    intro o member
    obtain ⟨name, inside, eq⟩ :=
      List.mem_map.mp (sub.subset (perm.mem_iff.mpr (List.mem_map_of_mem member)))
    exact eq ▸ nonempty name inside
  refine ⟨?_, fun o member => wide o (same.mem_iff.mp member)⟩
  have sorted := @List.pairwise_mergeSort _ (fun a b : Occurrence => a.span.notAfter b.span)
    (fun _ _ _ => Span.notAfter_trans) (fun _ _ => Span.notAfter_total _ _) found.occurrences
  have all_apart := (same.pairwise_iff (R := fun o o' : Occurrence => o.span.Apart o'.span) fun h =>
    h.symm).mpr spans_apart
  refine (sorted.and all_apart).imp_of_mem fun {o o'} _ member both => ?_
  exact both.2.before both.1 (wide o' (same.mem_iff.mp member))

/-- Of occurrences in order, those that start up to an offset come first. -/
theorem split_at_offset {os : List Occurrence}
    (ordered : os.Pairwise fun o o' => o.span.stop ≤ o'.span.start)
    (wide : ∀ o ∈ os, o.span.start < o.span.stop) (n : Nat) : ∃ front back, os = front ++ back ∧
      os.takeWhile (·.span.start ≤ n) = front ∧ (∀ o ∈ front, o.span.start ≤ n) ∧
        ∀ o ∈ back, n < o.span.start := by
  induction os with
  | nil => exact ⟨[], [], rfl, rfl, nofun, nofun⟩
  | cons o rest ih =>
    obtain ⟨first, ordered⟩ := List.pairwise_cons.mp ordered
    obtain ⟨here, wide⟩ := List.forall_mem_cons.mp wide
    by_cases upto : o.span.start ≤ n
    · obtain ⟨front, back, rfl, taken, starts, behind⟩ := ih ordered wide
      refine ⟨o :: front, back, rfl, ?_, List.forall_mem_cons.mpr ⟨upto, starts⟩, behind⟩
      rw [List.takeWhile_cons, decide_eq_true upto, if_pos rfl, taken]
    · have behind : n < o.span.start := Nat.lt_of_not_le upto
      refine ⟨[], o :: rest, rfl, List.takeWhile_cons_of_neg fun le => upto (of_decide_eq_true le),
        nofun, ?_⟩
      refine List.forall_mem_cons.mpr ⟨behind, fun u member => ?_⟩
      exact Nat.lt_of_lt_of_le (Nat.lt_trans behind here) (first u member)

/-- Only the last one of the occurrences that start up to an offset may be
around it, or end there if none is around. -/
theorem find?_candidates {first : List Occurrence} {last : Occurrence} {n : Nat}
    (earlier : ∀ o ∈ first, o.span.stop ≤ last.span.start)
    (start : last.span.start ≤ n) (wide : last.span.start < last.span.stop) :
    ((first ++ [last]).reverse.take 2).find? (·.span.touches n) =
      ((first ++ [last]).find? fun o => o.span.start ≤ n && n < o.span.stop).or
        ((first ++ [last]).find? fun o => o.span.stop == n) := by
  have around : first.find? (fun o => o.span.start ≤ n && n < o.span.stop) = none := by
    refine List.find?_eq_none.mpr fun o member around => ?_
    exact Nat.not_le_of_lt (of_decide_eq_true (Bool.and_eq_true_iff.mp around).2)
      (Nat.le_trans (earlier o member) start)
  have ended : last.span.stop ≤ n → ∀ o ∈ first, o.span.stop < n := fun behind o member =>
    Nat.lt_of_le_of_lt (earlier o member) (Nat.lt_of_lt_of_le wide behind)
  rw [List.reverse_append, List.reverse_singleton, List.singleton_append, List.take_succ_cons,
    List.find?_append, around, Option.none_or, List.find?_append]
  rcases Nat.lt_or_ge n last.span.stop with inside | behind
  · simp [Span.touches, start, inside, Nat.le_of_lt inside]
  have ends : first.find? (fun o => o.span.stop == n) = none :=
    List.find?_eq_none.mpr fun o member ends =>
      Nat.ne_of_lt (ended behind o member) (beq_iff_eq.mp ends)
  have touching : (first.reverse.take 1).find? (·.span.touches n) = none := by
    refine List.find?_eq_none.mpr fun o member touches => ?_
    have stop := of_decide_eq_true (Bool.and_eq_true_iff.mp touches).2
    exact Nat.not_lt_of_le stop (ended behind o (List.mem_reverse.mp (List.mem_of_mem_take member)))
  rw [ends, Option.none_or]
  rcases Nat.eq_or_lt_of_le behind with here | past
  · simp [Span.touches, start, here]
  · rw [List.find?_cons, touching]
    simp [Span.touches, Nat.not_lt_of_le behind, Nat.not_le_of_lt past, Nat.ne_of_lt past]

/-- The occurrence around an offset is found, else the one that ends there. -/
theorem Read.occurrenceAt?_eq (h : x.Read) (n : Nat) : x.occurrenceAt? n =
    (x.occurrences.find? fun o => o.span.start ≤ n && n < o.span.stop).or
      (x.occurrences.find? fun o => o.span.stop == n) := by
  obtain ⟨ordered, wide⟩ := h.ordered
  obtain ⟨front, back, split, taken, starts, behind⟩ := split_at_offset ordered wide n
  rw [DocumentIndex.occurrenceAt?, taken]
  rw [split] at ordered wide ⊢
  have no_around : back.find? (fun o => o.span.start ≤ n && n < o.span.stop) = none := by
    refine List.find?_eq_none.mpr fun o member around => ?_
    exact Nat.not_le_of_lt (behind o member) (of_decide_eq_true (Bool.and_eq_true_iff.mp around).1)
  have no_end : back.find? (fun o => o.span.stop == n) = none := by
    refine List.find?_eq_none.mpr fun o member ends => ?_
    have inside := wide o (List.mem_append_right _ member)
    exact Nat.lt_asymm (behind o member) (beq_iff_eq.mp ends ▸ inside)
  rw [List.find?_append, List.find?_append, no_around, no_end, Option.or_none, Option.or_none]
  rcases List.eq_nil_or_concat' front with rfl | ⟨first, last, rfl⟩
  · rfl
  have known := List.mem_append_right first (List.mem_singleton_self last)
  have earlier := (List.pairwise_append.mp (List.pairwise_append.mp ordered).1).2.2
  exact find?_candidates (fun o member => earlier o member last (List.mem_singleton_self _))
    (starts last known) (wide last (List.mem_append_left _ known))

/-- At its start an occurrence is found. -/
theorem Read.occurrenceAt? (h : x.Read) {o : Occurrence} (member : o ∈ x.occurrences) :
    x.occurrenceAt? o.span.start = some o := by
  obtain ⟨ordered, wide⟩ := h.ordered
  obtain ⟨before, later, split⟩ := List.append_of_mem member
  have earlier : ∀ u ∈ before,
      ¬ (decide (u.span.start ≤ o.span.start) && decide (o.span.start < u.span.stop)) = true := by
    intro u inside around
    have ends := (List.pairwise_append.mp (split ▸ ordered)).2.2 u inside o (List.mem_cons_self ..)
    exact Nat.not_lt_of_le ends (of_decide_eq_true (Bool.and_eq_true_iff.mp around).2)
  rw [h.occurrenceAt?_eq, split, List.find?_append, List.find?_eq_none.mpr earlier, Option.none_or,
    List.find?_cons_of_pos, Option.some_or]
  exact Bool.and_eq_true_iff.mpr ⟨decide_eq_true (Nat.le_refl _), decide_eq_true (wide o member)⟩

/-! ### What the index of a document has -/

theorem mem_occurrences {d : Document} {catalog : Catalog} {order : Nat} {o : Occurrence} :
    o ∈ (d.index catalog order).occurrences ↔ o ∈ (d.found catalog).occurrences :=
  (List.mergeSort_perm _ _).mem_iff

/-- The declaration of a rule is an occurrence. -/
theorem Read.rule_declared (h : x.Read) {i : Nat} {r : RuleSymbol} (place : x.rules[i]? = some r)
    (named : r.name ≠ "") :
    ⟨r.nameSpan, i, .ruleDeclaration⟩ ∈ x.occurrences := by
  obtain ⟨uri, version, text, catalog, order, rfl⟩ := h
  obtain ⟨rule, found, rfl⟩ := Option.map_eq_some_iff.mp (List.getElem?_map ▸ place)
  refine mem_occurrences.mpr
    (((Document.ofText uri version text).found_foundIn catalog).declared i rule found _ ?_)
  exact Document.mem_declarations.mpr (.inl ⟨named, rfl⟩)

theorem Read.pattern_declared (h : x.Read) {i n : Nat} {r : RuleSymbol} {p : PatternSymbol}
    (place : x.rules[i]? = some r)
    (inside : r.patterns[n]? = some p) (named : bareName p.name ≠ "") :
    ⟨p.nameSpan, i, .patternDeclaration n⟩ ∈ x.occurrences := by
  obtain ⟨uri, version, text, catalog, order, rfl⟩ := h
  obtain ⟨rule, found, rfl⟩ := Option.map_eq_some_iff.mp (List.getElem?_map ▸ place)
  obtain ⟨pattern, there, rfl⟩ := Option.map_eq_some_iff.mp (List.getElem?_map ▸ inside)
  refine mem_occurrences.mpr
    (((Document.ofText uri version text).found_foundIn catalog).declared i rule found _ ?_)
  exact Document.mem_declarations.mpr (.inr ⟨n, pattern, there, named, rfl⟩)

theorem Read.variable_declared (h : x.Read) {i : Nat} {v : LoopVariable}
    (place : x.loopVars[i]? = some v) :
    ∃ o ∈ x.occurrences, o.kind = .variableDeclaration i ∧ o.span = v.nameSpan := by
  obtain ⟨uri, version, text, catalog, order, rfl⟩ := h
  obtain ⟨o, member, known⟩ :=
    ((Document.ofText uri version text).found_foundIn catalog).vars i v place
  exact ⟨o, mem_occurrences.mpr member, known⟩

/-- An occurrence is one of the declarations of its rule, or something that may
stand in its condition. -/
theorem Read.origin (h : x.Read) {o : Occurrence} (member : o ∈ x.occurrences) :
    ∃ r, x.rules[o.rule]? = some r ∧
    (o.kind = .ruleDeclaration ∨ (∃ n, o.kind = .patternDeclaration n) ∨
      o.kind.Sound r.patterns x.loopVars.length) := by
  obtain ⟨uri, version, text, catalog, order, rfl⟩ := h
  obtain ⟨r, place, known⟩ :=
    ((Document.ofText uri version text).found_foundIn catalog).sound (mem_occurrences.mp member)
  refine ⟨(Document.ofText uri version text).ruleSymbol r, ?_, ?_⟩
  · exact List.getElem?_map ▸ Option.map_eq_some_iff.mpr ⟨r, place, rfl⟩
  rcases known with declared | sound
  · rcases Document.mem_declarations.mp declared with ⟨_, eq⟩ | ⟨n, _, _, _, eq⟩
    · exact .inl (congrArg Occurrence.kind eq)
    · exact .inr (.inl ⟨n, congrArg Occurrence.kind eq⟩)
  · exact .inr (.inr sound)

end DocumentIndex

end RuleDesk
