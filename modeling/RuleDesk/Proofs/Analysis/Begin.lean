import RuleDesk.Proofs.Analysis.Publish

namespace RuleDesk

namespace Analysis

/-- All that the start of a pass does: it takes the next number and makes its
version the version of the document, which is open from then on. -/
structure Begins (a b : Analysis) (uri : String) (version : Option Int) : Prop where
  accepted : ((a.open? uri).getD (.unanalyzed uri)).accepts version true = true
  here : ∃ d, b.open? uri = some d ∧ d.version = version ∧ d.pass = a.nextPass ∧
    d.compiled = ((a.open? uri).getD (.unanalyzed uri)).compiled
  others : ∀ other, other ≠ uri → b.open? other = a.open? other
  snapshot : b.snapshot = a.snapshot
  passes : b.passes = a.passes
  nextPass : b.nextPass = a.nextPass + 1
  publications : b.publications = a.publications

theorem accepts_mono {d : OpenDocument} {version : Option Int} {sameVersion : Bool}
    (h : d.accepts version sameVersion = true) : d.accepts version true = true := by
  unfold OpenDocument.accepts at h ⊢
  split at h
  · simp only [Bool.or_eq_true, Bool.and_eq_true, and_true] at h ⊢
    exact h.imp_right And.left
  · rfl

/-- A document that was not open comes in behind the open ones. -/
theorem open?_insert (a : Analysis) (uri other : String) (nextPass : Nat) :
    ({ a with
        opened := if a.isOpen uri then a.opened
  else a.opened ++ [(a.open? uri).getD (.unanalyzed uri)]
        nextPass } : Analysis).open? other =
      if other = uri then some ((a.open? uri).getD (.unanalyzed uri)) else a.open? other := by
  by_cases opened : a.isOpen uri = true
  · obtain ⟨d, at_uri⟩ := (isOpen_iff a uri).mp opened
    simp only [open?, opened, if_true]
    by_cases eq : other = uri
    · rw [if_pos eq, eq]
      unfold open? at at_uri
      rw [at_uri, Option.getD_some]
    · rw [if_neg eq]
  · have absent : a.opened.find? (·.uri == uri) = none := by
      cases found : a.opened.find? (·.uri == uri) with
      | none => rfl
      | some d => exact absurd ((isOpen_iff a uri).mpr ⟨d, found⟩) opened
    simp only [open?, opened, Bool.false_eq_true, if_false, absent, Option.getD_none,
      List.find?_append, List.find?_singleton, OpenDocument.unanalyzed]
    by_cases eq : other = uri
    · rw [if_pos eq, eq, absent, beq_self_eq_true, if_pos rfl, Option.none_or]
    · rw [if_neg eq, beq_false_of_ne (Ne.symm eq)]
      simp only [Bool.false_eq_true, if_false, Option.or_none]

theorem startPass?_eq_some {a b : Analysis} {uri : String} {version : Option Int}
    {sameVersion : Bool}
    {number : Nat} (h : a.startPass? uri version sameVersion = some (number, b)) :
    number = a.nextPass ∧ Begins a b uri version := by
  unfold startPass? at h
  dsimp only at h
  split at h
  · rename_i accepted
    simp only [Option.some.injEq, Prod.mk.injEq] at h
    obtain ⟨number_eq, rfl⟩ := h
    have opened : ∀ other, _ := fun other => open?_insert a uri other (a.nextPass + 1)
    refine ⟨number_eq.symm, accepts_mono accepted, ?_, ?_, ?_, ?_, ?_, ?_⟩
    · rw [moveTo_open?, if_pos rfl,
        update_open? _ uri uri ({ · with version, pass := a.nextPass }) (fun _ => rfl), if_pos rfl,
          opened, if_pos rfl]
      exact ⟨_, rfl, rfl, rfl, rfl⟩
    · intro other ne
      rw [moveTo_open?, if_neg ne, update_open? _ uri other ({ · with version, pass := a.nextPass })
        (fun _ => rfl), if_neg ne, opened, if_neg ne]
    · rw [moveTo_snapshot]; rfl
    · rw [moveTo_passes]; rfl
    · rw [moveTo_nextPass]; rfl
    · rw [moveTo_publications]; rfl
  · cases h

end Analysis

end RuleDesk
