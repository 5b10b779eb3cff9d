import RuleDesk.Proofs.Analysis.Outcome

namespace RuleDesk

namespace Analysis

variable {result : String → Compiled → Prop} {a : Analysis}

theorem close_open? (a : Analysis) (uri other : String) :
    ({ a with opened := a.opened.filter (·.uri != uri) } : Analysis).open? other =
      if other = uri then none else a.open? other := by
  simp only [open?, List.find?_filter]
  by_cases eq : other = uri
  · rw [if_pos eq, eq]
    refine List.find?_eq_none.mpr fun d _ both => ?_
    obtain ⟨ne, at_uri⟩ := of_decide_eq_true both
    exact bne_iff_ne.mp ne (beq_iff_eq.mp at_uri)
  · rw [if_neg eq]
    congr 1
    funext d
    by_cases at_other : d.uri = other
    · simp only [at_other, bne_iff_ne, ne_eq, eq, not_false_eq_true, beq_self_eq_true, and_self,
        decide_true]
    · simp only [beq_false_of_ne at_other, Bool.false_eq_true, and_false, decide_false]

theorem close_outcome (h : a.Sound) (disk : Disk) (uri : String) :
    Outcome (some uri) result a (a.close disk uri) := by
  -- whatever the disk has, the document is closed and its place in the snapshot is its own
  have closed : ∀ (nextOrder : Nat) (s : Snapshot),
      (∀ other, other ≠ uri → s.document? other = a.snapshot.document? other) →
      (∀ x ∈ s.indexes, AllFrom .analysis x.diagnostics) →
      Outcome (some uri) result a
        (({ a with opened := a.opened.filter (·.uri != uri), nextOrder }.record
          (.published (.withdrawal uri))).replaceSnapshot (some uri) s) := by
    intro nextOrder s others found
    have truths : ∀ other,
        ({ a with opened := a.opened.filter (·.uri != uri) } : Analysis).truth other =
        if other = uri then none else a.truth other := by
      intro other
      rw [truth, close_open?]
      split
      · rfl
      · rfl
    have jumped : Outcome (some uri) result a
        { { a with opened := a.opened.filter (·.uri != uri), nextOrder }.record
          (.published (.withdrawal uri)) with snapshot := s } := by
      refine ⟨⟨?_, ?_, found⟩, ?_, ?_, ?_, [], rfl, fun _ member => (List.not_mem_nil member).elim⟩
      · intro other v c at_other
        have before := (truths other).symm.trans at_other
        split at before
        · cases before
        · rename_i ne
          rw [shownVersion?]
          dsimp only
          rw [others other ne]
          exact h.shown other v c before
      · intro other v c at_other
        have before := (truths other).symm.trans at_other
        split at before
        · cases before
        · exact h.kept other v c before
      · intro other v c ne at_other
        refine ⟨v, c, (truths other).trans ?_, versionLe_refl v⟩
        rw [if_neg fun eq => ne (congrArg some eq.symm)]
        exact at_other
      · intro other eq
        refine (truths other).trans ?_
        rw [if_pos (Option.some.inj eq).symm]
      · intro other v c at_other
        have before := (truths other).symm.trans at_other
        split at before
        · cases before
        · exact Or.inl ⟨v, before⟩
    exact jumped.trans_proceeds (replaceSnapshot_proceeds jumped.sound (some uri))
  have removed : ∀ nextOrder, Outcome (some uri) result a
      (({ a with opened := a.opened.filter (·.uri != uri), nextOrder }.record
        (.published (.withdrawal uri))).replaceSnapshot (some uri)
          (a.snapshot.withoutDocument uri)) := by
    intro nextOrder
    refine closed nextOrder _ (fun other ne => ?_) fun x member => ?_
    · exact Snapshot.withoutDocuments_document? fun x at_other => beq_false_of_ne (at_other ▸ ne)
    · exact h.found x (List.mem_filter.mp member).1
  unfold close
  dsimp only
  split
  · obtain ⟨⟨nextOrder, read⟩, file⟩ :=
      readFile_spec { a with opened := a.opened.filter (·.uri != uri) } disk uri
    rw [read]
    split
    · rename_i x some_read
      obtain ⟨at_uri, origin⟩ := file x some_read
      refine closed nextOrder _ (fun other ne => ?_) (withDocument_found h.found origin)
      dsimp only
      rw [Snapshot.withDocument_document?, at_uri, if_neg ne]
    · exact removed nextOrder
  · exact removed a.nextOrder

/-- Another snapshot that shows the open documents as before. -/
theorem show_proceeds (h : a.Sound) {s : Snapshot} (nextOrder : Nat)
    (same : ∀ uri, a.isOpen uri = true → s.document? uri = a.snapshot.document? uri)
    (found : ∀ x ∈ s.indexes, AllFrom .analysis x.diagnostics) :
    Proceeds a (({ a with nextOrder } : Analysis).replaceSnapshot none s) := by
  have shown : Proceeds a { a with nextOrder, snapshot := s } := by
    refine .silent h (fun _ => rfl) (fun uri opened => ?_) found rfl
    rw [shownVersion?, shownVersion?]
    dsimp only
    rw [same uri opened]
  exact shown.trans (replaceSnapshot_proceeds (a := { a with nextOrder }) shown.sound none)

theorem cache_proceeds (h : a.Sound) (disk : Disk) (folder : String) :
    Proceeds a (a.cache disk folder) := by
  unfold cache
  dsimp only
  obtain ⟨⟨nextOrder, read⟩, files⟩ :=
    readFiles_spec disk ((disk.ruleFiles folder).filter fun uri => !a.isOpen uri) a
  rw [read]
  refine show_proceeds h nextOrder ?_ ?_
  · intro uri opened
    refine Snapshot.withDocuments_document? fun x member at_uri => ?_
    have closed := (List.mem_filter.mp (files x member).1).2
    rw [at_uri, opened] at closed
    cases closed
  · intro x member
    rcases Snapshot.withDocuments_mem member with old | new
    · exact h.found x old
    · exact (files x new).2

theorem clearCache_proceeds (h : a.Sound) : Proceeds a a.clearCache := by
  refine show_proceeds h a.nextOrder ?_ ?_
  · intro uri opened
    exact Snapshot.withoutDocuments_document? fun x at_uri => by rw [at_uri, opened]; rfl
  · intro x member
    exact h.found x (List.mem_filter.mp member).1

theorem fileChanged_proceeds (h : a.Sound) (disk : Disk) (change : String × FileChange) :
    Proceeds a (a.fileChanged disk change) := by
  obtain ⟨uri, kind⟩ := change
  unfold fileChanged
  dsimp only
  split
  · exact .refl h
  · rename_i closed
    have other_open : ∀ other, a.isOpen other = true → other ≠ uri := by
      intro other opened eq
      exact closed (eq ▸ opened)
    obtain ⟨⟨nextOrder, read⟩, file⟩ := readFile_spec a disk uri
    have with_file : ∀ x b, a.readFile disk uri = (some x, b) →
        Proceeds a (b.replaceSnapshot none (b.snapshot.withDocument x)) := by
      intro x b run
      rw [run] at read file
      cases read
      obtain ⟨at_uri, origin⟩ := file x rfl
      refine show_proceeds h nextOrder ?_ (withDocument_found h.found origin)
      intro other opened
      dsimp only
      rw [Snapshot.withDocument_document?, at_uri, if_neg (other_open other opened)]
    have without_file : ∀ b, a.readFile disk uri = (none, b) → Proceeds a b := by
      intro b run
      rw [run] at read
      cases read
      exact .silent h (fun _ => rfl) (fun _ _ => rfl) h.found rfl
    cases kind with
    | created =>
      dsimp only
      split
      · exact with_file _ _ ‹_›
      · exact without_file _ ‹_›
    | changed =>
      dsimp only
      split
      · exact with_file _ _ ‹_›
      · exact without_file _ ‹_›
    | deleted =>
      refine show_proceeds h a.nextOrder ?_ ?_
      · intro other opened
        exact Snapshot.withoutDocuments_document? fun x at_other =>
          beq_false_of_ne (at_other ▸ other_open other opened)
      · intro x member
        exact h.found x (List.mem_filter.mp member).1
    | other => exact .refl h

theorem watched_proceeds (h : a.Sound) (disk : Disk) (changes : List (String × FileChange)) :
    Proceeds a (a.watched disk changes) := by
  unfold watched
  split
  · exact .foldl (fun _ change sound => fileChanged_proceeds sound disk change) changes h
  · exact .refl h

theorem compile_proceeds (h : a.Sound) (uri : String) : Proceeds a (a.compile uri) := by
  unfold compile
  split
  · exact .refl h
  · rename_i d opened
    split
    · exact .refl h
    · rename_i number m start
      obtain ⟨_, started⟩ := startPass?_eq_some start
      have truths : ∀ other, m.truth other = a.truth other := by
        intro other
        by_cases eq : other = uri
        · obtain ⟨e, at_uri, version, _, kept⟩ := started.here
          rw [opened, Option.getD_some] at kept
          rw [eq, truth_of_open at_uri, truth_of_open opened, version, kept]
        · exact started.truth_other other eq
      have again : Proceeds a m := by
        refine .silent h truths (fun other _ => ?_) ?_ started.publications
        · rw [shownVersion?, started.snapshot]; rfl
        · rw [started.snapshot]; exact h.found
      have moved := again.trans (moveTo_proceeds again.sound uri .indexed)
      exact moved.trans (startCompiling_proceeds moved.sound number uri d.version)

theorem compileAll_proceeds (h : a.Sound) : Proceeds a a.compileAll :=
  .foldl (fun _ uri sound => compile_proceeds sound uri) _ h

/-- What the compiler found is kept for the document first, so that the
publication that follows is faithful. -/
theorem finishCompiling_outcome (h : a.Sound) {uri : String} {version : Option Int}
    {found : Option (List Diagnostic)} (origin : ∀ ds ∈ found, AllFrom .compiler ds)
    (new : ∀ ds ∈ found, result uri ⟨version, ds⟩) :
    Outcome none result a (a.finishCompiling uri version found) := by
  let store : OpenDocument → OpenDocument := fun d =>
    { d with compilerAvailable := found.isSome, compiled := found.map fun ds => ⟨version, ds⟩ }
  have opened : ∀ other, (a.update uri store).open? other =
      if other = uri then (a.open? other).map store else a.open? other :=
    fun other => update_open? a uri other store fun _ => rfl
  have elsewhere : ∀ other, other ≠ uri → (a.update uri store).truth other = a.truth other := by
    intro other ne
    rw [truth, opened, if_neg ne]
    rfl
  have here : ∀ v c, (a.update uri store).truth uri = some (v, c) →
      c = found.map (fun ds => ⟨version, ds⟩) ∧ ∃ before, a.truth uri = some (v, before) := by
    intro v c at_uri
    rw [truth, opened, if_pos rfl, Option.map_map] at at_uri
    obtain ⟨d, before, same⟩ := Option.map_eq_some_iff.mp at_uri
    cases same
    exact ⟨rfl, d.compiled, truth_of_open before⟩
  have kept : Outcome none result a (a.update uri store) := by
    refine ⟨⟨?_, ?_, h.found⟩, ?_, (fun _ eq => (Option.some_ne_none _ eq.symm).elim), ?_, [], rfl,
      fun _ member => (List.not_mem_nil member).elim⟩
    · intro other v c at_other
      by_cases eq : other = uri
      · rw [eq] at at_other ⊢
        obtain ⟨_, before, at_before⟩ := here v c at_other
        exact h.shown uri v before at_before
      · exact h.shown other v c ((elsewhere other eq).symm.trans at_other)
    · intro other v c at_other
      by_cases eq : other = uri
      · rw [eq] at at_other
        obtain ⟨stored, _⟩ := here v (some c) at_other
        obtain ⟨ds, some_found, rfl⟩ := Option.map_eq_some_iff.mp stored.symm
        exact origin ds some_found
      · exact h.kept other v c ((elsewhere other eq).symm.trans at_other)
    · intro other v c _ at_other
      by_cases eq : other = uri
      · obtain ⟨d, before, rfl, _⟩ := open_of_truth at_other
        refine ⟨d.version, found.map fun ds => ⟨version, ds⟩, ?_, versionLe_refl _⟩
        rw [truth, opened, if_pos eq, before]
        rfl
      · exact ⟨v, c, (elsewhere other eq).trans at_other, versionLe_refl v⟩
    · intro other v c at_other
      by_cases eq : other = uri
      · rw [eq] at at_other ⊢
        obtain ⟨stored, _⟩ := here v (some c) at_other
        obtain ⟨ds, some_found, rfl⟩ := Option.map_eq_some_iff.mp stored.symm
        exact Or.inr (new ds some_found)
      · exact Or.inl ⟨v, (elsewhere other eq).symm.trans at_other⟩
  have moved := kept.trans_proceeds (moveTo_proceeds kept.sound uri .compileComplete)
  have published : Proceeds ((a.update uri store).moveTo uri .compileComplete)
      (((a.update uri store).moveTo uri .compileComplete).publish uri version (found.getD [])) := by
    refine publish_proceeds moved.sound fun e opened_now => ?_
    rw [moveTo_open?, if_pos rfl, opened, if_pos rfl, Option.map_map] at opened_now
    obtain ⟨d, _, same⟩ := Option.map_eq_some_iff.mp opened_now
    cases found with
    | none => exact Or.inl rfl
    | some ds =>
      cases same
      refine Or.inr ?_
      simp only [OpenDocument.compiledFor, store, Function.comp_apply, Option.map_some, if_true,
        Option.getD_some]
  have done := moved.trans_proceeds published
  exact done.trans_proceeds (moveTo_proceeds done.sound uri .indexed)

/-- A new result of the compiler comes from the pass that wakes, which is the
last one of its document, and is about the version of that pass. -/
def Finishes (a : Analysis) (s : Step) (uri : String) (c : Compiled) : Prop :=
  ∃ p ∈ a.passes, s.action = .wake p.number ∧ p.uri = uri ∧ a.isCurrent p = true ∧
    ∃ document answer, p.stage = .compiling document answer ∧
      answer.diagnostics? document = some c.diagnostics ∧ c.version = p.version

/-- The document that an action closes. -/
def closes? : Action → Option String
  | .close uri => some uri
  | _ => none

theorem wake_outcome (h : a.Sound) (s : Step) {number : Nat} (action : s.action = .wake number) :
    Outcome none (a.Finishes s) a (a.wake number) := by
  unfold wake
  split
  · exact .of_proceeds (.refl h)
  · rename_i p pending
    split
    · exact .of_proceeds (.refl h)
    · have rest := fun passes => queue_proceeds h passes
      dsimp only
      split
      · rename_i current
        split
        · exact .of_proceeds
            ((rest _).trans (startCompiling_proceeds (rest _).sound number p.uri p.version))
        · rename_i document answer stage
          have same_number := List.find?_some pending
          have number_eq := beq_iff_eq.mp same_number
          have finished :
              Outcome none (a.Finishes s) { a with passes := a.passes.filter (·.number != number) }
              (({ a with passes := a.passes.filter (·.number != number) } :
                Analysis).finishCompiling p.uri p.version (answer.diagnostics? document)) := by
            refine finishCompiling_outcome (rest _).sound ?_ ?_
            · intro ds found
              exact CompilerAnswer.diagnostics_origin found
            · intro ds found
              exact ⟨p, List.mem_of_find?_eq_some pending, by rw [action, number_eq], rfl, current,
                document, answer, stage, found, rfl⟩
          exact ⟨finished.sound, finished.versions, finished.closed, finished.results,
            finished.published⟩
      · exact .of_proceeds (rest _)

/-- What any step of a run does. -/
theorem after_outcome (h : a.Sound) (s : Step) :
    Outcome (closes? s.action) (a.Finishes s) a (a.after s) := by
  unfold after
  cases action : s.action with
  | change uri version text => exact change_outcome h uri version text
  | save uri text => exact save_outcome h uri text
  | close uri => exact close_outcome h s.disk uri
  | compile uri => exact .of_proceeds (compile_proceeds h uri)
  | compileAll => exact .of_proceeds (compileAll_proceeds h)
  | configure _ => exact .of_proceeds (.silent h (fun _ => rfl) (fun _ _ => rfl) h.found rfl)
  | useCompiler _ => exact .of_proceeds (.silent h (fun _ => rfl) (fun _ _ => rfl) h.found rfl)
  | cache folder => exact .of_proceeds (cache_proceeds h s.disk folder)
  | clearCache => exact .of_proceeds (clearCache_proceeds h)
  | watched changes => exact .of_proceeds (watched_proceeds h s.disk changes)
  | tick _ => exact .of_proceeds (.silent h (fun _ => rfl) (fun _ _ => rfl) h.found rfl)
  | wake number => exact wake_outcome h s action

theorem start_sound (catalog : Catalog) (settings : Settings) (compiler : Option Compiler) :
    (start catalog settings compiler).Sound :=
  ⟨(fun _ _ _ at_uri => nomatch at_uri), (fun _ _ _ at_uri => nomatch at_uri), fun _ member =>
    nomatch member⟩

theorem run_sound (h : a.Sound) (steps : List Step) : (a.run steps).Sound := by
  induction steps generalizing a with
  | nil => exact h
  | cons s rest ih => exact ih (after_outcome h s).sound

end Analysis

end RuleDesk
