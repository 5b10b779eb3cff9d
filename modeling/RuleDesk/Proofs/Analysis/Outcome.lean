import RuleDesk.Proofs.Analysis.Begin

namespace RuleDesk

/-- The publication that takes back the diagnostics of a document. -/
def Publication.withdrawal (uri : String) : Publication := ⟨uri, none, [], []⟩

namespace Analysis

/-- What any action may do to the open documents and publish. The action may
close one document, and the compiler's results that are new after it have to
satisfy `result`. -/
structure Outcome (closing : Option String) (result : String → Compiled → Prop)
    (a b : Analysis) : Prop where
  sound : b.Sound
  versions : ∀ uri v c, closing ≠ some uri → a.truth uri = some (v, c) →
    ∃ v' c', b.truth uri = some (v', c') ∧ versionLe v v'
  closed : ∀ uri, closing = some uri → b.truth uri = none
  results : ∀ uri v c, b.truth uri = some (v, some c) → (∃ v', a.truth uri = some (v', some c)) ∨
      result uri c
  published : ∃ new, b.publications = new ++ (closing.toList.map .withdrawal ++ a.publications) ∧
    ∀ p ∈ new, p.Faithful b

variable {closing : Option String} {result : String → Compiled → Prop} {a b c : Analysis}

theorem Outcome.trans_proceeds (h : Outcome closing result a b) (h' : Proceeds b c) :
    Outcome closing result a c := by
  refine ⟨h'.sound, ?_, ?_, ?_, ?_⟩
  · intro uri v x ne at_uri
    rw [h'.truth uri]
    exact h.versions uri v x ne at_uri
  · intro uri eq
    rw [h'.truth uri]
    exact h.closed uri eq
  · intro uri v x at_uri
    rw [h'.truth uri] at at_uri
    exact h.results uri v x at_uri
  · obtain ⟨first, pubs, faithful⟩ := h.published
    obtain ⟨second, pubs', faithful'⟩ := h'.published
    refine ⟨second ++ first, by rw [pubs', pubs, List.append_assoc], ?_⟩
    intro p member
    rcases List.mem_append.mp member with new | old
    · exact faithful' p new
    · exact (faithful p old).transfer (h'.truth p.uri) (h'.shown p.uri)

theorem Outcome.of_proceeds (h : Proceeds a b) : Outcome none result a b := by
  refine ⟨h.sound, ?_, (fun _ eq => nomatch eq), ?_, h.published⟩
  · intro uri v x _ at_uri
    exact ⟨v, x, (h.truth uri).trans at_uri, versionLe_refl v⟩
  · intro uri v x at_uri
    exact Or.inl ⟨v, (h.truth uri).symm.trans at_uri⟩

theorem Begins.truth_other {uri : String} {version : Option Int} (h : Begins a b uri version)
    (other : String) (ne : other ≠ uri) : b.truth other = a.truth other := by
  rw [truth, truth, h.others other ne]

/-- The version of a document that starts a pass is not older than the one
before, as the snapshot has no newer one. -/
theorem Begins.versionLe {uri : String} {version : Option Int} (h : Begins a b uri version)
    (known : version = none → ∀ v c, a.truth uri = some (v, c) → v = none) :
    ∀ v c, a.truth uri = some (v, c) → RuleDesk.versionLe v version := by
  intro v c at_uri
  obtain ⟨d, opened, rfl, _⟩ := open_of_truth at_uri
  have accepted := h.accepted
  rw [opened, Option.getD_some] at accepted
  cases version with
  | none =>
    rw [known rfl _ _ at_uri]
    trivial
  | some new =>
    cases current : d.version with
    | none => trivial
    | some old =>
      unfold OpenDocument.accepts at accepted
      rw [current] at accepted
      simp only [Bool.or_eq_true, Bool.and_eq_true, and_true, decide_eq_true_eq, beq_iff_eq]
        at accepted
      show old ≤ new
      omega

/-- A pass has started, and the snapshot shows the version it is about. -/
theorem Begins.outcome {uri : String} {version : Option Int} {m : Analysis} (h : a.Sound)
    (started : Begins a m uri version)
    (known : version = none → ∀ v c, a.truth uri = some (v, c) → v = none)
    (opened : ∀ other, b.truth other = m.truth other) (shown : b.shownVersion? uri = some version)
    (others : ∀ other, other ≠ uri → b.shownVersion? other = a.shownVersion? other)
    (found : ∀ x ∈ b.snapshot.indexes, AllFrom .analysis x.diagnostics)
    (pubs : b.publications = a.publications) : Outcome none result a b := by
  obtain ⟨d, at_uri, version_eq, _, kept⟩ := started.here
  have here : b.truth uri = some (version, d.compiled) := by
    rw [opened, truth_of_open at_uri, version_eq]
  have elsewhere : ∀ other, other ≠ uri → b.truth other = a.truth other :=
    fun other ne => (opened other).trans (Begins.truth_other started other ne)
  -- a document that was not open before has no result yet
  have compiled : ∀ c, d.compiled = some c → ∃ v, a.truth uri = some (v, some c) := by
    intro c some_kept
    rw [kept] at some_kept
    cases before : a.open? uri with
    | none =>
      rw [before] at some_kept
      cases some_kept
    | some e =>
      rw [before, Option.getD_some] at some_kept
      exact ⟨e.version, by rw [truth_of_open before, some_kept]⟩
  have results : ∀ other v c, b.truth other = some (v, some c) →
      ∃ v', a.truth other = some (v', some c) := by
    intro other v c at_other
    by_cases eq : other = uri
    · rw [eq] at at_other ⊢
      rw [here] at at_other
      exact compiled c (congrArg Prod.snd (Option.some.inj at_other))
    · exact ⟨v, (elsewhere other eq).symm.trans at_other⟩
  refine ⟨⟨?_, ?_, found⟩, ?_, (fun _ eq => nomatch eq), fun other v c at_other =>
    Or.inl (results other v c at_other), [], pubs, fun _ member => nomatch member⟩
  · intro other v c at_other
    by_cases eq : other = uri
    · rw [eq] at at_other ⊢
      rw [here] at at_other
      rw [shown]
      exact congrArg (fun t => some t.1) (Option.some.inj at_other)
    · rw [others other eq]
      exact h.shown other v c ((elsewhere other eq).symm.trans at_other)
  · intro other v c at_other
    obtain ⟨v', before⟩ := results other v c at_other
    exact h.kept other v' c before
  · intro other v c _ at_other
    by_cases eq : other = uri
    · rw [eq] at at_other ⊢
      exact ⟨version, d.compiled, here, started.versionLe known v c at_other⟩
    · exact ⟨v, c, (elsewhere other eq).trans at_other, versionLe_refl v⟩

/-! ### The actions, one after the other -/

theorem orderOf_spec (a : Analysis) (uri : String) :
    ∃ nextOrder, (a.orderOf uri).2 = { a with nextOrder } := by
  unfold orderOf
  split
  · exact ⟨a.nextOrder, rfl⟩
  · exact ⟨a.nextOrder + 1, rfl⟩

/-- A file that is read is a document of its URI, and nothing else changes. -/
theorem readFile_spec (a : Analysis) (disk : Disk) (uri : String) :
    (∃ nextOrder, (a.readFile disk uri).2 = { a with nextOrder }) ∧
      ∀ x ∈ (a.readFile disk uri).1, x.uri = uri ∧ AllFrom .analysis x.diagnostics := by
  unfold readFile
  split
  · exact ⟨⟨a.nextOrder, rfl⟩, fun _ member => nomatch member⟩
  · refine ⟨orderOf_spec a uri, ?_⟩
    intro x member
    cases Option.mem_some.mp member
    exact ⟨rfl, Document.index_diagnostics _ _ _⟩

theorem readFiles_spec (disk : Disk) (uris : List String) (a : Analysis) :
    (∃ nextOrder, (a.readFiles disk uris).2 = { a with nextOrder }) ∧
      ∀ x ∈ (a.readFiles disk uris).1, x.uri ∈ uris ∧ AllFrom .analysis x.diagnostics := by
  induction uris generalizing a with
  | nil => exact ⟨⟨a.nextOrder, rfl⟩, fun _ member => nomatch member⟩
  | cons uri rest ih =>
    obtain ⟨⟨first, read⟩, here⟩ := readFile_spec a disk uri
    obtain ⟨⟨last, more⟩, others⟩ := ih (a.readFile disk uri).2
    unfold readFiles
    refine ⟨⟨last, by rw [more, read]⟩, ?_⟩
    intro x member
    rcases List.mem_append.mp member with one | many
    · obtain ⟨at_uri, origin⟩ := here x (Option.mem_toList.mp one)
      exact ⟨at_uri ▸ List.mem_cons_self, origin⟩
    · obtain ⟨at_rest, origin⟩ := others x many
      exact ⟨List.mem_cons_of_mem _ at_rest, origin⟩

theorem withDocument_found {s : Snapshot} {x : DocumentIndex}
    (h : ∀ y ∈ s.indexes, AllFrom .analysis y.diagnostics)
    (origin : AllFrom .analysis x.diagnostics) :
    ∀ y ∈ (s.withDocument x).indexes, AllFrom .analysis y.diagnostics := by
  intro y member
  rcases Snapshot.withDocuments_mem member with old | new
  · exact h y old
  · rw [List.mem_singleton.mp new]
    exact origin

/-- A pass that has started puts the document it is about into the snapshot. -/
theorem commit_outcome {uri : String} {version : Option Int} {m : Analysis} (h : a.Sound)
    (started : Begins a m uri version)
    (known : version = none → ∀ v c, a.truth uri = some (v, c) → v = none)
    (text : List Char) (order nextOrder : Nat) :
    Outcome none result a
      (({ m with nextOrder } : Analysis).commit
        ((Document.ofText uri version text).index m.catalog order)) := by
  let x := (Document.ofText uri version text).index m.catalog order
  have indexed : ∀ other, (m.snapshot.withDocument x).document? other =
      if other = uri then some x else m.snapshot.document? other :=
    fun other => m.snapshot.withDocument_document? x other
  have placed :
      Outcome none result a { m with nextOrder, snapshot := m.snapshot.withDocument x } := by
    refine started.outcome h known (fun _ => rfl) ?_ ?_ ?_ started.publications
    · rw [shownVersion?, indexed, if_pos rfl]
      rfl
    · intro other ne
      rw [shownVersion?, indexed, if_neg ne, started.snapshot]
      rfl
    · refine withDocument_found ?_ (Document.index_diagnostics _ _ _)
      rw [started.snapshot]
      exact h.found
  have republished := replaceSnapshot_proceeds (a := { m with nextOrder }) placed.sound (some uri)
  exact placed.trans_proceeds (republished.trans (moveTo_proceeds republished.sound uri .indexed))

theorem change_outcome (h : a.Sound) (uri : String) (version : Int) (text : List Char) :
    Outcome none result a (a.change uri version text) := by
  unfold change
  split
  · exact .of_proceeds (.refl h)
  · rename_i number m start
    obtain ⟨_, started⟩ := startPass?_eq_some start
    obtain ⟨nextOrder, ordered⟩ := orderOf_spec m uri
    dsimp only
    rw [ordered]
    have committed : Outcome none result a _ :=
      commit_outcome h started (fun eq => nomatch eq) text (m.orderOf uri).1 nextOrder
    exact committed.trans_proceeds
      (schedule_proceeds committed.sound number uri (some version) false)

theorem save_outcome (h : a.Sound) (uri : String) (text : Option (List Char)) :
    Outcome none result a (a.save uri text) := by
  unfold save
  split
  · exact .of_proceeds (.refl h)
  · rename_i current in_snapshot
    have shown : a.shownVersion? uri = some current.document.version := by
      rw [shownVersion?, in_snapshot]; rfl
    have known : current.document.version = none → ∀ v c, a.truth uri = some (v, c) → v = none := by
      intro none_known v c at_uri
      exact (Option.some.inj ((h.shown uri v c at_uri).symm.trans shown)).trans none_known
    dsimp only
    split
    · exact .of_proceeds (.refl h)
    · rename_i number m start
      obtain ⟨_, started⟩ := startPass?_eq_some start
      have kept : Outcome none result a (m.moveTo uri .indexed) := by
        refine started.outcome h known (fun other => moveTo_truth m uri other .indexed) ?_ ?_ ?_ ?_
        · rw [shownVersion?, moveTo_snapshot, started.snapshot]
          exact shown
        · intro other _
          rw [shownVersion?, moveTo_snapshot, started.snapshot]
          rfl
        · rw [moveTo_snapshot, started.snapshot]
          exact h.found
        · rw [moveTo_publications, started.publications]
      have saved : ∀ b, Outcome none result a b →
          Outcome none result a (b.schedule number uri current.document.version true) :=
        fun b done => done.trans_proceeds (schedule_proceeds done.sound _ _ _ _)
      cases text with
      | none => exact saved _ kept
      | some text =>
        dsimp only
        split
        · exact saved _ kept
        · exact saved _ (commit_outcome h started known text current.order m.nextOrder)

end Analysis

end RuleDesk
