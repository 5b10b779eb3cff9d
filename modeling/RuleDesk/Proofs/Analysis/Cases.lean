import RuleDesk.Proofs.Analysis.InOrder

namespace RuleDesk

/-- An index of a file as it was read from disk, without a version. -/
def DocumentIndex.FromDisk (x : DocumentIndex) (catalog : Catalog) : Prop :=
  ∃ text, x = (Document.ofText x.uri none text).index catalog x.order

theorem DocumentIndex.FromDisk.version {x : DocumentIndex} {catalog : Catalog}
    (h : x.FromDisk catalog) :
    x.document.version = none := by
  obtain ⟨text, same⟩ := h
  rw [same]
  rfl

/-- Documents come into a snapshot one after the other. One that is there
already keeps its order, the others get the orders from `n` up to `m`. -/
inductive Snapshot.Adds (s : Snapshot) : Nat → List DocumentIndex → Nat → Prop
  | nil (n : Nat) : Adds s n [] n
  | known {n m : Nat} {x y : DocumentIndex} {xs : List DocumentIndex}
      (here : s.document? x.uri = some y)
      (order : x.order = y.order) (rest : Adds s n xs m) : Adds s n (x :: xs) m
  | new {n m : Nat} {x : DocumentIndex} {xs : List DocumentIndex}
      (absent : s.document? x.uri = none)
      (order : x.order = n) (rest : Adds s (n + 1) xs m) : Adds s n (x :: xs) m

namespace Analysis

/-- What no action on a document changes. -/
structure SameFrame (a b : Analysis) : Prop where
  catalog : b.catalog = a.catalog
  settings : b.settings = a.settings
  compiler : b.compiler = a.compiler
  nextOrder : b.nextOrder = a.nextOrder

theorem SameFrame.compileDelay? {a b : Analysis} (h : SameFrame a b) (saved : Bool) :
    b.compileDelay? saved = a.compileDelay? saved := by
  rw [Analysis.compileDelay?, Analysis.compileDelay?, h.compiler, h.settings]

theorem moveTo_sameFrame (a : Analysis) (uri : String) (phase : Phase) :
    SameFrame a (a.moveTo uri phase) := by
  unfold moveTo
  split
  · exact ⟨rfl, rfl, rfl, rfl⟩
  · exact ⟨rfl, rfl, rfl, rfl⟩

theorem moveTo_journal {a : Analysis} {uri : String} {d : OpenDocument}
    (opened : a.open? uri = some d)
    (phase : Phase) : (a.moveTo uri phase).journal = .moved uri d.phase phase :: a.journal := by
  unfold moveTo
  rw [opened]
  rfl

theorem SameFrame.refl (a : Analysis) : SameFrame a a := ⟨rfl, rfl, rfl, rfl⟩

theorem SameFrame.trans {a b c : Analysis} (h : SameFrame a b) (h' : SameFrame b c) :
    SameFrame a c :=
  ⟨h'.catalog.trans h.catalog, h'.settings.trans h.settings, h'.compiler.trans h.compiler,
    h'.nextOrder.trans h.nextOrder⟩

theorem publish_sameFrame (a : Analysis) (uri : String) (version : Option Int)
    (compiled : List Diagnostic) :
    SameFrame a (a.publish uri version compiled) := by
  unfold publish
  split
  · split
    · exact ⟨rfl, rfl, rfl, rfl⟩
    · exact .refl a
  · exact .refl a

theorem republish_sameFrame (a : Analysis) (uri : String) : SameFrame a (a.republish uri) := by
  unfold republish
  split
  · exact publish_sameFrame a uri _ _
  · exact .refl a

theorem replaceSnapshot_sameFrame (a : Analysis) (changed : Option String) (s : Snapshot) :
    SameFrame a (a.replaceSnapshot changed s) := by
  have walk : ∀ (uris : List String) (b : Analysis), SameFrame b (uris.foldl republish b) := by
    intro uris
    induction uris with
    | nil => exact .refl
    | cons uri rest ih => exact fun b => (republish_sameFrame b uri).trans (ih _)
  exact SameFrame.trans (b := { a with snapshot := s }) ⟨rfl, rfl, rfl, rfl⟩ (walk _ _)

theorem commit_sameFrame (a : Analysis) (x : DocumentIndex) : SameFrame a (a.commit x) :=
  (replaceSnapshot_sameFrame a _ _).trans (moveTo_sameFrame _ _ _)

theorem startCompiling_sameFrame (a : Analysis) (number : Nat) (uri : String)
    (version : Option Int) :
    SameFrame a (a.startCompiling number uri version) := by
  unfold startCompiling
  split
  · exact publish_sameFrame a uri version []
  · split
    · exact .refl a
    · split
      · obtain ⟨catalog, settings, compiler, nextOrder⟩ :=
          moveTo_sameFrame { a with passes := _ } uri .compiling
        exact ⟨catalog, settings, compiler, nextOrder⟩
      · exact .refl a

/-- All that the start of a pass does, and all that it leaves as it is. -/
structure Starts (a b : Analysis) (uri : String)
    (version : Option Int) : Prop extends Begins a b uri version where
  frame : SameFrame a b
  opened : b.open? uri = some
    { (a.open? uri).getD (.unanalyzed uri) with version, pass := a.nextPass, phase := .parsing }
  journal : b.journal =
      .moved uri ((a.open? uri).getD (.unanalyzed uri)).phase .parsing :: a.journal

theorem startPass?_starts {a b : Analysis} {uri : String} {version : Option Int}
    {sameVersion : Bool}
    {number : Nat} (h : a.startPass? uri version sameVersion = some (number, b)) :
    number = a.nextPass ∧ Starts a b uri version := by
  obtain ⟨number_eq, begins⟩ := startPass?_eq_some h
  have here : SameFrame a b ∧
      b.open? uri = some
        { (a.open? uri).getD (.unanalyzed uri) with version, pass := a.nextPass, phase := .parsing }
        ∧
      b.journal = .moved uri ((a.open? uri).getD (.unanalyzed uri)).phase .parsing ::
        a.journal := by
    unfold startPass? at h
    dsimp only at h
    split at h
    · simp only [Option.some.injEq, Prod.mk.injEq] at h
      obtain ⟨_, rfl⟩ := h
      have updated := update_open?
        ({ a with
            opened := if a.isOpen uri then a.opened
              else a.opened ++ [(a.open? uri).getD (.unanalyzed uri)]
            nextPass := a.nextPass + 1 } : Analysis) uri uri
              ({ · with version, pass := a.nextPass }) fun _ => rfl
      rw [if_pos rfl, open?_insert a uri uri (a.nextPass + 1), if_pos rfl] at updated
      refine ⟨?_, ?_, ?_⟩
      · obtain ⟨catalog, settings, compiler, nextOrder⟩ := moveTo_sameFrame
          (({ a with
              opened := if a.isOpen uri then a.opened
                else a.opened ++ [(a.open? uri).getD (.unanalyzed uri)]
              nextPass := a.nextPass + 1 } : Analysis).update uri
                ({ · with version, pass := a.nextPass })) uri .parsing
        exact ⟨catalog, settings, compiler, nextOrder⟩
      · rw [moveTo_open?, if_pos rfl, updated]
        rfl
      · exact moveTo_journal updated .parsing
    · cases h
  exact ⟨number_eq, begins, here.1, here.2.1, here.2.2⟩

theorem startPass?_accepts (a : Analysis) (uri : String) (version : Option Int)
    (sameVersion : Bool) :
    (a.startPass? uri version sameVersion).isSome =
      ((a.open? uri).getD (.unanalyzed uri)).accepts version sameVersion := by
  unfold startPass?
  dsimp only
  split
  · rename_i accepted
    rw [accepted]
    rfl
  · rename_i refused
    rw [Bool.eq_false_iff.mpr refused]
    rfl

/-- The order that a document gets is the one it is added with. -/
theorem orderOf_adds (a : Analysis) (uri : String) :
    ∃ nextOrder, (a.orderOf uri).2 = { a with nextOrder } ∧
      ∀ x xs m, x.uri = uri → x.order = (a.orderOf uri).1 → a.snapshot.Adds nextOrder xs m →
        a.snapshot.Adds a.nextOrder (x :: xs) m := by
  unfold orderOf
  split
  · rename_i y here
    exact ⟨a.nextOrder, rfl, fun x xs m at_uri order rest => .known (at_uri ▸ here) order rest⟩
  · rename_i absent
    exact ⟨a.nextOrder + 1, rfl, fun x xs m at_uri order rest => .new (at_uri ▸ absent) order rest⟩

/-- A file that is read can be added, together with others that are read later. -/
theorem readFile_adds (a : Analysis) (disk : Disk) (uri : String) :
    ∃ nextOrder, (a.readFile disk uri).2 = { a with nextOrder } ∧
      (∀ xs m, a.snapshot.Adds nextOrder xs m →
        a.snapshot.Adds a.nextOrder ((a.readFile disk uri).1.toList ++ xs) m) ∧
      ∀ x ∈ (a.readFile disk uri).1, x.uri = uri ∧ x.FromDisk a.catalog := by
  unfold readFile
  split
  · exact ⟨a.nextOrder, rfl, fun _ _ rest => rest, fun _ member => nomatch member⟩
  · rename_i text read
    obtain ⟨nextOrder, ordered, adds⟩ := orderOf_adds a uri
    refine ⟨nextOrder, ordered, fun xs m rest => adds _ xs m rfl rfl rest, ?_⟩
    intro x member
    cases Option.mem_some.mp member
    rw [ordered]
    exact ⟨rfl, text, rfl⟩

theorem readFiles_adds (disk : Disk) (uris : List String) (a : Analysis) :
    ∃ nextOrder, (a.readFiles disk uris).2 = { a with nextOrder } ∧
      a.snapshot.Adds a.nextOrder (a.readFiles disk uris).1 nextOrder ∧
      ∀ x ∈ (a.readFiles disk uris).1, x.uri ∈ uris ∧ x.FromDisk a.catalog := by
  induction uris generalizing a with
  | nil => exact ⟨a.nextOrder, rfl, .nil _, fun _ member => nomatch member⟩
  | cons uri rest ih =>
    obtain ⟨first, read, adds, here⟩ := readFile_adds a disk uri
    obtain ⟨last, more, added, others⟩ := ih (a.readFile disk uri).2
    have files : a.snapshot.Adds first (((a.readFile disk uri).2.readFiles disk rest).1) last := by
      rw [read] at added ⊢
      exact added
    unfold readFiles
    refine ⟨last, by rw [more, read], adds _ last files, ?_⟩
    intro x member
    rcases List.mem_append.mp member with one | many
    · obtain ⟨at_uri, from_disk⟩ := here x (Option.mem_toList.mp one)
      exact ⟨at_uri ▸ List.mem_cons_self, from_disk⟩
    · obtain ⟨at_rest, from_disk⟩ := others x many
      rw [read] at from_disk
      exact ⟨List.mem_cons_of_mem _ at_rest, from_disk⟩

/-- Another snapshot, with the orders given out up to `n`, that differs only in
documents that are free to change: some are read from disk, or some are gone. -/
inductive Replaces (a : Analysis) (free : String → Prop) : Nat → Snapshot → Prop
  | add {xs : List DocumentIndex} {n : Nat} (adds : a.snapshot.Adds a.nextOrder xs n)
      (read : ∀ x ∈ xs, free x.uri ∧ x.FromDisk a.catalog) :
      Replaces a free n (a.snapshot.withDocuments xs)
  | remove {p : DocumentIndex → Bool} (gone : ∀ x, p x = true → free x.uri) :
      Replaces a free a.nextOrder (a.snapshot.withoutDocuments p)

theorem Replaces.document? {a : Analysis} {free : String → Prop} {n : Nat} {s : Snapshot}
    (h : a.Replaces free n s) {uri : String} (bound : ¬ free uri) :
    s.document? uri = a.snapshot.document? uri := by
  cases h with
  | add _ read =>
    exact Snapshot.withDocuments_document? fun x member at_uri => bound (at_uri ▸ (read x member).1)
  | remove gone =>
    refine Snapshot.withoutDocuments_document? fun x at_uri =>
      Bool.eq_false_iff.mpr fun removed => ?_
    exact bound (at_uri ▸ gone x removed)

theorem Replaces.origin {a : Analysis} {free : String → Prop} {n : Nat} {s : Snapshot}
    (h : a.Replaces free n s) {x : DocumentIndex} (member : x ∈ s.indexes) :
    x ∈ a.snapshot.indexes ∨ x.FromDisk a.catalog := by
  cases h with
  | add _ read => exact (Snapshot.withDocuments_mem member).imp_right fun new => (read x new).2
  | remove _ => exact Or.inl (List.mem_filter.mp member).1

variable {a : Analysis}

/-! ### What each action comes down to -/

theorem change_cases (a : Analysis) (uri : String) (version : Int) (text : List Char) :
    (a.acceptsChange uri version = false ∧ a.change uri version text = a) ∨
      ∃ m order nextOrder, a.acceptsChange uri version = true ∧ Starts a m uri (some version) ∧
        a.snapshot.Adds a.nextOrder
          [(Document.ofText uri (some version) text).index a.catalog order] nextOrder ∧
        a.change uri version text =
          (({ m with nextOrder } : Analysis).commit
            ((Document.ofText uri (some version) text).index a.catalog order)).schedule
              a.nextPass uri (some version) false := by
  have accepts := startPass?_accepts a uri (some version) false
  unfold change
  split
  · rename_i refused
    rw [refused] at accepts
    exact Or.inl ⟨accepts.symm, rfl⟩
  · rename_i number m start
    rw [start] at accepts
    obtain ⟨rfl, started⟩ := startPass?_starts start
    obtain ⟨nextOrder, ordered, adds⟩ := orderOf_adds m uri
    refine Or.inr ⟨m, (m.orderOf uri).1, nextOrder, accepts.symm, started, ?_, ?_⟩
    · rw [← started.snapshot, ← started.frame.nextOrder]
      exact adds _ [] nextOrder rfl rfl (.nil _)
    · dsimp only
      rw [ordered, started.frame.catalog]

/-- A document that is saved starts a pass, as its version is not older. -/
theorem save_cases (h : a.Sound) (uri : String) (text : Option (List Char)) :
    (a.snapshot.document? uri = none ∧ a.save uri text = a) ∨
      ∃ current m b, a.snapshot.document? uri = some current ∧
        Starts a m uri current.document.version ∧
        a.save uri text = b.schedule a.nextPass uri current.document.version true ∧
        ((b = m.moveTo uri .indexed ∧ ∀ saved ∈ text, saved = current.document.text) ∨
          ∃ saved ∈ text, b =
            m.commit ((Document.ofText uri current.document.version saved).index a.catalog
              current.order)) := by
  unfold save
  split
  · rename_i absent
    exact Or.inl ⟨absent, rfl⟩
  · rename_i current in_snapshot
    have accepted : ((a.open? uri).getD (.unanalyzed uri)).accepts current.document.version true =
        true := by
      cases opened : a.open? uri with
      | none =>
        unfold OpenDocument.accepts
        cases current.document.version <;> rfl
      | some d =>
        have shown := h.shown uri d.version d.compiled (truth_of_open opened)
        rw [shownVersion?, in_snapshot, Option.map_some, Option.some.injEq] at shown
        rw [shown]
        exact accepts_same d
    rw [← startPass?_accepts] at accepted
    dsimp only
    split
    · rename_i refused
      rw [refused] at accepted
      cases accepted
    · rename_i number m start
      obtain ⟨rfl, started⟩ := startPass?_starts start
      refine Or.inr ⟨current, m, _, in_snapshot, started, rfl, ?_⟩
      cases text with
      | none => exact Or.inl ⟨rfl, fun saved member => (Option.not_mem_none saved member).elim⟩
      | some saved =>
        dsimp only
        split
        · rename_i same
          exact Or.inl ⟨rfl, fun t member => Option.mem_some.mp member ▸ same⟩
        · rw [started.frame.catalog]
          exact Or.inr ⟨saved, rfl, rfl⟩

theorem close_cases (a : Analysis) (disk : Disk) (uri : String) :
    ∃ nextOrder s, a.Replaces (· = uri) nextOrder s ∧
      (∀ x ∈ s.indexes, x.uri = uri → x.FromDisk a.catalog) ∧ a.close disk uri =
        (({ a with opened := a.opened.filter (·.uri != uri), nextOrder } : Analysis).record
          (.published (.withdrawal uri))).replaceSnapshot (some uri) s := by
  have removed : a.Replaces (· = uri) a.nextOrder (a.snapshot.withoutDocument uri) ∧
      ∀ x ∈ (a.snapshot.withoutDocument uri).indexes, x.uri = uri → x.FromDisk a.catalog := by
    refine ⟨.remove fun x gone => beq_iff_eq.mp gone, fun x member at_uri => ?_⟩
    have kept := (List.mem_filter.mp member).2
    dsimp only at kept
    rw [at_uri, beq_self_eq_true] at kept
    cases kept
  unfold close
  dsimp only
  split
  · obtain ⟨nextOrder, read, adds, file⟩ :=
      readFile_adds { a with opened := a.opened.filter (·.uri != uri) } disk uri
    rw [read]
    split
    · rename_i x some_read
      obtain ⟨at_uri, from_disk⟩ := file x some_read
      have added : a.snapshot.Adds a.nextOrder [x] nextOrder := by
        have one := adds [] nextOrder (.nil _)
        rw [some_read] at one
        exact one
      refine ⟨nextOrder, _, .add added fun y member => ?_, fun y member at_uri' => ?_, rfl⟩
      · rw [List.mem_singleton.mp member]
        exact ⟨at_uri, from_disk⟩
      · rcases List.mem_append.mp member with old | new
        · have other := (List.mem_filter.mp old).2
          rw [at_uri', at_uri, bne_self_eq_false] at other
          cases other
        · rw [List.mem_singleton.mp new]
          exact from_disk
    · rename_i none_read
      have none_added := adds [] nextOrder (.nil _)
      rw [none_read] at none_added
      cases none_added
      exact ⟨a.nextOrder, _, removed.1, removed.2, rfl⟩
  · exact ⟨a.nextOrder, _, removed.1, removed.2, rfl⟩

theorem compile_cases (a : Analysis) (uri : String) :
    (a.open? uri = none ∧ a.compile uri = a) ∨ ∃ d m, a.open? uri = some d ∧
      Starts a m uri d.version ∧
      a.compile uri = (m.moveTo uri .indexed).startCompiling a.nextPass uri d.version := by
  unfold compile
  split
  · rename_i absent
    exact Or.inl ⟨absent, rfl⟩
  · rename_i d opened
    have accepted : ((a.open? uri).getD (.unanalyzed uri)).accepts d.version true = true := by
      rw [opened]
      exact accepts_same d
    rw [← startPass?_accepts] at accepted
    split
    · rename_i refused
      rw [refused] at accepted
      cases accepted
    · rename_i number m start
      obtain ⟨rfl, started⟩ := startPass?_starts start
      exact Or.inr ⟨d, m, opened, started, rfl⟩

theorem compile_sameFrame (a : Analysis) (uri : String) : SameFrame a (a.compile uri) := by
  rcases compile_cases a uri with ⟨_, same⟩ | ⟨d, m, _, started, same⟩
  · rw [same]
    exact .refl a
  · rw [same]
    exact started.frame.trans
      ((moveTo_sameFrame m uri .indexed).trans (startCompiling_sameFrame _ _ uri d.version))

theorem cache_cases (a : Analysis) (disk : Disk) (folder : String) :
    ∃ nextOrder s, a.Replaces (a.isOpen · = false) nextOrder s ∧
      a.cache disk folder = ({ a with nextOrder } : Analysis).replaceSnapshot none s := by
  obtain ⟨nextOrder, read, adds, files⟩ :=
    readFiles_adds disk ((disk.ruleFiles folder).filter fun uri => !a.isOpen uri) a
  unfold cache
  dsimp only
  rw [read]
  refine ⟨nextOrder, _, .add adds fun x member => ?_, rfl⟩
  obtain ⟨listed, from_disk⟩ := files x member
  have closed := (List.mem_filter.mp listed).2
  exact ⟨(Bool.not_eq_true' _).mp closed, from_disk⟩

theorem clearCache_cases (a : Analysis) :
    ∃ s, a.Replaces (a.isOpen · = false) a.nextOrder s ∧ a.clearCache = a.replaceSnapshot none s :=
  ⟨_, .remove fun _ gone => (Bool.not_eq_true' _).mp gone, rfl⟩

theorem fileChanged_cases (a : Analysis) (disk : Disk) (change : String × FileChange) :
    a.fileChanged disk change = a ∨ ∃ nextOrder s, a.Replaces (a.isOpen · = false) nextOrder s ∧
      a.fileChanged disk change = ({ a with nextOrder } : Analysis).replaceSnapshot none s := by
  obtain ⟨uri, kind⟩ := change
  unfold fileChanged
  dsimp only
  split
  · exact Or.inl rfl
  · rename_i not_open
    have closed := Bool.eq_false_iff.mpr not_open
    obtain ⟨nextOrder, read, adds, file⟩ := readFile_adds a disk uri
    have added := adds [] nextOrder (.nil _)
    have with_file : ∀ x b, a.readFile disk uri = (some x, b) →
        ∃ nextOrder s, a.Replaces (a.isOpen · = false) nextOrder s ∧
          b.replaceSnapshot none (b.snapshot.withDocument x) =
            ({ a with nextOrder } : Analysis).replaceSnapshot none s := by
      intro x b run
      rw [run] at read file added
      cases read
      obtain ⟨at_uri, from_disk⟩ := file x rfl
      refine ⟨nextOrder, _, .add added fun y member => ?_, rfl⟩
      rw [List.mem_singleton.mp member]
      exact ⟨at_uri ▸ closed, from_disk⟩
    have without_file : ∀ b, a.readFile disk uri = (none, b) → b = a := by
      intro b run
      rw [run] at read added
      cases read
      cases added
      rfl
    cases kind with
    | created =>
      dsimp only
      split
      · exact Or.inr (with_file _ _ ‹_›)
      · exact Or.inl (without_file _ ‹_›)
    | changed =>
      dsimp only
      split
      · exact Or.inr (with_file _ _ ‹_›)
      · exact Or.inl (without_file _ ‹_›)
    | deleted =>
      refine Or.inr ⟨a.nextOrder, _, .remove fun x gone => ?_, rfl⟩
      have at_uri : x.uri = uri := beq_iff_eq.mp gone
      exact at_uri ▸ closed
    | other => exact Or.inl rfl

end Analysis

end RuleDesk
