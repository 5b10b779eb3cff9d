import RuleDesk.Proofs.Analysis.Cases

namespace RuleDesk

/-- The text that an editor holds of a document, with its version. -/
structure EditorCopy where
  version : Int
  text : List Char
deriving DecidableEq, Repr

namespace EditorCopy

/-- What the editor holds of the document of a URI after an action, told from
the action alone. A version that is not newer than the one that is held is no
change, and the disk has no part in it. -/
def after (uri : String) (held : Option EditorCopy) : Action → Option EditorCopy
  | .change other version text =>
    if other = uri ∧ held.all (·.version < version) then some ⟨version, text⟩ else held
  | .save other (some text) => if other = uri then held.map ({ · with text }) else held
  | .close other => if other = uri then none else held
  | _ => held

/-- What the editor holds of a document after some steps. -/
def ofSteps (uri : String) (steps : List Step) : Option EditorCopy :=
  steps.foldl (fun held s => after uri held s.action) none

theorem ofSteps_concat (uri : String) (before : List Step) (s : Step) :
    ofSteps uri (before ++ [s]) = after uri (ofSteps uri before) s.action := List.foldl_append

/-- The editor holds a document from its opening on, until it is closed. -/
theorem after_isSome (uri : String) (held : Option EditorCopy) (action : Action) :
    (after uri held action).isSome = true ↔
    (∃ version text, action = .change uri version text) ∨
      (held.isSome = true ∧ action ≠ .close uri) := by
  cases action with
  | change other version text =>
    unfold after
    dsimp only
    by_cases here : other = uri
    · subst here
      refine ⟨fun _ => Or.inl ⟨version, text, rfl⟩, fun _ => ?_⟩
      cases held with
      | none => rw [if_pos ⟨rfl, rfl⟩, Option.isSome_some]
      | some copy => split <;> rfl
    · rw [if_neg fun both => here both.1]
      refine ⟨fun still => Or.inr ⟨still, nofun⟩, ?_⟩
      rintro (⟨_, _, same⟩ | ⟨still, _⟩)
      · exact absurd (Action.change.inj same).1 here
      · exact still
  | save other text =>
    have same : (after uri held (.save other text)).isSome = held.isSome := by
      unfold after
      cases text with
      | none => rfl
      | some text =>
        dsimp only
        split
        · exact Option.isSome_map
        · rfl
    simp [same]
  | close other =>
    unfold after
    by_cases here : other = uri
    · simp [here]
    · simp [here]
  | _ => simp [after]

end EditorCopy

namespace Analysis

/-- The version that the editor gave for an open document. -/
def version? (a : Analysis) (uri : String) : Option (Option Int) := (a.open? uri).map (·.version)

/-- Neither the snapshot nor the versions of the open documents change. -/
structure SameTexts (a b : Analysis) : Prop where
  snapshot : b.snapshot = a.snapshot
  catalog : b.catalog = a.catalog
  nextOrder : b.nextOrder = a.nextOrder
  versions : ∀ uri, b.version? uri = a.version? uri

variable {a b c : Analysis}

theorem SameTexts.refl (a : Analysis) : SameTexts a a := ⟨rfl, rfl, rfl, fun _ => rfl⟩

theorem SameTexts.trans (h : SameTexts a b) (h' : SameTexts b c) : SameTexts a c :=
  ⟨h'.snapshot.trans h.snapshot, h'.catalog.trans h.catalog, h'.nextOrder.trans h.nextOrder,
    fun uri => (h'.versions uri).trans (h.versions uri)⟩

theorem SameTexts.foldl {α : Type} {f : Analysis → α → Analysis} (step : ∀ a x, SameTexts a (f a x))
    (xs : List α) (a : Analysis) : SameTexts a (xs.foldl f a) := by
  induction xs generalizing a with
  | nil => exact .refl a
  | cons x rest ih => exact (step a x).trans (ih (f a x))

theorem update_sameTexts (a : Analysis) (uri : String) {f : OpenDocument → OpenDocument}
    (keeps : ∀ d, (f d).uri = d.uri) (same : ∀ d, (f d).version = d.version) :
    SameTexts a (a.update uri f) := by
  refine ⟨rfl, rfl, rfl, fun other => ?_⟩
  rw [version?, version?, update_open? a uri other f keeps]
  split
  · rw [Option.map_map]
    exact congrArg (fun g => Option.map g (a.open? other)) (funext same)
  · rfl

theorem record_sameTexts (a : Analysis) (e : Event) : SameTexts a (a.record e) :=
  ⟨rfl, rfl, rfl, fun _ => rfl⟩

theorem moveTo_sameTexts (a : Analysis) (uri : String) (phase : Phase) :
    SameTexts a (a.moveTo uri phase) := by
  unfold moveTo
  split
  · exact .refl a
  · have moved := update_sameTexts a uri (f := ({ · with phase })) (fun _ => rfl) fun _ => rfl
    exact moved.trans (record_sameTexts _ _)

theorem publish_sameTexts (a : Analysis) (uri : String) (version : Option Int)
    (compiled : List Diagnostic) :
    SameTexts a (a.publish uri version compiled) := by
  unfold publish
  split
  · split
    · have marked := update_sameTexts a uri (f := ({ · with lastPublished := version }))
        (fun _ => rfl) fun _ => rfl
      exact marked.trans (record_sameTexts _ _)
    · exact .refl a
  · exact .refl a

theorem republish_sameTexts (a : Analysis) (uri : String) : SameTexts a (a.republish uri) := by
  unfold republish
  split
  · exact publish_sameTexts a uri _ _
  · exact .refl a

/-- Once another snapshot is in place nothing else is put there. -/
theorem replaceSnapshot_sameTexts (a : Analysis) (changed : Option String) (s : Snapshot) :
    SameTexts { a with snapshot := s } (a.replaceSnapshot changed s) :=
  .foldl republish_sameTexts _ _

theorem commit_sameTexts (a : Analysis) (x : DocumentIndex) :
    SameTexts { a with snapshot := a.snapshot.withDocument x } (a.commit x) :=
  (replaceSnapshot_sameTexts a _ _).trans (moveTo_sameTexts _ _ _)

theorem schedule_sameTexts (a : Analysis) (number : Nat) (uri : String) (version : Option Int)
    (saved : Bool) :
    SameTexts a (a.schedule number uri version saved) := by
  unfold schedule
  split
  · exact publish_sameTexts a uri version []
  · exact ⟨rfl, rfl, rfl, fun _ => rfl⟩

theorem startCompiling_sameTexts (a : Analysis) (number : Nat) (uri : String)
    (version : Option Int) :
    SameTexts a (a.startCompiling number uri version) := by
  unfold startCompiling
  split
  · exact publish_sameTexts a uri version []
  · split
    · exact .refl a
    · split
      · refine SameTexts.trans ?_ ((moveTo_sameTexts { a with passes := _ } uri .compiling).trans
          (record_sameTexts _ _))
        exact ⟨rfl, rfl, rfl, fun _ => rfl⟩
      · exact .refl a

theorem finishCompiling_sameTexts (a : Analysis) (uri : String) (version : Option Int)
    (found : Option (List Diagnostic)) : SameTexts a (a.finishCompiling uri version found) := by
  have kept : SameTexts a (a.update uri fun d =>
      { d with compilerAvailable := found.isSome, compiled := found.map fun ds => ⟨version, ds⟩ }) :=
    update_sameTexts a uri (fun _ => rfl) (fun _ => rfl)
  have completed := kept.trans (moveTo_sameTexts _ uri .compileComplete)
  exact completed.trans
    ((publish_sameTexts _ uri version _).trans (moveTo_sameTexts _ uri .indexed))

theorem wake_sameTexts (a : Analysis) (number : Nat) : SameTexts a (a.wake number) := by
  unfold wake
  split
  · exact .refl a
  · rename_i p _
    split
    · exact .refl a
    · have rest : SameTexts a { a with passes := a.passes.filter (·.number != number) } :=
        ⟨rfl, rfl, rfl, fun _ => rfl⟩
      dsimp only
      split
      · split
        · exact rest.trans (startCompiling_sameTexts _ number p.uri p.version)
        · exact rest.trans (finishCompiling_sameTexts _ p.uri p.version _)
      · exact rest

theorem Begins.version? {uri : String} {version : Option Int} (started : Begins a b uri version)
    (other : String) : b.version? other = if other = uri then some version
    else a.version? other := by
  split
  · rename_i same
    obtain ⟨d, opened, version_eq, _⟩ := started.here
    rw [Analysis.version?, same, opened, Option.map_some, version_eq]
  · rename_i ne
    rw [Analysis.version?, Analysis.version?, started.others other ne]

/-- The version of a document that is compiled again is the one that it has. -/
theorem compile_sameTexts (a : Analysis) (uri : String) : SameTexts a (a.compile uri) := by
  rcases compile_cases a uri with ⟨_, same⟩ | ⟨d, m, opened, started, same⟩
  · rw [same]
    exact .refl a
  · have again : SameTexts a m := by
      refine ⟨started.snapshot, started.frame.catalog, started.frame.nextOrder, fun other => ?_⟩
      rw [started.version?]
      split
      · rename_i here
        rw [version?, here, opened]
        rfl
      · rfl
    rw [same]
    exact again.trans
      ((moveTo_sameTexts m uri .indexed).trans (startCompiling_sameTexts _ _ uri d.version))

/-- The analysis has the copy of the editor: its version is that of the open
document, and its text was indexed for the snapshot. Without such a copy, all
that is known of the document comes from disk and has no version. -/
structure Tracks (a : Analysis) (uri : String) (copy : Option EditorCopy) : Prop where
  held : ∀ e, copy = some e → a.version? uri = some (some e.version) ∧
    ∃ x, a.snapshot.document? uri = some x ∧
    x = (Document.ofText uri (some e.version) e.text).index a.catalog x.order
  free : copy = none → (∀ v, a.version? uri = some v → v = none) ∧
    ∀ x ∈ a.snapshot.indexes, x.uri = uri → x.document.version = none

variable {uri : String} {copy : Option EditorCopy}

theorem Tracks.same (h : a.Tracks uri copy) (h' : SameTexts a b) : b.Tracks uri copy := by
  refine ⟨?_, ?_⟩
  · rw [h'.snapshot, h'.versions, h'.catalog]
    exact h.held
  · rw [h'.snapshot, h'.versions]
    exact h.free

theorem Tracks.isOpen (h : a.Tracks uri copy) {e : EditorCopy} (held : copy = some e) :
    a.isOpen uri = true := by
  obtain ⟨d, opened, _⟩ := Option.map_eq_some_iff.mp (h.held e held).1
  exact (isOpen_iff a uri).mpr ⟨d, opened⟩

/-- The editor's documents are not free to change when files are read. -/
theorem Tracks.replaced (h : a.Tracks uri copy) {n nextOrder : Nat} {s : Snapshot}
    (changed : Option String) (replaces : a.Replaces (a.isOpen · = false) n s) :
    (({ a with nextOrder } : Analysis).replaceSnapshot changed s).Tracks uri copy := by
  have shown : ({ a with nextOrder, snapshot := s } : Analysis).Tracks uri copy := by
    refine ⟨fun e held => ⟨(h.held e held).1, ?_⟩, fun none_held =>
      ⟨(h.free none_held).1, fun x member at_uri => ?_⟩⟩
    · obtain ⟨x, in_snapshot, indexed⟩ := (h.held e held).2
      have bound : ¬ a.isOpen uri = false := by rw [h.isOpen held]; exact nofun
      exact ⟨x, (replaces.document? bound).trans in_snapshot, indexed⟩
    · rcases replaces.origin member with old | from_disk
      · exact (h.free none_held).2 x old at_uri
      · exact from_disk.version
  exact shown.same (replaceSnapshot_sameTexts { a with nextOrder } changed s)

/-- A pass that has started has put a text into the snapshot. With a version
it is a text of the editor. -/
theorem Starts.tracks_commit {m : Analysis} {version : Option Int}
    (started : Starts a m uri version) (text : List Char) (order nextOrder : Nat) :
    (({ m with nextOrder } : Analysis).commit
      ((Document.ofText uri version text).index a.catalog order)).Tracks uri
        (version.map (⟨·, text⟩)) := by
  let x := (Document.ofText uri version text).index a.catalog order
  have here := (started.version? uri).trans (if_pos rfl)
  have placed : ({ m with nextOrder, snapshot := m.snapshot.withDocument x } : Analysis).Tracks uri
      (version.map (⟨·, text⟩)) := by
    refine ⟨fun e held => ?_, fun none_held => ⟨fun v at_uri => ?_, fun y member at_uri => ?_⟩⟩
    · obtain ⟨v, rfl, rfl⟩ := Option.map_eq_some_iff.mp held
      refine ⟨here, x, (m.snapshot.withDocument_document? x uri).trans (if_pos rfl), ?_⟩
      dsimp only
      rw [started.frame.catalog]
      rfl
    · rw [← Option.some.inj (here.symm.trans at_uri)]
      exact Option.map_eq_none_iff.mp none_held
    · rcases List.mem_append.mp member with old | new
      · have other : (y.uri != uri) = true := (List.mem_filter.mp old).2
        rw [at_uri, bne_self_eq_false] at other
        cases other
      · rw [List.mem_singleton.mp new]
        exact Option.map_eq_none_iff.mp none_held
  exact placed.same (commit_sameTexts { m with nextOrder } x)

/-- A pass over the version that is there changes nothing about the copy. -/
theorem Starts.tracks_again {m : Analysis} {version : Option Int} (h : a.Tracks uri copy)
    (started : Starts a m uri version) (again : version = copy.map (·.version)) :
    m.Tracks uri copy := by
  have here := (started.version? uri).trans (if_pos rfl)
  refine ⟨fun e held => ?_, fun none_held => ⟨fun v at_uri => ?_, ?_⟩⟩
  · rw [started.snapshot, started.frame.catalog, here, again, held]
    exact ⟨rfl, (h.held e held).2⟩
  · rw [← Option.some.inj (here.symm.trans at_uri), again, none_held]
    rfl
  · rw [started.snapshot]
    exact (h.free none_held).2

/-- A pass over another document leaves this one as it was. -/
theorem Starts.tracks_other {m : Analysis} {other : String} {version : Option Int}
    (h : a.Tracks uri copy)
    (started : Starts a m other version) (ne : uri ≠ other) : m.Tracks uri copy := by
  have same := (started.version? uri).trans (if_neg ne)
  refine ⟨?_, ?_⟩
  · rw [started.snapshot, same, started.frame.catalog]
    exact h.held
  · rw [started.snapshot, same]
    exact h.free

/-- Another document comes into the snapshot, whatever its version. -/
theorem Tracks.commit_other (h : a.Tracks uri copy) {x : DocumentIndex} {other : String}
    (ne : uri ≠ other)
    (at_other : x.uri = other) (nextOrder : Nat) :
    (({ a with nextOrder } : Analysis).commit x).Tracks uri copy := by
  rw [← at_other] at ne
  have same := (a.snapshot.withDocument_document? x uri).trans (if_neg ne)
  have placed :
      ({ a with nextOrder, snapshot := a.snapshot.withDocument x } : Analysis).Tracks uri copy := by
    refine ⟨fun e held => ⟨(h.held e held).1, ?_⟩, fun none_held => ⟨(h.free none_held).1, ?_⟩⟩
    · obtain ⟨y, in_snapshot, indexed⟩ := (h.held e held).2
      exact ⟨y, same.trans in_snapshot, indexed⟩
    · intro y member at_uri
      rcases Snapshot.withDocuments_mem member with old | new
      · exact (h.free none_held).2 y old at_uri
      · exact absurd (List.mem_singleton.mp new ▸ at_uri).symm ne
  exact placed.same (commit_sameTexts { a with nextOrder } x)

theorem Tracks.shown_version (h : a.Tracks uri copy) {x : DocumentIndex}
    (in_snapshot : a.snapshot.document? uri = some x) :
    x.document.version = copy.map (·.version) := by
  cases copy with
  | none =>
    obtain ⟨member, at_uri⟩ := Snapshot.mem_of_document? in_snapshot
    exact (h.free rfl).2 x member at_uri
  | some e =>
    obtain ⟨y, found, indexed⟩ := (h.held e rfl).2
    rw [Option.some.inj (in_snapshot.symm.trans found), indexed]
    rfl

/-- The version of a document that the editor does not hold is no obstacle. -/
theorem Tracks.acceptsChange (h : a.Tracks uri copy) (version : Int) :
    a.acceptsChange uri version = copy.all (·.version < version) := by
  unfold Analysis.acceptsChange
  cases opened : a.open? uri with
  | none =>
    cases copy with
    | none => rfl
    | some e =>
      have closed := (h.held e rfl).1
      rw [version?, opened] at closed
      cases closed
  | some d =>
    have at_uri : a.version? uri = some d.version := by rw [version?, opened]; rfl
    rw [Option.getD_some]
    unfold OpenDocument.accepts
    cases copy with
    | none =>
      rw [(h.free rfl).1 _ at_uri]
      rfl
    | some e =>
      rw [Option.some.inj (at_uri.symm.trans (h.held e rfl).1)]
      simp only [Bool.and_false, Bool.or_false, Option.all_some]

/-! ### What each action does to the copies -/

theorem Tracks.change (h : a.Tracks uri copy) (other : String) (version : Int) (text : List Char) :
    (a.change other version text).Tracks uri
      (EditorCopy.after uri copy (.change other version text)) := by
  unfold EditorCopy.after
  dsimp only
  rcases change_cases a other version text
    with ⟨refused, same⟩ | ⟨m, order, nextOrder, accepted, started, _, same⟩
  · have stays : ¬ (other = uri ∧ copy.all (·.version < version) = true) := by
      rintro ⟨rfl, newer⟩
      rw [h.acceptsChange, newer] at refused
      cases refused
    rw [same, if_neg stays]
    exact h
  · rw [same]
    refine Tracks.same ?_ (schedule_sameTexts _ _ other (some version) false)
    by_cases here : other = uri
    · subst here
      rw [h.acceptsChange] at accepted
      rw [if_pos ⟨rfl, accepted⟩]
      exact started.tracks_commit text order nextOrder
    · rw [if_neg fun both => here both.1]
      exact (started.tracks_other h (Ne.symm here)).commit_other (Ne.symm here) rfl nextOrder

theorem Tracks.save (h : a.Tracks uri copy) (sound : a.Sound) (other : String)
    (text : Option (List Char)) :
    (a.save other text).Tracks uri (EditorCopy.after uri copy (.save other text)) := by
  rcases save_cases sound other text
    with ⟨absent, same⟩ | ⟨current, m, b, in_snapshot, started, same, saved⟩
  · -- what is not in the snapshot is not held either
    have none_held : other = uri → copy = none := by
      rintro rfl
      cases copy with
      | none => rfl
      | some e =>
        obtain ⟨x, found, _⟩ := (h.held e rfl).2
        rw [absent] at found
        cases found
    have stays : EditorCopy.after uri copy (.save other text) = copy := by
      cases text with
      | none => rfl
      | some t =>
        unfold EditorCopy.after
        dsimp only
        split
        · rename_i here
          rw [none_held here]
          rfl
        · rfl
    rw [same, stays]
    exact h
  · rw [same]
    refine Tracks.same ?_ (schedule_sameTexts b _ other current.document.version true)
    by_cases here : other = uri
    · subst here
      have version := h.shown_version in_snapshot
      rcases saved with ⟨rfl, unchanged⟩ | ⟨t, some_text, rfl⟩
      · have stays : EditorCopy.after other copy (.save other text) = copy := by
          cases text with
          | none => rfl
          | some t =>
            cases copy with
            | none => exact if_pos rfl
            | some e =>
              obtain ⟨x, found, indexed⟩ := (h.held e rfl).2
              have same_text : t = e.text := by
                rw [unchanged t rfl, Option.some.inj (in_snapshot.symm.trans found), indexed]
                rfl
              rw [same_text]
              exact if_pos rfl
        rw [stays]
        exact (started.tracks_again h version).same (moveTo_sameTexts m other .indexed)
      · have now : EditorCopy.after other copy (.save other text) =
            current.document.version.map (⟨·, t⟩) := by
          rw [version, Option.mem_def.mp some_text, Option.map_map]
          exact if_pos rfl
        rw [now]
        exact started.tracks_commit t current.order m.nextOrder
    · have stays : EditorCopy.after uri copy (.save other text) = copy := by
        cases text with
        | none => rfl
        | some t => exact if_neg here
      have others := started.tracks_other h (Ne.symm here)
      rw [stays]
      rcases saved with ⟨rfl, _⟩ | ⟨t, _, rfl⟩
      · exact others.same (moveTo_sameTexts m other .indexed)
      · exact others.commit_other (Ne.symm here) rfl m.nextOrder

theorem Tracks.close (h : a.Tracks uri copy) (disk : Disk) (other : String) :
    (a.close disk other).Tracks uri (EditorCopy.after uri copy (.close other)) := by
  obtain ⟨nextOrder, s, replaces, from_disk, same⟩ := close_cases a disk other
  have versions : ∀ at_uri,
      ({ a with opened := a.opened.filter (·.uri != other) } : Analysis).version? at_uri =
      if at_uri = other then none else a.version? at_uri := by
    intro at_uri
    rw [version?, close_open?]
    split
    · rfl
    · rfl
  have placed : ({ a with opened := a.opened.filter (·.uri != other), nextOrder, snapshot := s } :
      Analysis).Tracks uri (EditorCopy.after uri copy (.close other)) := by
    unfold EditorCopy.after
    dsimp only
    split
    · rename_i here
      subst here
      refine ⟨nofun,
        fun _ => ⟨fun v at_uri => ?_, fun x member at_uri => (from_disk x member at_uri).version⟩⟩
      have closed := (versions other).symm.trans at_uri
      rw [if_pos rfl] at closed
      cases closed
    · rename_i elsewhere
      have open_left := (versions uri).trans (if_neg (Ne.symm elsewhere))
      refine ⟨fun e held => ⟨open_left.trans (h.held e held).1, ?_⟩,
        fun none_held => ⟨fun v at_uri => (h.free none_held).1 v (open_left.symm.trans at_uri), ?_⟩⟩
      · obtain ⟨x, in_snapshot, indexed⟩ := (h.held e held).2
        exact ⟨x, (replaces.document? (Ne.symm elsewhere)).trans in_snapshot, indexed⟩
      · intro x member at_uri
        rcases replaces.origin member with old | new
        · exact (h.free none_held).2 x old at_uri
        · exact new.version
  rw [same]
  have recorded :
      ({ ({ a with opened := a.opened.filter (·.uri != other), nextOrder } : Analysis).record
      (.published (.withdrawal other)) with snapshot := s } : Analysis).Tracks uri _ :=
    ⟨placed.held, placed.free⟩
  exact recorded.same (replaceSnapshot_sameTexts _ (some other) s)

theorem Tracks.watched (h : a.Tracks uri copy) (disk : Disk)
    (changes : List (String × FileChange)) :
    (a.watched disk changes).Tracks uri copy := by
  have one : ∀ (b : Analysis) change, b.Tracks uri copy →
      (b.fileChanged disk change).Tracks uri copy := by
    intro b change tracks
    rcases fileChanged_cases b disk change with same | ⟨nextOrder, s, replaces, same⟩
    · rw [same]
      exact tracks
    · rw [same]
      exact tracks.replaced none replaces
  have all : ∀ (changes : List (String × FileChange)) (b : Analysis), b.Tracks uri copy →
      (changes.foldl (fileChanged disk) b).Tracks uri copy := by
    intro changes
    induction changes with
    | nil => exact fun _ tracks => tracks
    | cons change rest ih => exact fun b tracks => ih _ (one b change tracks)
  unfold Analysis.watched
  split
  · exact all changes a h
  · exact h

/-- What the analysis holds follows the editor through every step. -/
theorem Tracks.after (h : a.Tracks uri copy) (sound : a.Sound) (s : Step) :
    (a.after s).Tracks uri (EditorCopy.after uri copy s.action) := by
  unfold Analysis.after
  cases action : s.action with
  | change other version text => exact h.change other version text
  | save other text => exact h.save sound other text
  | close other => exact h.close s.disk other
  | compile other => exact h.same (compile_sameTexts a other)
  | compileAll => exact h.same (.foldl compile_sameTexts _ a)
  | configure _ => exact h.same ⟨rfl, rfl, rfl, fun _ => rfl⟩
  | useCompiler _ => exact h.same ⟨rfl, rfl, rfl, fun _ => rfl⟩
  | cache folder =>
    obtain ⟨nextOrder, t, replaces, same⟩ := cache_cases a s.disk folder
    show (a.cache s.disk folder).Tracks uri copy
    rw [same]
    exact h.replaced none replaces
  | clearCache =>
    obtain ⟨t, replaces, same⟩ := clearCache_cases a
    show a.clearCache.Tracks uri copy
    rw [same]
    exact h.replaced none replaces
  | watched changes => exact h.watched s.disk changes
  | tick _ => exact h.same ⟨rfl, rfl, rfl, fun _ => rfl⟩
  | wake number => exact h.same (wake_sameTexts a number)

theorem start_tracks (catalog : Catalog) (settings : Settings) (compiler : Option Compiler)
    (uri : String) :
    (start catalog settings compiler).Tracks uri none :=
  ⟨nofun, fun _ => ⟨nofun, nofun⟩⟩

theorem run_tracks (h : a.Tracks uri copy) (sound : a.Sound) (steps : List Step) :
    (a.run steps).Tracks uri
      (steps.foldl (fun held s => EditorCopy.after uri held s.action) copy) := by
  induction steps generalizing a copy with
  | nil => exact h
  | cons s rest ih => exact ih (h.after sound s) (after_outcome sound s).sound

end Analysis

end RuleDesk
