import Mathlib.Data.List.Induction
import RuleDesk.Proofs.Analysis.Turns

namespace RuleDesk

/-- The editor opened or changed a document in some steps, and has not closed
it since. -/
inductive EditedIn (uri : String) : List Step → Prop
  | changed {before : List Step} {s : Step} {version : Int} {text : List Char}
      (change : s.action = .change uri version text) : EditedIn uri (before ++ [s])
  | stays {before : List Step} {s : Step} (edited : EditedIn uri before)
      (left_open : s.action ≠ .close uri) :
      EditedIn uri (before ++ [s])

/-- What a report about a file makes of the document in the snapshot, if the
document is not open. A file that cannot be read changes nothing. -/
def Document.afterReport (disk : Disk) (uri : String) (shown : Option Document)
    (report : String × FileChange) :
    Option Document :=
  if report.1 = uri then
    match report.2 with
    | .created | .changed =>
      match disk.read? uri with
      | some text => some (.ofText uri none text)
      | none => shown
    | .deleted => none
    | .other => shown
  else shown

/-- What was edited and not closed since is what the editor holds. -/
theorem editedIn_iff {uri : String} {steps : List Step} :
    EditedIn uri steps ↔ (EditorCopy.ofSteps uri steps).isSome = true := by
  constructor
  · intro edited
    induction edited with
    | changed change =>
      rw [EditorCopy.ofSteps_concat, EditorCopy.after_isSome]
      exact Or.inl ⟨_, _, change⟩
    | stays _ left_open held =>
      rw [EditorCopy.ofSteps_concat, EditorCopy.after_isSome]
      exact Or.inr ⟨held, left_open⟩
  · intro held
    induction steps using List.reverseRecOn with
    | nil => cases held
    | append_singleton before s ih =>
      rw [EditorCopy.ofSteps_concat, EditorCopy.after_isSome] at held
      rcases held with ⟨_, _, change⟩ | ⟨held, left_open⟩
      · exact .changed change
      · exact .stays (ih held) left_open

namespace Snapshot

theorem withoutDocument_document? (s : Snapshot) (other uri : String) :
    (s.withoutDocument other).document? uri = if other = uri then none else s.document? uri := by
  split
  · rename_i here
    refine List.find?_eq_none.mpr fun x member at_uri => ?_
    have kept := (List.mem_filter.mp member).2
    rw [Bool.not_eq_true', beq_eq_false_iff_ne, here] at kept
    exact kept (beq_iff_eq.mp at_uri)
  · rename_i ne
    exact withoutDocuments_document? fun x at_uri => beq_false_of_ne (at_uri ▸ Ne.symm ne)

end Snapshot

namespace Analysis

/-- A document that was only in the snapshot was saved in some steps, and was
not closed since. It is taken for an open one. -/
inductive AdoptedIn (a : Analysis) (uri : String) : List Step → Prop
  | saved {before : List Step} {s : Step} {text : Option (List Char)}
      (save : s.action = .save uri text)
      (known : ((a.run before).snapshot.document? uri).isSome = true)
      (closed : (a.run before).isOpen uri = false) :
      AdoptedIn a uri (before ++ [s])
  | stays {before : List Step} {s : Step} (adopted : AdoptedIn a uri before)
      (left_open : s.action ≠ .close uri) :
      AdoptedIn a uri (before ++ [s])

variable {a b m : Analysis} {uri : String} {d : OpenDocument} {x : DocumentIndex} {action : Action}
  {skipped starting : Prop}

theorem Onward.isOpen (h : Onward a b uri d x skipped) (floor : a.Floor uri d x) :
    b.isOpen uri = true := by
  cases h with
  | ends _ same => exact same.isOpen.trans (isOpen_of_open floor.opened)
  | waits opened _ _ _ _ => exact isOpen_of_open opened
  | compiles opened _ _ _ _ _ => exact isOpen_of_open opened

theorem Turn.isOpen (turn : Turn a action uri starting b) (left_open : action ≠ .close uri) :
    b.isOpen uri = true ↔ starting ∨ a.isOpen uri = true := by
  cases turn with
  | rests none_starts _ same =>
    rw [same.isOpen]
    exact ⟨Or.inr, fun either => either.resolve_left none_starts⟩
  | closes _ own _ _ => exact absurd own left_open
  | begins starts _ enters onward =>
    exact ⟨fun _ => Or.inl starts, fun _ => onward.isOpen enters.floor⟩
  | continues _ _ _ _ opened _ floor _ _ onward =>
    exact ⟨fun _ => Or.inr (isOpen_of_open opened), fun _ => onward.isOpen floor⟩
  | finishes _ _ _ _ opened done _ _ _ _ _ _ =>
    exact ⟨fun _ => Or.inr (isOpen_of_open opened), fun _ => isOpen_of_open done⟩

theorem Turns.isOpen (turns : Turns action uri starting a b) (left_open : action ≠ .close uri) :
    b.isOpen uri = true ↔ starting ∨ a.isOpen uri = true := by
  induction turns with
  | last turn => exact turn.isOpen left_open
  | next _ turn _ _ ih => rw [ih, turn.isOpen left_open, or_left_comm, or_assoc]

/-- Passes are started for documents that are open, edited or saved. -/
theorem startsPass_cases (h : a.startsPass uri action = true) :
    (∃ version text, action = .change uri version text) ∨
    (∃ text, action = .save uri text ∧ (a.snapshot.document? uri).isSome = true) ∨
      a.isOpen uri = true := by
  cases action with
  | change other version text =>
    obtain ⟨here, _⟩ := Bool.and_eq_true_iff.mp h
    exact Or.inl ⟨version, text, beq_iff_eq.mp here ▸ rfl⟩
  | save other text =>
    obtain ⟨here, known⟩ := Bool.and_eq_true_iff.mp h
    cases beq_iff_eq.mp here
    exact Or.inr (Or.inl ⟨text, rfl, known⟩)
  | compile other =>
    obtain ⟨here, opened⟩ := Bool.and_eq_true_iff.mp h
    exact Or.inr (Or.inr (beq_iff_eq.mp here ▸ opened))
  | compileAll => exact Or.inr (Or.inr h)
  | _ => cases h

/-! ### Files on disk -/

theorem clearCache_document? (a : Analysis) (uri : String) :
    a.clearCache.snapshot.document? uri = if a.isOpen uri = true then a.snapshot.document? uri
      else none := by
  unfold clearCache
  rw [(replaceSnapshot_sameTexts a none _).snapshot]
  split
  · rename_i opened
    exact Snapshot.withoutDocuments_document? fun x here => by rw [here, opened]; rfl
  · rename_i closed
    refine List.find?_eq_none.mpr fun x member here => closed ?_
    have kept := (List.mem_filter.mp member).2
    rw [Bool.not_not] at kept
    exact beq_iff_eq.mp here ▸ kept

/-- What is read takes the place of the document of its URI. -/
theorem readFile_document? (a : Analysis) (disk : Disk) (other uri : String) :
    ((match a.readFile disk other with
      | (some x, b) => b.replaceSnapshot none (b.snapshot.withDocument x)
      | (none, b) => b : Analysis).snapshot.document? uri).map (·.document) =
      Document.afterReport disk uri ((a.snapshot.document? uri).map (·.document))
        (other, .changed) := by
  obtain ⟨⟨nextOrder, rest⟩, _⟩ := readFile_spec a disk other
  unfold Document.afterReport
  dsimp only
  cases read : disk.read? other with
  | none =>
    have none_read : a.readFile disk other = (none, a) := by
      unfold readFile
      rw [read]
    rw [none_read]
    by_cases here : other = uri
    · rw [if_pos here, ← here, read]
    · rw [if_neg here]
  | some text =>
    obtain ⟨x, from_file, first⟩ : ∃ x, x.document = .ofText other none text ∧
        (a.readFile disk other).1 = some x := by
      unfold readFile
      rw [read]
      exact ⟨_, rfl, rfl⟩
    have at_other : x.uri = other := congrArg Document.uri from_file
    have some_read : a.readFile disk other = (some x, { a with nextOrder }) := Prod.ext first rest
    rw [some_read]
    dsimp only
    rw [(replaceSnapshot_sameTexts { a with nextOrder } none _).snapshot]
    dsimp only
    rw [Snapshot.withDocument_document?, at_other]
    by_cases here : other = uri
    · rw [if_pos here.symm, if_pos here, ← here, read, Option.map_some, from_file]
    · rw [if_neg (Ne.symm here), if_neg here]

/-- A report about a file is followed if its document is not open. -/
theorem fileChanged_document? (disk : Disk) (report : String × FileChange)
    (closed : a.isOpen uri = false) :
    ((a.fileChanged disk report).snapshot.document? uri).map (·.document) =
      Document.afterReport disk uri ((a.snapshot.document? uri).map (·.document)) report := by
  obtain ⟨other, kind⟩ := report
  unfold fileChanged
  dsimp only
  split
  · rename_i opened
    have ne : other ≠ uri := fun here => Bool.false_ne_true (closed.symm.trans (here ▸ opened))
    exact (if_neg ne).symm
  · cases kind with
    | created => exact readFile_document? a disk other uri
    | changed => exact readFile_document? a disk other uri
    | deleted =>
      dsimp only
      rw [(replaceSnapshot_sameTexts a none _).snapshot]
      dsimp only
      rw [Snapshot.withoutDocument_document?, Document.afterReport]
      split <;> rfl
    | other => exact (ite_self _).symm

theorem watched_document? (disk : Disk) (reports : List (String × FileChange))
    (caching : a.settings.cacheWorkspace = true) (closed : a.isOpen uri = false) :
    ((a.watched disk reports).snapshot.document? uri).map (·.document) =
      reports.foldl (Document.afterReport disk uri)
        ((a.snapshot.document? uri).map (·.document)) := by
  unfold watched
  rw [if_pos caching]
  clear caching
  induction reports generalizing a with
  | nil => rfl
  | cons report rest ih =>
    have still : (a.fileChanged disk report).isOpen uri = false :=
      (fileChanged_rests a disk report).isOpen.trans closed
    rw [List.foldl_cons, List.foldl_cons, ih still, fileChanged_document? disk report closed]

/-- Which documents are taken for open ones, and what that means for those
that are in the snapshot. -/
structure OpensEdited (a : Analysis) (uri : String) : Prop where
  opened : ∀ steps : List Step, (a.run steps).isOpen uri = true ↔ EditedIn uri steps ∨
      a.AdoptedIn uri steps
  shown : ∀ steps : List Step, (a.run steps).isOpen uri = true →
      ((a.run steps).snapshot.document? uri).isSome = true
  cleared : ∀ (before : List Step) (s : Step), s.action = .clearCache →
    (a.run (before ++ [s])).snapshot.document? uri =
    if (a.run before).isOpen uri = true then (a.run before).snapshot.document? uri else none
  watched : ∀ (before : List Step) (s : Step) (reports : List (String × FileChange)),
    s.action = .watched reports →
    (a.run before).settings.cacheWorkspace = true → (a.run before).isOpen uri = false →
      ((a.run (before ++ [s])).snapshot.document? uri).map (·.document) =
        reports.foldl (Document.afterReport s.disk uri)
            (((a.run before).snapshot.document? uri).map (·.document))

theorem Begun.isOpen_concat (h : a.Begun uri) (before : List Step) (s : Step) :
    (a.run (before ++ [s])).isOpen uri = true ↔ s.action ≠ .close uri ∧
      ((a.run before).startsPass uri s.action = true ∨ (a.run before).isOpen uri = true) := by
  by_cases closing : s.action = .close uri
  · have closed := (after_outcome (run_sound h.sound before) s).closed uri (by rw [closing]; rfl)
    refine ⟨fun opened => ?_, fun both => absurd closing both.1⟩
    rw [run_concat] at opened
    obtain ⟨d, found⟩ := (isOpen_iff _ uri).mp opened
    rw [truth_of_open found] at closed
    cases closed
  · rw [(h.turns before s).isOpen closing]
    exact ⟨fun either => ⟨closing, either⟩, And.right⟩

theorem Begun.isOpen_of_adopted (h : a.Begun uri) {steps : List Step}
    (adopted : a.AdoptedIn uri steps) :
    (a.run steps).isOpen uri = true := by
  induction adopted with
  | saved save known closed =>
    rw [h.isOpen_concat, save, startsPass, known, beq_self_eq_true]
    refine ⟨fun same => ?_, Or.inl rfl⟩
    cases same
  | stays _ left_open ih =>
    rw [h.isOpen_concat]
    exact ⟨left_open, Or.inr ih⟩

theorem Begun.edited_or_adopted (h : a.Begun uri) {steps : List Step}
    (opened : (a.run steps).isOpen uri = true) :
    EditedIn uri steps ∨ a.AdoptedIn uri steps := by
  induction steps using List.reverseRecOn with
  | nil =>
    obtain ⟨d, found⟩ := (isOpen_iff a uri).mp opened
    rw [h.closed] at found
    cases found
  | append_singleton before s ih =>
    obtain ⟨left_open, either⟩ := (h.isOpen_concat before s).mp opened
    have before_it : (a.run before).isOpen uri = true →
        EditedIn uri (before ++ [s]) ∨ a.AdoptedIn uri (before ++ [s]) :=
      fun opened => (ih opened).imp (.stays · left_open) (.stays · left_open)
    rcases either with starts | opened
    · rcases startsPass_cases starts with ⟨version, text, change⟩ | ⟨text, save, known⟩ | opened
      · exact Or.inl (.changed change)
      · cases opened : (a.run before).isOpen uri with
        | true => exact before_it opened
        | false => exact Or.inr (.saved save known opened)
      · exact before_it opened
    · exact before_it opened

/-- The open documents are those that were edited and not closed since, and
those that were saved while they were only in the snapshot. Only they stay
when the cache is cleared, and all others follow their files on disk. -/
theorem start_opens_edited (catalog : Catalog) (settings : Settings) (compiler : Option Compiler)
    (uri : String) :
    OpensEdited (start catalog settings compiler) uri := by
  have begun := start_begun catalog settings compiler uri
  refine ⟨fun steps => ⟨begun.edited_or_adopted, ?_⟩, fun steps opened => ?_,
    fun before s clearing => ?_, fun before s reports watching caching closed => ?_⟩
  · rintro (edited | adopted)
    · obtain ⟨copy, held⟩ := Option.isSome_iff_exists.mp (editedIn_iff.mp edited)
      exact (run_tracks begun.tracks begun.sound steps).isOpen held
    · exact begun.isOpen_of_adopted adopted
  · obtain ⟨d, found⟩ := (isOpen_iff _ uri).mp opened
    have shown := (run_sound begun.sound steps).shown uri d.version d.compiled (truth_of_open found)
    obtain ⟨x, in_snapshot, _⟩ := Option.map_eq_some_iff.mp shown
    rw [in_snapshot]
    rfl
  · rw [run_concat, after, clearing]
    exact clearCache_document? _ uri
  · rw [run_concat, after, watching]
    exact watched_document? s.disk reports caching closed

end Analysis

end RuleDesk
