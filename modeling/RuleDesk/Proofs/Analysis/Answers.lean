import Mathlib.Data.List.Induction
import RuleDesk.Proofs.Analysis.Turns

namespace RuleDesk

/-- Diagnostics were found in a text of a document, under a version, if they
are those of an answer that is known to be about it. -/
def FoundIn (known : Document → CompilerAnswer → Prop) (uri : String) (version : Option Int)
    (text : List Char) (found : List Diagnostic) : Prop :=
  ∃ document answer, known document answer ∧ document.uri = uri ∧ document.version = version ∧
    document.text = text ∧ answer.diagnostics? document = some found

theorem FoundIn.imp {known known' : Document → CompilerAnswer → Prop} {uri : String}
    {version : Option Int}
    {text : List Char} {found : List Diagnostic} (h : FoundIn known uri version text found)
    (imp : ∀ document answer, known document answer → known' document answer) :
    FoundIn known' uri version text found := by
  obtain ⟨document, answer, given, rest⟩ := h
  exact ⟨document, answer, imp document answer given, rest⟩

namespace Analysis

/-- True of an action that ends the compilation of a document, whatever the
answer to it is. -/
def Completes (a : Analysis) (uri : String) (action : Action) (document : Document)
    (answer : CompilerAnswer) : Prop :=
  ∃ p, a.Wakes action p ∧ p.uri = uri ∧ p.stage = .compiling document answer

/-- True of a save with a new text while there is a result for the version
that the document keeps. -/
def Outdates (a : Analysis) (uri : String) (action : Action) : Prop :=
  ∃ x text, action = .save uri (some text) ∧ a.snapshot.document? uri = some x ∧
    x.document.text ≠ text ∧ a.HasResult uri

/-- In the end of some steps the result for a document is about an old text:
it was saved with a new one, and no compilation has ended since. -/
inductive Outdated (a : Analysis) (uri : String) : List Step → Prop
  | saved {before : List Step} {s : Step} (outdates : (a.run before).Outdates uri s.action) :
      Outdated a uri (before ++ [s])
  | stays {before : List Step} {s : Step} (outdated : Outdated a uri before)
      (none_ends : ∀ document answer, ¬ (a.run before).Completes uri s.action document answer) :
      Outdated a uri (before ++ [s])

/-- In one of some steps a document was handed to the compiler, which said this. -/
def Answered (a : Analysis) (steps : List Step) (document : Document)
    (answer : CompilerAnswer) : Prop :=
  ∃ before s later, steps = before ++ s :: later ∧
    Hands (a.run before) (a.run (before ++ [s])) document answer

/-- The diagnostics of the compiler that are kept for the version of a document
were found in a text of this version. Unless it is `outdated`, that is its text. -/
def Kept (known : Document → CompilerAnswer → Prop) (outdated : Prop) (uri : String)
    (d : OpenDocument) (x : DocumentIndex) : Prop :=
  d.compiledFor d.version = [] ∨
    ∃ text, FoundIn known uri d.version text (d.compiledFor d.version) ∧
      (¬ outdated → text = x.document.text)

/-- What is kept of the compiler's answers is in place, and the answers that
are waited for are about the documents as they are. -/
structure Fresh (a : Analysis) (uri : String) (known : Document → CompilerAnswer → Prop)
    (outdated : Prop) : Prop where
  result : ∀ d, a.open? uri = some d → ∃ x, a.snapshot.document? uri = some x ∧
    x.document.version = d.version ∧ Kept known outdated uri d x
  inHand : ∀ p document answer, p ∈ a.pending uri → p.stage = .compiling document answer →
    known document answer ∧ ∃ x, a.snapshot.document? uri = some x ∧ x.document = document

variable {a b c m : Analysis} {uri : String} {d e : OpenDocument} {x : DocumentIndex}
  {action : Action}
  {known known' : Document → CompilerAnswer → Prop} {skipped starting outdated outdated' : Prop}

theorem Kept.imp (h : Kept known outdated uri d x)
    (more : ∀ document answer, known document answer → known' document answer)
    (later : outdated → outdated') :
    Kept known' outdated' uri d x := by
  rcases h with none_found | ⟨text, found, current⟩
  · exact Or.inl none_found
  · exact Or.inr ⟨text, found.imp more, fun fresh => current fun old => fresh (later old)⟩

theorem Kept.of_same {y : DocumentIndex} (h : Kept known outdated uri d x)
    (version : e.version = d.version) (results : e.compiledFor d.version = d.compiledFor d.version)
    (text : ¬ outdated → d.compiledFor d.version ≠ [] → y.document.text = x.document.text) :
    Kept known outdated uri e y := by
  unfold Kept
  rw [version, results]
  by_cases none_found : d.compiledFor d.version = []
  · exact Or.inl none_found
  · obtain ⟨t, found, current⟩ := h.resolve_left none_found
    exact Or.inr ⟨t, found, fun fresh => (current fresh).trans (text fresh none_found).symm⟩

theorem Fresh.imp (h : a.Fresh uri known outdated)
    (more : ∀ document answer, known document answer → known' document answer)
    (later : outdated → outdated') :
    a.Fresh uri known' outdated' := by
  refine ⟨fun d opened => ?_, fun p document answer pending stage => ?_⟩
  · obtain ⟨x, shown, version, kept⟩ := h.result d opened
    exact ⟨x, shown, version, kept.imp more later⟩
  · exact (h.inHand p document answer pending stage).imp_left (more document answer)

theorem Fresh.of_closed (closed : a.open? uri = none) : a.Fresh uri known outdated := by
  refine ⟨fun d opened => ?_, fun p document answer pending _ => ?_⟩
  · rw [closed] at opened
    cases opened
  · obtain ⟨_, rfl, current⟩ := mem_pending.mp pending
    rw [isCurrent_iff, lastPass?, closed] at current
    cases current

theorem isOpen_of_pending {p : Pass} (h : p ∈ a.pending uri) : a.isOpen uri = true := by
  obtain ⟨_, rfl, current⟩ := mem_pending.mp h
  obtain ⟨d, opened, _⟩ := Option.map_eq_some_iff.mp ((isCurrent_iff a p).mp current)
  exact isOpen_of_open opened

theorem Rests.fresh (same : Rests a b uri) (h : a.Fresh uri known outdated) :
    b.Fresh uri known outdated := by
  refine ⟨fun e opened => ?_, fun p document answer pending stage => ?_⟩
  · obtain ⟨d, before, progress⟩ := same.open? opened
    simp only [OpenDocument.progress, Prod.mk.injEq] at progress
    obtain ⟨version, compiled, _, _⟩ := progress
    obtain ⟨x, shown, at_version, kept⟩ := h.result d before
    refine ⟨x, (same.document (isOpen_of_open before)).trans shown, at_version.trans version, ?_⟩
    exact kept.of_same version.symm (OpenDocument.compiledFor_congr compiled.symm d.version)
      fun _ _ => rfl
  · rw [same.pending] at pending
    rw [same.document (isOpen_of_pending pending)]
    exact h.inHand p document answer pending stage

theorem Floor.fresh (floor : a.Floor uri d x) (version : x.document.version = d.version)
    (kept : Kept known outdated uri d x) : a.Fresh uri known outdated := by
  refine ⟨fun e opened => ?_, fun p document answer pending _ => ?_⟩
  · rw [← Option.some.inj (floor.opened.symm.trans opened)]
    exact ⟨x, floor.shown, version, kept⟩
  · rw [floor.idle] at pending
    cases pending

/-- A document that goes on is handed to the compiler as it is. -/
theorem Onward.fresh (h : Onward a b uri d x skipped) (floor : a.Floor uri d x)
    (version : x.document.version = d.version) (kept : Kept known outdated uri d x) :
    b.Fresh uri (fun document answer => known document answer ∨ Hands a b document answer)
      outdated := by
  cases h with
  | ends _ same => exact (same.fresh (floor.fresh version kept)).imp (fun _ _ => Or.inl) id
  | waits opened shown queued waiting _ =>
    refine ⟨fun e opened' => ?_, fun p document answer pending stage => ?_⟩
    · rw [← Option.some.inj (opened.symm.trans opened')]
      exact ⟨x, shown, version, kept.imp (fun _ _ => Or.inl) id⟩
    · rw [queued] at pending
      rw [List.mem_singleton.mp pending, waiting] at stage
      cases stage
  | compiles opened shown queued compiling handed _ =>
    refine ⟨fun e opened' => ?_, fun p document answer pending stage => ?_⟩
    · rw [← Option.some.inj (opened.symm.trans opened')]
      exact ⟨x, shown, version, (kept.imp (fun _ _ => Or.inl) id).of_same rfl rfl fun _ _ => rfl⟩
    · rw [queued] at pending
      rw [List.mem_singleton.mp pending, compiling] at stage
      obtain ⟨rfl, rfl⟩ := Stage.compiling.inj stage
      exact ⟨Or.inr handed, x, shown, rfl⟩

/-- The document of a pass that starts now keeps a result only if the text is
the one that it was about, or if this outdates it. -/
theorem Takes.kept (takes : a.Takes uri x action) (h : a.Fresh uri known outdated)
    (version : x.document.version = d.version)
    (results : d.compiled = ((a.open? uri).getD (.unanalyzed uri)).compiled) :
    Kept known (a.Outdates uri action ∨ outdated) uri d x := by
  have same := OpenDocument.compiledFor_congr results
  cases opened : a.open? uri with
  | none =>
    rw [opened] at same
    exact Or.inl (same d.version)
  | some e =>
    rw [opened, Option.getD_some] at same
    obtain ⟨y, shown, e_version, kept⟩ := h.result e opened
    have again : a.snapshot.document? uri = some x →
        Kept known (a.Outdates uri action ∨ outdated) uri d x := by
      intro before
      obtain rfl := Option.some.inj (shown.symm.trans before)
      have d_version : d.version = e.version := version.symm.trans e_version
      exact (kept.imp (fun _ _ => id) Or.inr).of_same d_version (same e.version) fun _ _ => rfl
    cases takes with
    | newer taken uncompiled =>
      rw [opened, Option.getD_some] at uncompiled
      have new : d.version = some _ := version.symm.trans (congrArg Document.version taken)
      exact Or.inl ((same d.version).trans (new ▸ uncompiled))
    | @saved z text before taken =>
      obtain rfl := Option.some.inj (shown.symm.trans before)
      have d_version : d.version = e.version :=
        version.symm.trans ((congrArg Document.version taken).trans e_version)
      refine (kept.imp (fun _ _ => id) Or.inr).of_same d_version (same e.version)
        fun fresh found => ?_
      -- if the text were another one, this save would outdate what is kept
      have stays : y.document.text = text := Classical.byContradiction fun ne =>
        fresh (Or.inl ⟨y, text, rfl, shown, ne, e, opened, found⟩)
      rw [taken, stays]
      rfl
    | unchanged before => exact again before
    | again _ before => exact again before

theorem Onward.moves (h : Onward a b uri d x skipped) : ∃ made, Moves a b uri made := by
  cases h with
  | ends _ same => exact ⟨_, same.moves⟩
  | waits _ _ _ _ moves => exact ⟨_, moves⟩
  | compiles _ _ _ _ _ moves => exact ⟨_, moves⟩

theorem Turn.moves (turn : Turn a action uri starting b) : ∃ made, Moves a b uri made := by
  cases turn with
  | rests _ _ same => exact ⟨_, same.moves⟩
  | closes _ _ _ moves => exact ⟨_, moves⟩
  | begins _ _ enters onward =>
    obtain ⟨more, rest⟩ := onward.moves
    exact ⟨_, enters.moves.trans rest⟩
  | continues _ _ _ _ _ _ _ _ moves onward =>
    obtain ⟨more, rest⟩ := onward.moves
    exact ⟨_, moves.trans rest⟩
  | finishes _ _ _ _ _ _ _ _ _ _ _ moves => exact ⟨_, moves⟩

theorem Turns.moves (turns : Turns action uri starting a b) : ∃ made, Moves a b uri made := by
  induction turns with
  | last turn => exact turn.moves
  | next _ turn _ _ ih =>
    obtain ⟨first, moves⟩ := turn.moves
    obtain ⟨rest, more⟩ := ih
    exact ⟨_, moves.trans more⟩

section Hands

variable {document : Document} {answer : CompilerAnswer} {made : List (Phase × Phase)}

theorem Hands.later (h : Hands a b document answer) (moves : Moves b c uri made) :
    Hands a c document answer := by
  obtain ⟨compiler, files, new, in_use, first, response, journal, handed⟩ := h
  obtain ⟨more, journal', _⟩ := moves
  exact ⟨compiler, files, more ++ new, in_use, first,
    response, by rw [journal', journal, List.append_assoc], List.mem_append_right more handed⟩

theorem Hands.earlier (h : Hands b c document answer) (compiler : b.compiler = a.compiler)
    (moves : Moves a b uri made) : Hands a c document answer := by
  obtain ⟨c, files, new, in_use, first, response, journal, handed⟩ := h
  obtain ⟨more, journal', _⟩ := moves
  exact ⟨c, files, new ++ more, compiler.symm.trans in_use, first, response,
    by rw [journal, journal', List.append_assoc], List.mem_append_left more handed⟩

end Hands

/-- What a part of a step does to the answers of the compiler. -/
theorem Turn.fresh (turn : Turn a action uri starting b) (h : a.Fresh uri known outdated) :
    b.Fresh uri (fun document answer => known document answer ∨ Hands a b document answer)
      (a.Outdates uri action ∨
        (outdated ∧ ∀ document answer, ¬ a.Completes uri action document answer)) := by
  cases turn with
  | rests _ none_wakes same =>
    refine (same.fresh h).imp (fun _ _ => Or.inl) fun old => Or.inr ⟨old, ?_⟩
    rintro _ _ ⟨p, due, here, _⟩
    exact none_wakes p due here
  | closes _ _ closed _ => exact .of_closed closed
  | begins _ takes enters onward =>
    have fresh :=
      onward.fresh enters.floor enters.version (takes.kept h enters.version enters.results)
    refine fresh.imp (fun _ _ => .imp_right fun handed =>
      handed.earlier enters.compiler enters.moves) fun old => ?_
    refine old.imp_right fun old => ⟨old, ?_⟩
    rintro _ _ ⟨p, due, _⟩
    cases takes with
    | newer _ _ => cases due.1
    | saved _ _ => cases due.1
    | unchanged _ => cases due.1
    | again command _ => rcases command with rfl | rfl <;> cases due.1
  | continues _ due here waiting opened shown floor compiler moves onward =>
    obtain ⟨y, shown', version, kept⟩ := h.result _ opened
    obtain rfl := Option.some.inj (shown.symm.trans shown')
    have fresh := onward.fresh floor version kept
    refine fresh.imp (fun _ _ => .imp_right fun handed => handed.earlier compiler moves) fun old =>
      Or.inr ⟨old, ?_⟩
    rintro _ _ ⟨q, due', _, stage⟩
    rw [due.unique due', stage] at waiting
    cases waiting
  | @finishes p d e document answer _ due here stage opened done version _ results idle shown _ =>
    -- what the compiler had in hand is still the document in the snapshot
    obtain ⟨given, x, in_snapshot, rfl⟩ := h.inHand p document answer (due.pending here) stage
    obtain ⟨y, in_snapshot', at_version, _⟩ := h.result d opened
    obtain rfl := Option.some.inj (in_snapshot.symm.trans in_snapshot')
    have at_uri : x.document.uri = uri := (Snapshot.mem_of_document? in_snapshot).2
    refine ⟨fun e' opened' => ?_, fun q document' answer' member _ => ?_⟩
    · obtain rfl := Option.some.inj (done.symm.trans opened')
      refine ⟨x, shown.trans in_snapshot, at_version.trans version.symm, ?_⟩
      cases answered : answer.diagnostics? x.document with
      | none =>
        rw [answered] at results
        exact Or.inl (OpenDocument.compiledFor_congr (e := .unanalyzed uri) results e.version)
      | some found =>
        rw [answered, ← version] at results
        have all_found : e.compiledFor e.version = found := by
          rw [OpenDocument.compiledFor, results]
          exact if_pos rfl
        refine Or.inr ⟨x.document.text, ?_, fun _ => rfl⟩
        rw [all_found]
        exact ⟨x.document, answer, Or.inl given, at_uri, at_version.trans version.symm,
          rfl, answered⟩
    · rw [idle] at member
      cases member

theorem Turns.fresh (turns : Turns action uri starting a b) (h : a.Fresh uri known outdated) :
    b.Fresh uri (fun document answer => known document answer ∨ Hands a b document answer)
      (a.Outdates uri action ∨
        (outdated ∧ ∀ document answer, ¬ a.Completes uri action document answer)) := by
  induction turns generalizing known outdated with
  | last turn => exact turn.fresh h
  | next all turn frame rest ih =>
    obtain ⟨_, first⟩ := turn.moves
    obtain ⟨_, later⟩ := rest.moves
    refine (ih (turn.fresh h)).imp (fun document answer given => ?_) fun old => ?_
    · rcases given with (known | handed) | handed
      · exact Or.inl known
      · exact Or.inr (handed.later later)
      · exact Or.inr (handed.earlier frame.compiler first)
    · rcases old with ⟨_, _, saves, _⟩ | old
      · rw [all] at saves
        cases saves
      · exact old.1

/-- Diagnostics that are shown as the compiler's were found by it in a text of
the version that is shown, and unless the document is outdated in its text. -/
def ShownFor (a : Analysis) (steps : List Step) (uri : String) (found : List Diagnostic) : Prop :=
  found = [] ∨ ∃ x text, (a.run steps).snapshot.document? uri = some x ∧
    FoundIn (a.Answered steps) uri x.document.version text found ∧
      (¬ a.Outdated uri steps → text = x.document.text)

/-- What of the compiler's diagnostics a request gets in any state, and what
of them any step publishes. -/
structure ShowsFound (a : Analysis) (uri : String) : Prop where
  pulled : ∀ (steps : List Step) (d : OpenDocument), (a.run steps).open? uri = some d →
    ∃ all, (a.run steps).diagnostics uri = .ok all ∧
        a.ShownFor steps uri (all.filter (·.origin == .compiler))
  pushed : ∀ (before : List Step) (s : Step), s.action ≠ .close uri →
    ∀ p ∈ publishedSince (a.run before) (a.run (before ++ [s])) uri,
        a.ShownFor (before ++ [s]) uri p.fromCompiler

theorem Answered.concat {before : List Step} {s : Step} {document : Document}
    {answer : CompilerAnswer}
    (h : a.Answered before document answer ∨
    Hands (a.run before) (a.run (before ++ [s])) document answer) :
    a.Answered (before ++ [s]) document answer := by
  rcases h with ⟨first, t, later, rfl, handed⟩ | handed
  · exact ⟨first, t, later ++ [s], by rw [List.append_assoc, List.cons_append], handed⟩
  · exact ⟨before, s, [], rfl, handed⟩

theorem Begun.fresh (h : a.Begun uri) (steps : List Step) :
    (a.run steps).Fresh uri (a.Answered steps) (a.Outdated uri steps) := by
  induction steps using List.reverseRecOn with
  | nil => exact .of_closed h.closed
  | append_singleton before s ih =>
    refine ((h.turns before s).fresh ih).imp (fun _ _ => Answered.concat) fun old => ?_
    exact old.elim .saved fun stays => .stays stays.1 stays.2

theorem Fresh.shownFor {steps : List Step}
    (h : (a.run steps).Fresh uri (a.Answered steps) (a.Outdated uri steps))
    (opened : (a.run steps).open? uri = some d) :
    a.ShownFor steps uri (d.compiledFor d.version) := by
  obtain ⟨x, shown, version, kept⟩ := h.result d opened
  refine kept.imp_right fun ⟨text, found, current⟩ => ⟨x, text, shown, ?_, current⟩
  rw [version]
  exact found

/-- The compiler's part of what a request gets is what is kept for the version. -/
theorem Fresh.diagnostics (h : a.Fresh uri known outdated) (sound : a.Sound)
    (opened : a.open? uri = some d) :
    ∃ all, a.diagnostics uri = .ok all ∧
      all.filter (·.origin == .compiler) = d.compiledFor d.version := by
  obtain ⟨x, shown, version, _⟩ := h.result d opened
  obtain ⟨found, diagnosed⟩ : ∃ found, a.snapshot.diagnostics uri = .ok found := by
    unfold Snapshot.diagnostics Snapshot.require
    rw [shown]
    exact ⟨_, rfl⟩
  have from_analysis := Snapshot.diagnostics_origin sound.found diagnosed
  refine ⟨found ++ d.compiledFor d.version, ?_,
    filter_compiler from_analysis (sound.compiledFor opened d.version)⟩
  unfold Analysis.diagnostics Snapshot.require
  rw [shown, diagnosed, opened]
  exact congrArg (fun v => Except.ok (found ++ d.compiledFor v)) version

/-- What is shown of the compiler's diagnostics was found in the version that
is shown, and in its text as long as this is not replaced under its version
by a save. -/
theorem start_shows_found (catalog : Catalog) (settings : Settings) (compiler : Option Compiler)
    (uri : String) :
    ShowsFound (start catalog settings compiler) uri := by
  have sound := run_sound (start_sound catalog settings compiler)
  have fresh := (start_begun catalog settings compiler uri).fresh
  refine ⟨fun steps d opened => ?_, fun before s stays p member => ?_⟩
  · obtain ⟨all, pulled, compiled⟩ := (fresh steps).diagnostics (sound steps) opened
    refine ⟨all, pulled, ?_⟩
    rw [compiled]
    exact (fresh steps).shownFor opened
  · obtain ⟨new, pubs, faithful⟩ := after_published (sound before) (closes?_ne stays)
    rw [run_concat, publishedSince_of_append pubs, List.mem_reverse] at member
    obtain ⟨mine, at_uri⟩ := List.mem_filter.mp member
    obtain ⟨⟨d, opened, version, part⟩, _⟩ := faithful p mine (beq_iff_eq.mp at_uri)
    rw [beq_iff_eq.mp at_uri, ← run_concat] at opened
    rcases part with none_shown | kept
    · exact Or.inl none_shown
    · rw [kept, ← version]
      exact (fresh (before ++ [s])).shownFor opened

end Analysis

end RuleDesk
