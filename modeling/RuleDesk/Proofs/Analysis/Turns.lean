import RuleDesk.Proofs.Analysis.Quiet

namespace RuleDesk

/-- The phases that an event takes a document from and to. -/
def Event.move? (uri : String) : Event → Option (Phase × Phase)
  | moved other before after => if other = uri then some (before, after) else none
  | _ => none

/-- How far the analysis of an open document has come. -/
def OpenDocument.progress (d : OpenDocument) : Option Int × Option Compiled × Nat × Phase :=
  (d.version, d.compiled, d.pass, d.phase)

namespace Analysis

/-- The phase of an open document. Any other one was not analyzed yet. -/
def ownPhase (a : Analysis) (uri : String) : Phase := ((a.open? uri).getD (.unanalyzed uri)).phase

/-- The passes that are pending for a document, without those that were superseded. -/
def pending (a : Analysis) (uri : String) : List Pass :=
  a.passes.filter fun p => p.uri == uri && a.lastPass? uri == some p.number

/-- From `a` to `b` the journal grows. Those of its new events that are about
the phase of a document make `moves`, the oldest first. -/
def Moves (a b : Analysis) (uri : String) (moves : List (Phase × Phase)) : Prop :=
  ∃ new, b.journal = new ++ a.journal ∧ (new.filterMap (Event.move? uri)).reverse = moves

/-- A document is handed to the compiler that is in use, and the other files
come after it. This is what the compiler says. -/
def Hands (a b : Analysis) (document : Document) (answer : CompilerAnswer) : Prop :=
  ∃ c files new, a.compiler = some c ∧ files.head? = some ⟨document.uri, document.text⟩ ∧
    answer = c.compile files ∧ b.journal = new ++ a.journal ∧ .compiled files ∈ new

variable {a b c m : Analysis} {uri other : String} {version : Option Int} {d : OpenDocument}
    {x : DocumentIndex}

theorem mem_pending {p : Pass} :
    p ∈ a.pending uri ↔ p ∈ a.passes ∧ p.uri = uri ∧ a.isCurrent p = true := by
  rw [pending, List.mem_filter, Bool.and_eq_true, beq_iff_eq, beq_iff_eq, isCurrent_iff]
  constructor
  · rintro ⟨member, rfl, last⟩
    exact ⟨member, rfl, last⟩
  · rintro ⟨member, rfl, last⟩
    exact ⟨member, rfl, last⟩

theorem atRest_iff : a.AtRest uri ↔ a.pending uri = [] := by
  rw [List.eq_nil_iff_forall_not_mem]
  constructor
  · intro rest p member
    obtain ⟨inside, at_uri, current⟩ := mem_pending.mp member
    rw [rest p inside at_uri] at current
    cases current
  · intro none_pending p inside at_uri
    exact Bool.eq_false_iff.mpr fun current =>
      none_pending p (mem_pending.mpr ⟨inside, at_uri, current⟩)

theorem SamePasses.pending (h : SamePasses a b) (uri : String) : b.pending uri = a.pending uri := by
  rw [Analysis.pending, Analysis.pending, h.passes, h.last]

theorem Moves.refl (a : Analysis) (uri : String) : Moves a a uri [] := ⟨[], rfl, rfl⟩

theorem Moves.trans {moves more : List (Phase × Phase)} (h : Moves a b uri moves)
    (h' : Moves b c uri more) :
    Moves a c uri (moves ++ more) := by
  obtain ⟨first, journal, rfl⟩ := h
  obtain ⟨second, journal', rfl⟩ := h'
  exact ⟨second ++ first, by rw [journal', journal, List.append_assoc],
    by rw [List.filterMap_append, List.reverse_append]⟩

theorem Moves.silent {e : Event} (journal : b.journal = e :: a.journal)
    (other : Event.move? uri e = none) :
    Moves a b uri [] := ⟨[e], journal, by rw [List.filterMap_cons_none other]; rfl⟩

theorem Moves.one {before phase : Phase}
    (journal : b.journal = .moved uri before phase :: a.journal) :
    Moves a b uri [(before, phase)] := by
  have moved : Event.move? uri (.moved uri before phase) = some (before, phase) := if_pos rfl
  exact ⟨[_], journal, by rw [List.filterMap_cons_some moved]; rfl⟩

/-- A document keeps what is known of it, its pending passes and its phase. -/
structure Rests (a b : Analysis) (uri : String) : Prop where
  opened : (b.open? uri).map (·.progress) = (a.open? uri).map (·.progress)
  pending : b.pending uri = a.pending uri
  moves : Moves a b uri []
  document : a.isOpen uri = true → b.snapshot.document? uri = a.snapshot.document? uri

theorem Rests.refl (a : Analysis) (uri : String) : Rests a a uri :=
  ⟨rfl, rfl, .refl a uri, fun _ => rfl⟩

theorem Rests.open? {e : OpenDocument} (h : Rests a b uri) (opened : b.open? uri = some e) :
    ∃ d, a.open? uri = some d ∧ d.progress = e.progress := by
  have same := h.opened
  rw [opened] at same
  exact Option.map_eq_some_iff.mp same.symm

theorem Rests.isOpen (h : Rests a b uri) : b.isOpen uri = a.isOpen uri := by
  have same := congrArg Option.isSome h.opened
  rw [Option.isSome_map, Option.isSome_map] at same
  rw [Bool.eq_iff_iff, isOpen_iff, isOpen_iff, ← Option.isSome_iff_exists,
    ← Option.isSome_iff_exists, same]

theorem Rests.trans (h : Rests a b uri) (h' : Rests b c uri) : Rests a c uri :=
  ⟨h'.opened.trans h.opened, h'.pending.trans h.pending, h.moves.trans h'.moves,
    fun opened => (h'.document (h.isOpen.trans opened)).trans (h.document opened)⟩

theorem Rests.ownPhase (h : Rests a b uri) : b.ownPhase uri = a.ownPhase uri := by
  have same := congrArg (Option.map fun t => t.2.2.2) h.opened
  rw [Option.map_map, Option.map_map] at same
  have phases : (b.open? uri).map (·.phase) = (a.open? uri).map (·.phase) := same
  unfold Analysis.ownPhase
  cases opened : b.open? uri with
  | none =>
    rw [opened] at phases
    rw [Option.map_eq_none_iff.mp phases.symm]
  | some e =>
    rw [opened] at phases
    obtain ⟨d, before, same_phase⟩ := Option.map_eq_some_iff.mp phases.symm
    rw [before, Option.getD_some, Option.getD_some, same_phase]

/-! ### What leaves a document at rest -/

theorem update_rests (a : Analysis) (other : String) {f : OpenDocument → OpenDocument}
    (keeps : ∀ d, (f d).uri = d.uri)
    (passes : ∀ d, (f d).pass = d.pass) (same : other = uri → ∀ d, (f d).progress = d.progress) :
    Rests a (a.update other f) uri := by
  refine ⟨?_, (update_samePasses a other keeps passes).pending uri, ⟨[], rfl, rfl⟩, fun _ => rfl⟩
  rw [update_open? a other uri f keeps]
  split
  · rename_i here
    rw [Option.map_map]
    exact congrArg (fun g => Option.map g (a.open? uri)) (funext (same here.symm))
  · rfl

theorem record_rests (a : Analysis) {e : Event} (silent : Event.move? uri e = none) :
    Rests a (a.record e) uri :=
  ⟨rfl, (record_samePasses a e).pending uri, .silent rfl silent, fun _ => rfl⟩

theorem moveTo_rests (a : Analysis) (ne : other ≠ uri) (phase : Phase) :
    Rests a (a.moveTo other phase) uri := by
  unfold moveTo
  split
  · exact .refl a uri
  · have moved : Rests a (a.update other ({ · with phase })) uri :=
      update_rests a other (fun _ => rfl) (fun _ => rfl) fun same => absurd same ne
    exact moved.trans (record_rests _ (if_neg ne))

theorem publish_rests (a : Analysis) (other : String) (version : Option Int)
    (compiled : List Diagnostic) :
    Rests a (a.publish other version compiled) uri := by
  unfold publish
  split
  · split
    · have marked : Rests a (a.update other ({ · with lastPublished := version })) uri :=
        update_rests a other (fun _ => rfl) (fun _ => rfl) fun _ _ => rfl
      exact marked.trans (record_rests _ rfl)
    · exact .refl a uri
  · exact .refl a uri

theorem republish_rests (a : Analysis) (other : String) : Rests a (a.republish other) uri := by
  unfold republish
  split
  · exact publish_rests a other _ _
  · exact .refl a uri

/-- With another snapshot in place only publications follow. -/
theorem replaceSnapshot_rests (a : Analysis) (changed : Option String) (s : Snapshot) :
    Rests { a with snapshot := s } (a.replaceSnapshot changed s) uri := by
  have walk : ∀ (uris : List String) (b : Analysis), Rests b (uris.foldl republish b) uri := by
    intro uris
    induction uris with
    | nil => exact fun b => .refl b uri
    | cons first rest ih => exact fun b => (republish_rests b first).trans (ih _)
  exact walk _ _

theorem show_rests {s : Snapshot} (nextOrder : Nat)
    (same : a.isOpen uri = true → s.document? uri = a.snapshot.document? uri)
    (changed : Option String) :
    Rests a (({ a with nextOrder } : Analysis).replaceSnapshot changed s) uri := by
  have shown : Rests a { a with nextOrder, snapshot := s } uri := ⟨rfl, rfl, ⟨[], rfl, rfl⟩, same⟩
  exact shown.trans (replaceSnapshot_rests { a with nextOrder } changed s)

theorem Replaces.rests {n nextOrder : Nat} {s : Snapshot} (h : a.Replaces (a.isOpen · = false) n s)
    (changed : Option String) :
    Rests a (({ a with nextOrder } : Analysis).replaceSnapshot changed s) uri :=
  show_rests nextOrder (fun opened => h.document? (by rw [opened]; exact nofun)) changed

theorem commit_rests (a : Analysis) (at_other : x.uri = other) (ne : other ≠ uri)
    (nextOrder : Nat) :
    Rests a (({ a with nextOrder } : Analysis).commit x) uri := by
  rw [← at_other] at ne
  have same := (a.snapshot.withDocument_document? x uri).trans (if_neg (Ne.symm ne))
  exact (show_rests nextOrder (fun _ => same) (some x.uri)).trans (moveTo_rests _ ne .indexed)

theorem pending_append (a : Analysis) (p : Pass) (uri : String) :
    ({ a with passes := a.passes ++ [p] } : Analysis).pending uri =
      a.pending uri ++ if p.uri = uri ∧ a.lastPass? uri = some p.number then [p] else [] := by
  refine (List.filter_append _ _).trans (congrArg (a.pending uri ++ ·) ?_)
  have same : ({ a with passes := a.passes ++ [p] } : Analysis).lastPass? uri =
      a.lastPass? uri := rfl
  simp only [List.filter_cons, List.filter_nil, same, Bool.and_eq_true, beq_iff_eq]

theorem enqueue_rests (a : Analysis) {p : Pass} (ne : p.uri ≠ uri) :
    Rests a { a with passes := a.passes ++ [p] } uri := by
  refine ⟨rfl, ?_, ⟨[], rfl, rfl⟩, fun _ => rfl⟩
  rw [pending_append, if_neg fun both => ne both.1, List.append_nil]

theorem schedule_rests (a : Analysis) (number : Nat) (ne : other ≠ uri) (version : Option Int)
    (saved : Bool) :
    Rests a (a.schedule number other version saved) uri := by
  unfold schedule
  split
  · exact publish_rests a other version []
  · exact enqueue_rests a (p := ⟨number, other, version, _, _⟩) ne

theorem startCompiling_rests (a : Analysis) (number : Nat) (ne : other ≠ uri)
    (version : Option Int) :
    Rests a (a.startCompiling number other version) uri := by
  unfold startCompiling
  split
  · exact publish_rests a other version []
  · split
    · exact .refl a uri
    · split
      · have queued : ∀ due stage,
            Rests a { a with passes := a.passes ++ [⟨number, other, version, due, stage⟩] } uri :=
          fun due stage => enqueue_rests a ne
        have moved := fun due stage => (queued due stage).trans (moveTo_rests _ ne .compiling)
        exact (moved _ _).trans (record_rests _ rfl)
      · exact .refl a uri

theorem finishCompiling_rests (a : Analysis) (ne : other ≠ uri) (version : Option Int)
    (found : Option (List Diagnostic)) : Rests a (a.finishCompiling other version found) uri := by
  have kept : Rests a (a.update other fun d =>
      { d with compilerAvailable := found.isSome, compiled := found.map fun ds => ⟨version, ds⟩ })
        uri :=
    update_rests a other (fun _ => rfl) (fun _ => rfl) fun same => absurd same ne
  have completed := kept.trans (moveTo_rests _ ne .compileComplete)
  exact completed.trans ((publish_rests _ other version _).trans (moveTo_rests _ ne .indexed))

theorem Starts.rests (started : Starts a m other version) (ne : uri ≠ other) : Rests a m uri := by
  have last : m.lastPass? uri = a.lastPass? uri := by
    rw [lastPass?, lastPass?, started.others uri ne]
  exact ⟨by rw [started.others uri ne], by rw [pending, pending, started.passes, last],
    .silent started.journal (if_neg (Ne.symm ne)), fun _ => by rw [started.snapshot]⟩

/-! ### What a step does to a document -/

/-- True if an action wakes a pass that is due and was not superseded. -/
def Wakes (a : Analysis) (action : Action) (p : Pass) : Prop :=
  action = .wake p.number ∧ a.passes.find? (·.number == p.number) = some p ∧ p.due ≤ a.now ∧
    a.isCurrent p = true

/-- An open document is about to be compiled or published. No pass is pending
for it, as the one that was started last is under way. -/
structure Floor (a : Analysis) (uri : String) (d : OpenDocument) (x : DocumentIndex) : Prop where
  opened : a.open? uri = some d
  shown : a.snapshot.document? uri = some x
  idle : a.pending uri = []

/-- A pass of a document has started, and is about to compile or publish it. -/
structure Enters (a m : Analysis) (uri : String) (d : OpenDocument) (x : DocumentIndex) : Prop where
  floor : m.Floor uri d x
  version : x.document.version = d.version
  pass : d.pass = a.nextPass
  phase : d.phase = .indexed
  results : d.compiled = ((a.open? uri).getD (.unanalyzed uri)).compiled
  compiler : m.compiler = a.compiler
  settings : m.settings = a.settings
  moves : Moves a m uri [(a.ownPhase uri, .parsing), (.parsing, .indexed)]

/-- Where the document of a pass comes from: it is new, or was saved under the
version that is there, or is the one that is there, saved or not. -/
inductive Takes (a : Analysis) (uri : String) (x : DocumentIndex) : Action → Prop
  | newer {version : Int} {text : List Char} (taken : x.document = .ofText uri (some version) text)
      (uncompiled : ((a.open? uri).getD (.unanalyzed uri)).compiledFor (some version) = []) :
      Takes a uri x (.change uri version text)
  | saved {y : DocumentIndex} {text : List Char} (before : a.snapshot.document? uri = some y)
      (taken : x.document = .ofText uri y.document.version text) :
      Takes a uri x (.save uri (some text))
  | unchanged {text : Option (List Char)} (before : a.snapshot.document? uri = some x) :
      Takes a uri x (.save uri text)
  | again {action : Action} (command : action = .compile uri ∨ action = .compileAll)
      (before : a.snapshot.document? uri = some x) : Takes a uri x action

/-- True if nothing is compiled in the pass that an action starts. -/
def Uncompiled (a : Analysis) : Action → Prop
  | .change .. => a.compileDelay? false = none
  | .save .. => a.compileDelay? true = none
  | _ => a.compiler = none

/-- How a pass goes on with its document: it is over because nothing is to be
compiled, or it waits, or the document is handed to the compiler. -/
inductive Onward (a b : Analysis) (uri : String) (d : OpenDocument) (x : DocumentIndex)
    (skipped : Prop) : Prop
  | ends (reason : skipped) (same : Rests a b uri)
  | waits {p : Pass} (opened : b.open? uri = some d) (shown : b.snapshot.document? uri = some x)
      (queued : b.pending uri = [p]) (stage : p.stage = .waiting) (moves : Moves a b uri [])
  | compiles {p : Pass} {answer : CompilerAnswer}
      (opened : b.open? uri = some { d with phase := .compiling })
      (shown : b.snapshot.document? uri = some x) (queued : b.pending uri = [p])
      (stage : p.stage = .compiling x.document answer) (handed : Hands a b x.document answer)
      (moves : Moves a b uri [(d.phase, .compiling)])

theorem Onward.imp {skipped skipped' : Prop} (h : Onward a b uri d x skipped)
    (imp : skipped → skipped') :
    Onward a b uri d x skipped' := by
  cases h with
  | ends reason same => exact .ends (imp reason) same
  | waits opened shown queued stage moves => exact .waits opened shown queued stage moves
  | compiles opened shown queued stage handed moves =>
    exact .compiles opened shown queued stage handed moves

/-- All that a part of a step can do to a document, which may be `starting` a
pass for it. -/
inductive Turn (a : Analysis) (action : Action) (uri : String) (starting : Prop)
    (b : Analysis) : Prop
  | rests (none_starts : ¬ starting) (none_wakes : ∀ p, a.Wakes action p → p.uri ≠ uri)
      (same : Rests a b uri)
  | closes (none_starts : ¬ starting) (own : action = .close uri) (closed : b.open? uri = none)
      (moves : Moves a b uri [])
  | begins {m : Analysis} {d : OpenDocument} {x : DocumentIndex} (starts : starting)
      (takes : a.Takes uri x action)
      (enters : Enters a m uri d x) (onward : Onward m b uri d x (a.Uncompiled action))
  | continues {m : Analysis} {p : Pass} {d : OpenDocument} {x : DocumentIndex}
      (none_starts : ¬ starting)
      (due : a.Wakes action p) (here : p.uri = uri) (waiting : p.stage = .waiting)
      (opened : a.open? uri = some d)
      (shown : a.snapshot.document? uri = some x) (floor : m.Floor uri d x)
      (compiler : m.compiler = a.compiler)
      (moves : Moves a m uri []) (onward : Onward m b uri d x (a.compiler = none))
  | finishes {p : Pass} {d e : OpenDocument} {document : Document} {answer : CompilerAnswer}
      (none_starts : ¬ starting)
      (due : a.Wakes action p) (here : p.uri = uri) (stage : p.stage = .compiling document answer)
      (opened : a.open? uri = some d) (done : b.open? uri = some e)
      (version : e.version = d.version)
      (phase : e.phase = .indexed)
      (results : e.compiled = (answer.diagnostics? document).map (⟨d.version, ·⟩))
      (idle : b.pending uri = []) (shown : b.snapshot.document? uri = a.snapshot.document? uri)
      (moves : Moves a b uri [(d.phase, .compileComplete), (.compileComplete, .indexed)])

/-- The parts of a step, one after the other. Only if all documents are
compiled there is more than one. The compiler and the settings stay. -/
inductive Turns (action : Action) (uri : String) : Prop → Analysis → Analysis → Prop
  | last {a b : Analysis} {starting : Prop} (turn : Turn a action uri starting b) :
      Turns action uri starting a b
  | next {a b c : Analysis} {first later : Prop} (all : action = .compileAll)
      (turn : Turn a action uri first b)
      (frame : SameFrame a b) (rest : Turns action uri later b c) :
      Turns action uri (first ∨ later) a c

theorem Wakes.pending {action : Action} {p : Pass} (h : a.Wakes action p) (here : p.uri = uri) :
    p ∈ a.pending uri :=
  mem_pending.mpr ⟨List.mem_of_find?_eq_some h.2.1, here, h.2.2.2⟩

theorem Wakes.unique {action : Action} {p q : Pass} (h : a.Wakes action p) (h' : a.Wakes action q) :
    p = q := by
  have number : p.number = q.number := Action.wake.inj (h.1.symm.trans h'.1)
  have found := h'.2.1
  rw [← number, h.2.1] at found
  exact Option.some.inj found

/-- An action other than a wake has nothing to do with any pass that waits. -/
theorem Turn.at_rest {action : Action} {starting : Prop} (none_starts : ¬ starting)
    (by_hand : ∀ number, action ≠ .wake number) (same : Rests a b uri) :
    Turn a action uri starting b :=
  .rests none_starts (fun p due => absurd due.1 (by_hand p.number)) same

/-! ### The pass that was started last -/

theorem moveTo_own (opened : a.open? uri = some d) (phase : Phase) :
    (a.moveTo uri phase).open? uri = some { d with phase } ∧ Moves a (a.moveTo uri phase) uri
      [(d.phase, phase)] := by
  exact ⟨by rw [moveTo_open?, if_pos rfl, opened]; rfl, .one (moveTo_journal opened phase)⟩

theorem Floor.enqueue (h : a.Floor uri d x) (due : Nat) (stage : Stage) :
    ({ a with passes := a.passes ++ [⟨d.pass, uri, d.version, due, stage⟩] } :
      Analysis).pending uri = [⟨d.pass, uri, d.version, due, stage⟩] := by
  have last : a.lastPass? uri = some d.pass := by rw [lastPass?, h.opened]; rfl
  rw [pending_append, if_pos ⟨rfl, last⟩, h.idle, List.nil_append]

theorem Floor.schedule (h : a.Floor uri d x) {number : Nat} (pass : d.pass = number)
    (at_version : d.version = version) (saved : Bool) :
    Onward a (a.schedule number uri version saved) uri d x (a.compileDelay? saved = none) := by
  subst pass at_version
  unfold Analysis.schedule
  split
  · rename_i skipped
    exact .ends skipped (publish_rests a uri d.version [])
  · exact .waits h.opened h.shown (h.enqueue _ _) rfl ⟨[], rfl, rfl⟩

theorem Floor.startCompiling (h : a.Floor uri d x) {number : Nat} (pass : d.pass = number)
    (at_version : d.version = version) (same : x.document.version = d.version) :
    Onward a (a.startCompiling number uri version) uri d x (a.compiler = none) := by
  subst pass at_version
  unfold Analysis.startCompiling
  split
  · rename_i missing
    exact .ends missing (publish_rests a uri d.version [])
  · rename_i c in_use
    rw [h.shown]
    dsimp only
    rw [if_pos same]
    let p : Pass :=
      ⟨d.pass, uri, d.version, a.now + c.delay, .compiling x.document (c.compile (a.sourcesFor x))⟩
    have opened : ({ a with passes := a.passes ++ [p] } : Analysis).open? uri = some d := h.opened
    obtain ⟨moved, moves⟩ := moveTo_own opened .compiling
    refine .compiles (p := p) moved ?_ ?_ rfl ?_ ?_
    · rw [record_snapshot, moveTo_snapshot]
      exact h.shown
    · have queued := (moveTo_samePasses { a with passes := a.passes ++ [p] } uri .compiling).trans
        (record_samePasses _ (.compiled (a.sourcesFor x)))
      exact (queued.pending uri).trans (h.enqueue _ _)
    · exact ⟨c, a.sourcesFor x, [.compiled (a.sourcesFor x), .moved uri d.phase .compiling],
        in_use, rfl, rfl, congrArg (_ :: ·) (moveTo_journal opened .compiling), List.mem_cons_self⟩
    · have queued : Moves a { a with passes := a.passes ++ [p] } uri [] := ⟨[], rfl, rfl⟩
      exact (queued.trans moves).trans (record_rests _ rfl).moves

/-- No pass has the number of the one that has just started. -/
theorem Starts.pending (started : Starts a m uri version) (numbered : a.Numbered) :
    m.pending uri = [] := by
  have last : m.lastPass? uri = some a.nextPass := by rw [lastPass?, started.opened]; rfl
  refine List.filter_eq_nil_iff.mpr fun p member both => ?_
  have given := numbered.given p (started.passes ▸ member)
  rw [last, Bool.and_eq_true, beq_iff_eq, beq_iff_eq, Option.some.injEq] at both
  omega

theorem Starts.moves (started : Starts a m uri version) :
    Moves a m uri [(a.ownPhase uri, .parsing)] :=
  .one started.journal

theorem Enters.schedule (h : Enters a m uri d x) (saved : Bool) :
    Onward m (m.schedule a.nextPass uri x.document.version saved) uri d x
      (a.compileDelay? saved = none) := by
  refine (h.floor.schedule h.pass h.version.symm saved).imp fun skipped => ?_
  rw [compileDelay?, ← h.compiler, ← h.settings]
  exact skipped

theorem Enters.startCompiling (h : Enters a m uri d x) :
    Onward m (m.startCompiling a.nextPass uri x.document.version) uri d x (a.compiler = none) :=
  (h.floor.startCompiling h.pass h.version.symm h.version).imp h.compiler.symm.trans

/-- A pass has put the index of its document into the snapshot. -/
theorem Starts.enters_commit (started : Starts a m uri version) (numbered : a.Numbered)
    (at_uri : x.uri = uri) (at_version : x.document.version = version) (nextOrder : Nat) :
    ∃ d, Enters a (({ m with nextOrder } : Analysis).commit x) uri d x := by
  subst at_uri
  let shown : Analysis := { m with nextOrder, snapshot := m.snapshot.withDocument x }
  have placed : Rests shown _ x.uri :=
    replaceSnapshot_rests { m with nextOrder } (some x.uri) (m.snapshot.withDocument x)
  have opened : shown.open? x.uri = _ := started.opened
  have still := placed.opened
  rw [opened] at still
  obtain ⟨e, here, same⟩ := Option.map_eq_some_iff.mp still
  simp only [OpenDocument.progress, Prod.mk.injEq] at same
  obtain ⟨e_version, e_compiled, e_pass, e_phase⟩ := same
  obtain ⟨moved, moves⟩ := moveTo_own here .indexed
  have frame := commit_sameFrame { m with nextOrder } x
  refine ⟨{ e with phase := .indexed }, ⟨moved, ?_, ?_⟩, at_version.trans e_version.symm, e_pass,
    rfl, e_compiled,
    frame.compiler.trans started.frame.compiler, frame.settings.trans started.frame.settings, ?_⟩
  · rw [(commit_sameTexts { m with nextOrder } x).snapshot]
    exact (m.snapshot.withDocument_document? x x.uri).trans (if_pos rfl)
  · exact ((commit_samePasses { m with nextOrder } x).pending x.uri).trans
      (started.pending numbered)
  · rw [e_phase] at moves
    have first : Moves a shown x.uri _ := started.moves
    exact (first.trans placed.moves).trans moves

/-- A pass goes over the document that is in the snapshot once more. -/
theorem Starts.enters_again (started : Starts a m uri version) (numbered : a.Numbered)
    (shown : a.snapshot.document? uri = some x) (at_version : x.document.version = version) :
    ∃ d, Enters a (m.moveTo uri .indexed) uri d x := by
  obtain ⟨moved, moves⟩ := moveTo_own started.opened .indexed
  have frame := moveTo_sameFrame m uri .indexed
  refine ⟨_, ⟨moved, ?_, ?_⟩, at_version, rfl, rfl, rfl,
    frame.compiler.trans started.frame.compiler, frame.settings.trans started.frame.settings,
      started.moves.trans moves⟩
  · rw [moveTo_snapshot, started.snapshot]
    exact shown
  · exact ((moveTo_samePasses m uri .indexed).pending uri).trans (started.pending numbered)

/-! ### The actions, one after the other -/

variable {exact : Prop}

/-- A version that is newer than that of a document was never compiled. -/
theorem Settles.uncompiled (h : a.Settles uri exact) {new : Int}
    (accepted : a.acceptsChange uri new = true) :
    ((a.open? uri).getD (.unanalyzed uri)).compiledFor (some new) = [] := by
  unfold acceptsChange at accepted
  cases opened : a.open? uri with
  | none => rfl
  | some before =>
    rw [opened] at accepted
    exact (h.prepared before opened).uncompiled accepted

theorem change_turn (h : a.Settles uri exact) (numbered : a.Numbered) (other : String) (new : Int)
    (text : List Char) :
    Turn a (.change other new text) uri (a.startsPass uri (.change other new text) = true)
      (a.change other new text) := by
  rw [startsPass]
  rcases change_cases a other new text
    with ⟨refused, same⟩ | ⟨m, order, nextOrder, accepted, started, _, same⟩
  · rw [same, refused, Bool.and_false]
    exact .at_rest nofun nofun (.refl a uri)
  · rw [same, accepted, Bool.and_true, beq_iff_eq]
    let x := (Document.ofText other (some new) text).index a.catalog order
    by_cases here : other = uri
    · subst here
      obtain ⟨d, enters⟩ := started.enters_commit numbered (x := x) rfl rfl nextOrder
      exact .begins rfl (.newer rfl (h.uncompiled accepted)) enters (enters.schedule false)
    · have elsewhere := started.rests (Ne.symm here)
      have committed : Rests m (({ m with nextOrder } : Analysis).commit x) uri :=
        commit_rests m (x := x) rfl here nextOrder
      have scheduled : Rests _ _ uri :=
        schedule_rests (({ m with nextOrder } : Analysis).commit x) a.nextPass here (some new) false
      exact .at_rest here nofun ((elsewhere.trans committed).trans scheduled)

theorem save_turn (sound : a.Sound) (numbered : a.Numbered) (uri other : String)
    (text : Option (List Char)) :
    Turn a (.save other text) uri (a.startsPass uri (.save other text) = true)
      (a.save other text) := by
  rw [startsPass]
  rcases save_cases sound other text
    with ⟨absent, same⟩ | ⟨current, m, b, in_snapshot, started, same, saved⟩
  · rw [same, absent, Option.isSome_none, Bool.and_false]
    exact .at_rest nofun nofun (.refl a uri)
  · rw [same, in_snapshot, Option.isSome_some, Bool.and_true, beq_iff_eq]
    by_cases here : other = uri
    · subst here
      rcases saved with ⟨rfl, _⟩ | ⟨t, some_text, rfl⟩
      · obtain ⟨d, enters⟩ := started.enters_again numbered in_snapshot rfl
        exact .begins rfl (.unchanged in_snapshot) enters (enters.schedule true)
      · let x := (Document.ofText other current.document.version t).index a.catalog current.order
        obtain ⟨d, enters⟩ := started.enters_commit numbered (x := x) rfl rfl m.nextOrder
        rw [Option.mem_def.mp some_text]
        exact .begins rfl (.saved in_snapshot rfl) enters (enters.schedule true)
    · refine .at_rest here
        nofun (Rests.trans ?_ (schedule_rests b _ here current.document.version true))
      have elsewhere := started.rests (Ne.symm here)
      rcases saved with ⟨rfl, _⟩ | ⟨t, _, rfl⟩
      · exact elsewhere.trans (moveTo_rests m here .indexed)
      · let x := (Document.ofText other current.document.version t).index a.catalog current.order
        exact elsewhere.trans (commit_rests m (x := x) rfl here m.nextOrder)

theorem close_turn (a : Analysis) (disk : Disk) (uri other : String) :
    Turn a (.close other) uri (a.startsPass uri (.close other) = true) (a.close disk other) := by
  obtain ⟨nextOrder, s, replaces, _, same⟩ := close_cases a disk other
  rw [same]
  let closed : Analysis := { a with opened := a.opened.filter (·.uri != other), nextOrder }
  have left : closed.open? uri = if uri = other then none else a.open? uri :=
    close_open? a other uri
  have recorded : Rests closed (closed.record (.published (.withdrawal other))) uri :=
    record_rests closed rfl
  by_cases here : uri = other
  · subst here
    rw [if_pos rfl] at left
    have after := recorded.trans
      (show_rests (a := closed.record _) closed.nextOrder (fun opened => ?_) (some uri) (s := s))
    · refine .closes Bool.false_ne_true rfl ?_ ?_
      · have gone := after.opened
        rw [left] at gone
        exact Option.map_eq_none_iff.mp gone
      · have removed : Moves a closed uri [] := ⟨[], rfl, rfl⟩
        exact removed.trans after.moves
    · obtain ⟨d, still⟩ := (isOpen_iff _ uri).mp opened
      rw [record_open?, left] at still
      cases still
  · rw [if_neg here] at left
    have last : closed.lastPass? uri = a.lastPass? uri := by rw [lastPass?, lastPass?, left]
    have removed : Rests a closed uri :=
      ⟨by rw [left], by rw [pending, pending, last], ⟨[], rfl, rfl⟩, fun _ => rfl⟩
    have by_hand : ∀ number, Action.close other ≠ .wake number := by
      intro number same
      cases same
    exact .at_rest Bool.false_ne_true by_hand ((removed.trans recorded).trans
      (show_rests (a := closed.record _) closed.nextOrder (fun _ => replaces.document? here)
        (some other)))

/-- A part of a step that compiles one of the open documents. -/
theorem compile_turn (h : a.Settles uri exact) (numbered : a.Numbered) (other : String)
    {action : Action} (command : action = .compile other ∨ action = .compileAll) :
    Turn a action uri (other = uri ∧ a.isOpen uri = true) (a.compile other) := by
  have by_hand : ∀ number, action ≠ .wake number := by rcases command with rfl | rfl <;> exact nofun
  have skips : a.compiler = none → a.Uncompiled action := by
    rcases command with rfl | rfl <;> exact id
  rcases compile_cases a other with ⟨absent, same⟩ | ⟨d, m, opened, started, same⟩
  · rw [same]
    refine .at_rest (fun ⟨here, opened⟩ => ?_) by_hand (.refl a uri)
    obtain ⟨d, found⟩ := (isOpen_iff a uri).mp opened
    rw [← here, absent] at found
    cases found
  · rw [same]
    by_cases here : other = uri
    · subst here
      obtain ⟨x, shown, version⟩ := (h.prepared d opened).shown
      obtain ⟨e, enters⟩ := started.enters_again numbered shown version
      rw [← version]
      exact .begins ⟨rfl, isOpen_of_open opened⟩ (.again command shown) enters
        (enters.startCompiling.imp skips)
    · have elsewhere := (started.rests (Ne.symm here)).trans (moveTo_rests m here .indexed)
      exact .at_rest (fun both => here both.1) by_hand
        (elsewhere.trans (startCompiling_rests _ _ here d.version))

/-- Some passes with one number are taken out of the queue. They are those of
one document. -/
theorem drop_pending (a : Analysis) (number : Nat) (uri : String) :
    ({ a with passes := a.passes.filter (·.number != number) } : Analysis).pending uri =
      (a.pending uri).filter (·.number != number) := by
  unfold pending
  rw [List.filter_filter, List.filter_filter]
  exact List.filter_congr fun p _ => Bool.and_comm _ _

/-- What the compiler found is kept and published, and the pass is over. -/
theorem Floor.finishCompiling (h : a.Floor uri d x) (version : Option Int)
    (found : Option (List Diagnostic)) :
    ∃ e, (a.finishCompiling uri version found).open? uri = some e ∧ e.version = d.version ∧
      e.phase = .indexed ∧
      e.compiled = found.map (⟨version, ·⟩) ∧
        (a.finishCompiling uri version found).pending uri = [] ∧
      Moves a (a.finishCompiling uri version found) uri
        [(d.phase, .compileComplete), (.compileComplete, .indexed)] := by
  let store : OpenDocument → OpenDocument := fun d =>
    { d with compilerAvailable := found.isSome, compiled := found.map fun ds => ⟨version, ds⟩ }
  have kept : (a.update uri store).open? uri = some (store d) := by
    rw [update_open? a uri uri store fun _ => rfl, if_pos rfl, h.opened]
    rfl
  obtain ⟨completed, moves⟩ := moveTo_own kept .compileComplete
  have published : Rests _ _ uri :=
    publish_rests ((a.update uri store).moveTo uri .compileComplete) uri version (found.getD [])
  have still := published.opened
  rw [completed] at still
  obtain ⟨e, opened, same⟩ := Option.map_eq_some_iff.mp still
  simp only [OpenDocument.progress, Prod.mk.injEq] at same
  obtain ⟨e_version, e_compiled, _, e_phase⟩ := same
  obtain ⟨done, more⟩ := moveTo_own opened .indexed
  rw [e_phase] at more
  have stored : Moves a (a.update uri store) uri [] := ⟨[], rfl, rfl⟩
  exact ⟨_, done, e_version, rfl, e_compiled,
    ((finishCompiling_samePasses a uri version found).pending uri).trans h.idle,
    ((stored.trans moves).trans published.moves).trans more⟩

theorem wake_turn (h : a.Settles uri exact) (numbered : a.Numbered) (number : Nat) :
    Turn a (.wake number) uri (a.startsPass uri (.wake number) = true) (a.wake number) := by
  unfold wake
  split
  · rename_i absent
    refine .rests nofun (fun q due => ?_) (.refl a uri)
    rw [Action.wake.inj due.1, due.2.1] at absent
    cases absent
  · rename_i p found
    have only : ∀ q, a.Wakes (.wake number) q → q = p := by
      intro q due
      rw [Action.wake.inj due.1, due.2.1] at found
      exact Option.some.inj found
    have member := List.mem_of_find?_eq_some found
    have same_number := List.find?_some found
    have number_eq : p.number = number := beq_iff_eq.mp same_number
    split
    · rename_i early
      refine .rests nofun (fun q due => ?_) (.refl a uri)
      exact absurd (only q due ▸ due.2.2.1) (Nat.not_le.mpr early)
    · rename_i late
      have dropped := drop_pending a number uri
      -- the passes that are taken out of the queue were superseded, or are those of the one document
      have rest : (∀ q ∈ a.pending uri, q.number ≠ number) →
          Rests a { a with passes := a.passes.filter (·.number != number) } uri := by
        intro others
        rw [List.filter_eq_self.mpr fun q pending => bne_iff_ne.mpr (others q pending)] at dropped
        exact ⟨rfl, dropped, ⟨[], rfl, rfl⟩, fun _ => rfl⟩
      dsimp only
      split
      · rename_i current
        by_cases here : p.uri = uri
        · subst here
          obtain ⟨d, opened, pass⟩ := Option.map_eq_some_iff.mp ((isCurrent_iff a p).mp current)
          obtain ⟨x, shown, version⟩ := (h.prepared d opened).shown
          have at_version := (h.prepared d opened).pending p member rfl pass.symm
          have due : a.Wakes (.wake number) p :=
            ⟨congrArg _ number_eq.symm, number_eq.symm ▸ found, Nat.le_of_not_lt late, current⟩
          have idle : (a.pending p.uri).filter (·.number != number) = [] := by
            refine List.filter_eq_nil_iff.mpr fun q pending other => ?_
            have last := (isCurrent_iff a q).mp (mem_pending.mp pending).2.2
            rw [(mem_pending.mp pending).2.1, (isCurrent_iff a p).mp current, number_eq,
              Option.some.injEq] at last
            exact bne_iff_ne.mp other last.symm
          have floor : ({ a with passes := a.passes.filter (·.number != number) } : Analysis).Floor
            p.uri d x :=
            ⟨opened, shown, dropped.trans idle⟩
          split
          · rename_i waiting
            exact .continues nofun due rfl waiting opened shown floor rfl ⟨[], rfl, rfl⟩
              (floor.startCompiling (pass.trans number_eq) at_version.symm version)
          · rename_i document answer stage
            obtain ⟨e, done, e_version, phase, results, none_pending, moves⟩ :=
              floor.finishCompiling p.version (answer.diagnostics? document)
            refine .finishes nofun due rfl stage opened done e_version phase
              (at_version ▸ results) none_pending ?_ moves
            rw [(finishCompiling_sameTexts _ p.uri p.version _).snapshot]
        · have others := rest fun q pending same => by
            obtain ⟨inside, at_uri, _⟩ := mem_pending.mp pending
            exact here ((numbered.one p member q inside (number_eq.trans same.symm)).trans at_uri)
          have elsewhere : ∀ q, a.Wakes (.wake number) q → q.uri ≠ uri :=
            fun q due => only q due ▸ here
          split
          · exact .rests nofun elsewhere
              (others.trans (startCompiling_rests _ number here p.version))
          · exact .rests nofun elsewhere (others.trans (finishCompiling_rests _ here p.version _))
      · rename_i stale
        refine .rests nofun (fun q due => absurd (only q due ▸ due.2.2.2) stale)
          (rest fun q pending same => stale ?_)
        obtain ⟨inside, at_uri, current⟩ := mem_pending.mp pending
        have same_uri := numbered.one p member q inside (number_eq.trans same.symm)
        rw [isCurrent_iff] at current ⊢
        rw [same_uri, number_eq, ← same]
        exact current

theorem compileAll_turns (h : a.Settles uri exact) (numbered : a.Numbered) (sound : a.Sound) :
    Turns .compileAll uri (a.isOpen uri = true) a a.compileAll := by
  have walk : ∀ (uris : List String) (b : Analysis), b.Settles uri False → b.Numbered → b.Sound →
      Turns .compileAll uri (uri ∈ uris ∧ b.isOpen uri = true) b
        (uris.foldl Analysis.compile b) := by
    intro uris
    induction uris with
    | nil =>
      exact fun b _ _ _ =>
        .last (.at_rest (fun both => List.not_mem_nil both.1) nofun (.refl b uri))
    | cons first rest ih =>
      intro b settles numbered sound
      have turn : Turn b .compileAll uri _ (b.compile first) :=
        compile_turn settles numbered first (Or.inr rfl)
      have proceeds := compile_proceeds sound first
      have later := ih _ ((settles.compile numbered first).weaken False.elim)
        (compile_advances numbered first).numbered proceeds.sound
      rw [isOpen_of_truth (proceeds.truth uri)] at later
      have parts := Turns.next rfl turn (compile_sameFrame b first) later
      rw [← or_and_right, eq_comm, ← List.mem_cons] at parts
      exact parts
  have all := walk (a.opened.map (·.uri)) a (h.weaken False.elim) numbered sound
  have listed : (uri ∈ a.opened.map (·.uri) ∧ a.isOpen uri = true) = (a.isOpen uri = true) := by
    refine propext ⟨And.right, fun opened => ⟨?_, opened⟩⟩
    obtain ⟨d, at_uri⟩ := (isOpen_iff a uri).mp opened
    exact List.mem_map.mpr ⟨d, List.mem_of_find?_eq_some at_uri, open?_uri at_uri⟩
  rw [listed] at all
  exact all

theorem fileChanged_rests (a : Analysis) (disk : Disk) (change : String × FileChange) :
    Rests a (a.fileChanged disk change) uri := by
  rcases fileChanged_cases a disk change with same | ⟨nextOrder, s, replaces, same⟩
  · rw [same]
    exact .refl a uri
  · rw [same]
    exact replaces.rests none

/-- What any step does to a document. -/
theorem after_turns (h : a.Settles uri exact) (numbered : a.Numbered) (sound : a.Sound) (s : Step) :
    Turns s.action uri (a.startsPass uri s.action = true) a (a.after s) := by
  unfold after
  cases s.action with
  | change other version text => exact .last (change_turn h numbered other version text)
  | save other text => exact .last (save_turn sound numbered uri other text)
  | close other => exact .last (close_turn a s.disk uri other)
  | compile other =>
    have turn : Turn a (.compile other) uri _ (a.compile other) :=
      compile_turn h numbered other (Or.inl rfl)
    have starts :
        (a.startsPass uri (.compile other) = true) = (other = uri ∧ a.isOpen uri = true) := by
      rw [startsPass, Bool.and_eq_true, beq_iff_eq]
      exact propext ⟨fun ⟨here, opened⟩ => ⟨here, here ▸ opened⟩, fun ⟨here, opened⟩ =>
        ⟨here, here ▸ opened⟩⟩
    rw [starts]
    exact .last turn
  | compileAll => exact compileAll_turns h numbered sound
  | configure _ => exact .last (.at_rest nofun nofun ⟨rfl, rfl, ⟨[], rfl, rfl⟩, fun _ => rfl⟩)
  | useCompiler _ => exact .last (.at_rest nofun nofun ⟨rfl, rfl, ⟨[], rfl, rfl⟩, fun _ => rfl⟩)
  | cache folder =>
    obtain ⟨nextOrder, t, replaces, same⟩ := cache_cases a s.disk folder
    show Turns _ uri _ a (a.cache s.disk folder)
    rw [same]
    exact .last (.at_rest nofun nofun (replaces.rests none))
  | clearCache =>
    obtain ⟨t, replaces, same⟩ := clearCache_cases a
    show Turns _ uri _ a a.clearCache
    rw [same]
    exact .last (.at_rest nofun nofun (replaces.rests none))
  | watched changes =>
    have all : ∀ (changes : List (String × FileChange)) (b : Analysis),
        Rests b (changes.foldl (fileChanged s.disk) b) uri := by
      intro changes
      induction changes with
      | nil => exact fun b => .refl b uri
      | cons change rest ih => exact fun b => (fileChanged_rests b s.disk change).trans (ih _)
    show Turns _ uri _ a (a.watched s.disk changes)
    unfold watched
    split
    · exact .last (.at_rest nofun nofun (all changes a))
    · exact .last (.at_rest nofun nofun (.refl a uri))
  | tick _ => exact .last (.at_rest nofun nofun ⟨rfl, rfl, ⟨[], rfl, rfl⟩, fun _ => rfl⟩)
  | wake number => exact .last (wake_turn h numbered number)

/-- The analysis is in order, and nothing has been done to a document yet. -/
structure Begun (a : Analysis) (uri : String) : Prop where
  closed : a.open? uri = none
  numbered : a.Numbered
  sound : a.Sound
  tracks : a.Tracks uri none

theorem start_begun (catalog : Catalog) (settings : Settings) (compiler : Option Compiler)
    (uri : String) :
    (start catalog settings compiler).Begun uri :=
  ⟨rfl, start_numbered catalog settings compiler, start_sound catalog settings compiler,
    start_tracks catalog settings compiler uri⟩

/-- Every step of a run is made of such parts. -/
theorem Begun.turns (h : a.Begun uri) (before : List Step) (s : Step) :
    Turns s.action uri ((a.run before).startsPass uri s.action = true) (a.run before)
      (a.run (before ++ [s])) := by
  have settles : a.Settles uri True := .of_closed h.closed
  rw [run_concat]
  exact after_turns (run_settles settles h.numbered h.sound before)
    (run_advances h.numbered before).numbered (run_sound h.sound before) s

end Analysis

end RuleDesk
