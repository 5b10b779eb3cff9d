import Mathlib.Data.List.Induction
import RuleDesk.Proofs.Analysis.Turns

namespace RuleDesk

/-- The changes of phase that there can be. A pass begins in any phase. -/
inductive Phase.Next : Phase → Phase → Prop
  | parse (before : Phase) : Next before .parsing
  | index : Next .parsing .indexed
  | compile : Next .indexed .compiling
  | complete : Next .compiling .compileComplete
  | keep : Next .compileComplete .indexed

/-- A way from one phase to another through changes that there can be. -/
inductive Phase.Route : Phase → List (Phase × Phase) → Phase → Prop
  | here (phase : Phase) : Route phase [] phase
  | move {before phase after : Phase} {moves : List (Phase × Phase)} (next : before.Next phase)
      (rest : Route phase moves after) : Route before ((before, phase) :: moves) after

theorem Phase.Route.append {p q r : Phase} {moves more : List (Phase × Phase)} (h : p.Route moves q)
    (h' : q.Route more r) : p.Route (moves ++ more) r := by
  induction h with
  | here _ => exact h'
  | move next _ ih => exact .move next (ih h')

/-- The phase that a document is in while a pass is at some stage. -/
def Stage.phase : Stage → Phase
  | waiting => .indexed
  | compiling _ _ => .compiling

namespace Analysis

/-- The changes of phase of a document from `a` to `b`, the oldest first. -/
def movesSince (a b : Analysis) (uri : String) : List (Phase × Phase) :=
  ((b.journal.take (b.journal.length - a.journal.length)).filterMap (Event.move? uri)).reverse

/-- The phase of an open document is that of the pass that is pending for it,
and it is indexed if there is none. -/
inductive InPhase (a : Analysis) (uri : String) (d : OpenDocument) : Prop
  | rests (idle : a.pending uri = []) (phase : d.phase = .indexed)
  | waits {p : Pass} (queued : a.pending uri = [p]) (phase : d.phase = p.stage.phase)

/-- A document is in the phase that it should be in, if it is open. -/
def Phased (a : Analysis) (uri : String) : Prop := ∀ d, a.open? uri = some d → a.InPhase uri d

/-- From `a` to `b` a document makes moves, and is in the right phase in the
end. If it is not closed on the way, the moves lead from phase to phase. It
begins to be parsed if and only if this is `starting` a pass. -/
structure Travels (a b : Analysis) (uri : String) (closing starting : Prop)
    (made : List (Phase × Phase)) : Prop where
  phased : b.Phased uri
  moves : Moves a b uri made
  route : ¬ closing → (a.ownPhase uri).Route made (b.ownPhase uri)
  parsing : (∃ before, (before, Phase.parsing) ∈ made) ↔ starting

variable {a b c m : Analysis} {uri : String} {d e : OpenDocument} {x : DocumentIndex}
  {action : Action} {skipped closing starting later : Prop} {made more : List (Phase × Phase)}

theorem Moves.since (h : Moves a b uri made) : movesSince a b uri = made := by
  obtain ⟨new, journal, rfl⟩ := h
  have count : b.journal.length - a.journal.length = new.length := by
    rw [journal, List.length_append]
    omega
  rw [movesSince, count, journal, List.take_left]

theorem ownPhase_of_open (opened : a.open? uri = some d) : a.ownPhase uri = d.phase := by
  rw [ownPhase, opened, Option.getD_some]

theorem Phased.of_open (opened : a.open? uri = some d) (h : a.InPhase uri d) : a.Phased uri := by
  intro e opened'
  exact Option.some.inj (opened.symm.trans opened') ▸ h

theorem Travels.trans (h : Travels a b uri closing starting made)
    (h' : Travels b c uri closing later more) :
    Travels a c uri closing (starting ∨ later) (made ++ more) := by
  refine ⟨h'.phased, h.moves.trans h'.moves, fun stays =>
    (h.route stays).append (h'.route stays), ?_⟩
  rw [← h.parsing, ← h'.parsing, ← exists_or]
  exact exists_congr fun before => List.mem_append

/-- As long as no pass is started the document does not begin to be parsed. -/
theorem not_parsing (h : ¬ starting) (others : ∀ before, (before, Phase.parsing) ∉ made) :
    (∃ before, (before, Phase.parsing) ∈ made) ↔ starting :=
  ⟨fun ⟨before, member⟩ => absurd member (others before), fun starts => absurd starts h⟩

theorem Rests.travels (h : Rests a b uri) (phased : a.Phased uri) (none_starts : ¬ starting) :
    Travels a b uri closing starting [] := by
  refine ⟨fun e opened => ?_, h.moves, fun _ => h.ownPhase ▸ .here _,
    not_parsing none_starts fun _ => List.not_mem_nil⟩
  obtain ⟨d, before, same⟩ := h.open? opened
  have phase : d.phase = e.phase := congrArg (fun t => t.2.2.2) same
  cases phased d before with
  | rests idle indexed => exact .rests (h.pending.trans idle) (phase ▸ indexed)
  | waits queued at_stage => exact .waits (h.pending.trans queued) (phase ▸ at_stage)

/-- A pass that goes on with an indexed document leaves it indexed or has it
compiled. -/
theorem Onward.travels (h : Onward a b uri d x skipped) (floor : a.Floor uri d x)
    (indexed : d.phase = .indexed) :
    ∃ made, Travels a b uri closing False made := by
  have own : a.ownPhase uri = .indexed := (ownPhase_of_open floor.opened).trans indexed
  cases h with
  | ends _ same => exact ⟨[], same.travels (.of_open floor.opened (.rests floor.idle indexed)) id⟩
  | waits opened _ queued stage moves =>
    have phase : d.phase = Stage.waiting.phase := indexed
    refine ⟨[], .of_open opened (.waits queued (stage ▸ phase)), moves, fun _ => ?_,
      not_parsing id fun _ => List.not_mem_nil⟩
    rw [own, ownPhase_of_open opened, indexed]
    exact .here .indexed
  | compiles opened _ queued stage _ moves =>
    refine ⟨_, .of_open opened (.waits queued (stage ▸ rfl)), moves, fun _ => ?_,
      not_parsing id fun before member => ?_⟩
    · rw [own, ownPhase_of_open opened, indexed]
      exact .move .compile (.here .compiling)
    · cases List.mem_singleton.mp member

theorem InPhase.phase {p : Pass} (h : a.InPhase uri d) (pending : p ∈ a.pending uri) :
    d.phase = p.stage.phase := by
  cases h with
  | rests idle _ =>
    rw [idle] at pending
    cases pending
  | waits queued phase =>
    rw [queued] at pending
    rw [List.mem_singleton.mp pending]
    exact phase

/-- What a part of a step does to the phase of a document. -/
theorem Turn.travels (turn : Turn a action uri starting b) (phased : a.Phased uri) :
    ∃ made, Travels a b uri (action = .close uri) starting made := by
  cases turn with
  | rests none_starts _ same => exact ⟨[], same.travels phased none_starts⟩
  | closes none_starts own closed moves =>
    refine ⟨[], fun e opened => ?_, moves, fun stays => absurd own stays,
      not_parsing none_starts fun _ => List.not_mem_nil⟩
    rw [closed] at opened
    cases opened
  | @begins m d x starts _ enters onward =>
    have begun : Travels a m uri (action = .close uri) starting
        [(a.ownPhase uri, .parsing), (.parsing, .indexed)] := by
      refine ⟨.of_open enters.floor.opened (.rests enters.floor.idle enters.phase), enters.moves,
        fun _ => ?_, fun _ => starts, fun _ => ⟨a.ownPhase uri, List.mem_cons_self⟩⟩
      rw [ownPhase_of_open enters.floor.opened, enters.phase]
      exact .move (.parse _) (.move .index (.here .indexed))
    obtain ⟨more, travels⟩ := onward.travels enters.floor enters.phase
    have both := begun.trans travels
    rw [or_false] at both
    exact ⟨_, both⟩
  | @continues m _ _ _ none_starts due here waiting opened _ floor _ moves onward =>
    -- the pass that wakes is the pending one, and its stage tells the phase
    have indexed := (phased _ opened).phase (due.pending here)
    rw [waiting] at indexed
    have woken : Travels a m uri (action = .close uri) starting [] := by
      refine ⟨.of_open floor.opened (.rests floor.idle indexed), moves, fun _ => ?_,
        not_parsing none_starts fun _ => List.not_mem_nil⟩
      rw [ownPhase_of_open floor.opened, ownPhase_of_open opened]
      exact .here _
    obtain ⟨more, travels⟩ := onward.travels floor indexed
    have both := woken.trans travels
    rw [or_false] at both
    exact ⟨_, both⟩
  | finishes none_starts due here stage opened done _ phase _ idle _ moves =>
    have compiling := (phased _ opened).phase (due.pending here)
    rw [stage] at compiling
    refine ⟨_, .of_open done (.rests idle phase), moves, fun _ => ?_,
      not_parsing none_starts fun before member => ?_⟩
    · rw [ownPhase_of_open opened, ownPhase_of_open done, phase, compiling]
      exact .move .complete (.move .keep (.here .indexed))
    · simp at member

/-- All parts of a step together. -/
theorem Turns.travels (turns : Turns action uri starting a b) (phased : a.Phased uri) :
    ∃ made, Travels a b uri (action = .close uri) starting made := by
  induction turns with
  | last turn => exact turn.travels phased
  | next _ turn _ _ ih =>
    obtain ⟨made, first⟩ := turn.travels phased
    obtain ⟨more, rest⟩ := ih first.phased
    exact ⟨_, first.trans rest⟩

theorem Begun.phased (h : a.Begun uri) (steps : List Step) : (a.run steps).Phased uri := by
  induction steps using List.reverseRecOn with
  | nil =>
    intro d opened
    rw [run_nil, h.closed] at opened
    cases opened
  | append_singleton before s ih =>
    obtain ⟨_, travels⟩ := (h.turns before s).travels ih
    exact travels.phased

end Analysis

end RuleDesk
