import RuleDesk.Proofs.Parsing.Conditions
import RuleDesk.Proofs.Parsing.Nesting
import RuleDesk.Proofs.Parsing.Spans

namespace RuleDesk

/-! ## Reports of deep nesting

The first report skips to a place where parsing resumes, in panic mode. From
there nothing is read any more: what encloses it can only report once more, and
only as long as the parse stays at the limit. -/

namespace ParseState

/-- Where the next token starts, or where the last one ends. -/
def aheadStart (s : ParseState) : Nat := (s.next?.map (·.start)).getD s.input.here.offset

/-- A parse in panic mode at a place where parsing resumes. -/
structure Stuck (s : ParseState) : Prop where
  panicking : s.panicking = true
  sync : s.kindAhead?.all Parser.isSyncKind = true

/-- The report of deep nesting that skips nothing. -/
def again (s : ParseState) : SyntaxError := ⟨.nestingTooDeep, .point s.aheadStart⟩

/-- The state after so many of these reports. -/
def repeating (s : ParseState) (k : Nat) : ParseState :=
  { s with errors := s.errors ++ List.replicate k s.again }

/-- The first number at the limit of nesting, and the second one below it. -/
def quota (s : ParseState) (m n : Nat) : Nat := if maxNesting ≤ s.depth then m else n

variable {s t : ParseState} {low m n m' n' c k : Nat}

@[simp] theorem repeating_zero (s : ParseState) : s.repeating 0 = s := by
  rw [repeating, List.replicate_zero, List.append_nil]

theorem repeating_repeating (s : ParseState) (j k : Nat) :
    (s.repeating j).repeating k = s.repeating (j + k) := by
  show { s with errors := s.errors ++ List.replicate j s.again ++ List.replicate k s.again } =
    s.repeating (j + k)
  rw [List.append_assoc, List.replicate_append_replicate, repeating]

theorem tooDeep_repeating (s : ParseState) (k : Nat) :
    (s.repeating k).tooDeep = s.tooDeep ++ List.replicate k s.again := by
  have all : (List.replicate k s.again).filter (·.fault == .nestingTooDeep) =
    List.replicate k s.again :=
    List.filter_eq_self.mpr fun e member => List.eq_of_mem_replicate member ▸ rfl
  rw [tooDeep, repeating, List.filter_append, all, tooDeep]

theorem here_le_aheadStart (s : ParseState) : s.input.here.offset ≤ s.aheadStart := by
  unfold aheadStart
  cases next : s.next? with
  | none => exact Nat.le_refl _
  | some u => exact next?_start next

theorem Before.aheadStart_le (h : s.Before t) : s.aheadStart ≤ t.aheadStart := by
  cases h.reads with
  | nothing input => exact Nat.le_of_eq (by rw [aheadStart, aheadStart, next?, next?, input])
  | @tokens u after later next reaches =>
    obtain ⟨_, stop, _⟩ := Input.ahead_place next
    have first : s.aheadStart = u.start := by rw [aheadStart, next?, next]; rfl
    rw [first]
    calc u.start ≤ u.stop := Nat.le_add_right _ _
      _ = after.offset := stop.symm
      _ ≤ t.input.here.offset := reaches.offset_le
      _ ≤ t.aheadStart := t.here_le_aheadStart

@[simp] theorem quota_zero (s : ParseState) : s.quota 0 0 = 0 := ite_self 0

theorem quota_mono (h : m ≤ m') (h' : n ≤ n') : s.quota m n ≤ s.quota m' n' := by
  unfold quota
  split
  · exact h
  · exact h'

namespace Stuck

theorem repeating (h : s.Stuck) (k : Nat) : (s.repeating k).Stuck := ⟨h.panicking, h.sync⟩

/-- No token of another kind is ahead where parsing resumes. -/
theorem ahead_ne (h : s.Stuck) {k : Kind} (other : Parser.isSyncKind k = false) :
    s.kindAhead? ≠ some k := by
  intro ahead
  have sync := h.sync
  rw [ahead, Option.all_some, other] at sync
  cases sync

end Stuck

/-- Deep nesting was reported for the first time, and perhaps again, and
nothing of the text is left before the place where parsing resumes. -/
structure Cascades (m n : Nat) (s t : ParseState) : Prop where
  stuck : t.Stuck
  reports : ∃ first k, t.tooDeep = s.tooDeep ++ first :: List.replicate k t.again ∧
    k < t.quota m n ∧ first.span.Lies s.input.here.offset t.aheadStart

namespace Cascades

theorem weaken (h : s.Cascades m n t) (more : m ≤ m') (more' : n ≤ n') : s.Cascades m' n' t := by
  obtain ⟨first, k, same, few, lies⟩ := h.reports
  exact ⟨h.stuck, first, k, same, Nat.lt_of_lt_of_le few (quota_mono more more'), lies⟩

theorem repeating (h : s.Cascades m n t) (few : k ≤ t.quota c 0) (fits : m + c ≤ m') :
    s.Cascades m' n (t.repeating k) := by
  obtain ⟨first, j, same, less, lies⟩ := h.reports
  refine ⟨h.stuck.repeating k, first, j + k, ?_, ?_, lies⟩
  · rw [tooDeep_repeating, same, List.append_assoc, List.cons_append,
      List.replicate_append_replicate]
    rfl
  · show j + k < t.quota m' n
    unfold quota at few less ⊢
    split at few <;> rename_i deep
    · rw [if_pos deep] at less ⊢
      omega
    · rw [if_neg deep] at less ⊢
      omega

/-- The same from a state before, when nothing was reported in between. -/
theorem since (h : s.Cascades m n t) {r : ParseState} (silent : s.tooDeep = r.tooDeep)
    (before : r.input.here.offset ≤ s.input.here.offset) : r.Cascades m n t := by
  obtain ⟨first, k, same, few, lies⟩ := h.reports
  exact ⟨h.stuck, first, k, silent ▸ same, few, Nat.le_trans before lies.start, lies.begun,
    lies.stop⟩

end Cascades

/-- What comes between two states of a parse that leaves at least `low` levels
spent: no report of deep nesting, or a first one. -/
structure Outcome (low m n : Nat) (s t : ParseState) : Prop where
  least : low ≤ t.depth
  room : t.depth ≤ maxNesting
  reports : t.tooDeep = s.tooDeep ∨ s.Cascades m n t

theorem Outcome.weaken (h : s.Outcome low m n t) (more : m ≤ m') (more' : n ≤ n') :
    s.Outcome low m' n' t :=
  ⟨h.least, h.room, h.reports.imp_right (·.weaken more more')⟩

/-- A level is spent, which may be the last one. -/
theorem Outcome.deepen (h : s.Outcome low m n t) (shallow : ¬ maxNesting ≤ t.depth)
    (more : n ≤ m') :
    s.Outcome low m' n { t with depth := t.depth + 1 } := by
  have deeper : t.depth + 1 ≤ maxNesting := by omega
  refine ⟨Nat.le_succ_of_le h.least, deeper,
    h.reports.imp_right fun ⟨stuck, first, k, same, few, lies⟩ => ?_⟩
  refine ⟨⟨stuck.panicking, stuck.sync⟩, first, k, same, ?_, lies⟩
  rw [quota, if_neg shallow] at few
  unfold quota
  split <;> omega

/-- The same from a state before, when nothing was reported in between. -/
theorem Outcome.since (h : s.Outcome low m n t) {r : ParseState} (silent : s.tooDeep = r.tooDeep)
    (before : r.input.here.offset ≤ s.input.here.offset) : r.Outcome low m n t :=
  ⟨h.least, h.room, h.reports.imp (·.trans silent) (·.since silent before)⟩

/-- The last level is given back. -/
theorem Outcome.giveBack (h : s.Outcome (low + 1) m n t) (more : m ≤ n') (more' : n ≤ n') :
    s.Outcome low m' n' { t with depth := t.depth - 1 } := by
  have least := h.least
  have room := h.room
  have below : ¬ maxNesting ≤ t.depth - 1 := by
    have : 0 < maxNesting := by decide
    omega
  refine ⟨Nat.le_sub_one_of_lt least, Nat.le_trans (Nat.sub_le _ _) room,
    h.reports.imp_right fun ⟨stuck, first, k, same, few, lies⟩ => ?_⟩
  refine ⟨⟨stuck.panicking, stuck.sync⟩, first, k, same, ?_, lies⟩
  rw [quota, if_neg below]
  unfold quota at few
  split at few <;> omega

/-- It does not matter at what depth the parse was before. -/
theorem Outcome.anyDepth {depth : Nat} (h : { s with depth := depth }.Outcome low m n t) :
    s.Outcome low m n t :=
  h.since rfl (Nat.le_refl _)

end ParseState

namespace Parser

open ParseState

variable {low c d m n m' n' : Nat} {p : Parser α} {f : α → Parser β}

/-! ### How often is it reported? -/

/-- A part of the parser that, where it is stuck, reports deep nesting at most
so often, and reads nothing. -/
def Idle (low c : Nat) (p : Parser α) : Prop :=
  ∀ s : ParseState, s.Stuck → low ≤ s.depth → ∃ k ≤ s.quota c 0, (p.run s).2 = s.repeating k

/-- A part of the parser that reports deep nesting at most `m` times if the
parse is still at the limit behind it, and else at most `n` times. -/
def Reports (low m n : Nat) (p : Parser α) : Prop :=
  ∀ s : ParseState, low ≤ s.depth → s.depth ≤ maxNesting → s.Outcome low m n (p.run s).2

/-- Both of them. -/
structure Tally (low c m n : Nat) (p : Parser α) : Prop where
  idle : Idle low c p
  busy : Reports low m n p

/-- A part of the parser with no expressions in it, which does nothing where
the parse is stuck. -/
structure Mute (p : Parser α) : Prop where
  still : Still p
  stays : ∀ s, s.Stuck → (p.run s).2 = s

namespace Mute

theorem pure (a : α) : Mute (pure a) := ⟨.pure a, fun _ _ => rfl⟩

theorem bind (h : Mute p) (rest : ∀ a, Mute (f a)) : Mute (p >>= f) :=
  ⟨h.still.bind fun a => (rest a).still,
    fun s stuck => by rw [run_bind, h.stays s stuck, (rest _).stays s stuck]⟩

theorem look {g : ParseState → α} (run : ∀ s, p.run s = (g s, s)) : Mute p :=
  ⟨.look run, fun s _ => by rw [run]⟩

/-- What reads on only if a token of some kind is there. -/
theorem eat {f : Option Token → Parser β} {k : Kind} (other : isSyncKind k = false)
    (none : Mute (f none)) (some : ∀ t, Still (f (some t))) :
    Mute (eat k >>= f) := by
  refine ⟨(eat_still k).bind fun o => ?_, fun s stuck => ?_⟩
  · cases o with
    | none => exact none.still
    | some t => exact some t
  · rw [run_bind, run_eat, if_neg (stuck.ahead_ne other)]
    exact none.stays s stuck

end Mute

theorem unexpected_mute (expected : Expectation) : Mute (unexpected expected) :=
  ⟨unexpected_still expected, fun s stuck => by rw [run_unexpected, if_pos stuck.panicking]⟩

theorem expect_stuck {k : Kind} (other : isSyncKind k = false) {s : ParseState} (stuck : s.Stuck) :
    (expect k).run s = (none, s) := by
  rw [expect, run_bind, run_eat, if_neg (stuck.ahead_ne other)]
  show (_, ((unexpected _).run s).2) = _
  rw [(unexpected_mute _).stays s stuck]

theorem expect_mute {k : Kind} (other : isSyncKind k = false) : Mute (expect k) :=
  .eat other ((unexpected_mute _).bind fun _ => .pure _) fun _ => .pure _

namespace Idle

theorem pure (b : β) : Idle low c (Pure.pure b : Parser β) :=
  fun s _ _ => ⟨0, Nat.zero_le _, s.repeating_zero.symm⟩

theorem bind {P : α → Prop} (h : Idle low c p) (gives : p.Gives P)
    (rest : ∀ a, P a → Idle low d (f a)) :
    Idle low (c + d) (p >>= f) := by
  intro s stuck least
  obtain ⟨k, few, after⟩ := h s stuck least
  obtain ⟨k', few', after'⟩ := rest _ (gives s) _ (after ▸ stuck.repeating k) (after ▸ least)
  refine ⟨k + k', ?_, by rw [run_bind, after', after, repeating_repeating]⟩
  have few' : k' ≤ s.quota d 0 := by rwa [after] at few'
  unfold quota at few few' ⊢
  split at few <;> rename_i deep
  · rw [if_pos deep] at few' ⊢
    exact Nat.add_le_add few few'
  · rw [if_neg deep] at few' ⊢
    exact Nat.add_le_add few few'

theorem weaken (h : Idle low c p) (more : c ≤ d) : Idle low d p := fun s stuck least =>
  (h s stuck least).imp fun _ fact =>
    ⟨Nat.le_trans fact.1 (quota_mono more (Nat.le_refl 0)), fact.2⟩

end Idle

namespace Reports

theorem pure (b : β) : Reports low m n (Pure.pure b : Parser β) :=
  fun _ least room => ⟨least, room, .inl rfl⟩

theorem weaken (h : Reports low m n p) (more : m ≤ m') (more' : n ≤ n') : Reports low m' n' p :=
  fun s least room => (h s least room).weaken more more'

theorem still (h : Still p) (rest : ∀ a, Reports low m n (f a)) : Reports low m n (p >>= f) := by
  intro s least room
  obtain ⟨depth, silent⟩ := h s
  exact (rest (p.run s).1 (p.run s).2 (depth ▸ least) (depth ▸ room)).since silent
    (p.forward s).here_le

/-- What stands behind a report is idle. -/
theorem bind {P : α → Prop} (h : Reports low m n p) (gives : p.Gives P)
    (idle : ∀ a, P a → Idle low c (f a)) (fits : m + c ≤ m')
    (rest : ∀ a, P a → Reports low m' n (f a)) : Reports low m' n (p >>= f) := by
  intro s least room
  obtain ⟨least', room', silent | cascades⟩ := h s least room
  · exact (rest _ (gives s) (p.run s).2 least' room').since silent (p.forward s).here_le
  · obtain ⟨k, few, after⟩ := idle _ (gives s) _ cascades.stuck least'
    rw [run_bind, after]
    exact ⟨least', room', .inr (cascades.repeating few fits)⟩

end Reports

theorem Still.reports (h : Still p) : Reports low m n p := by
  intro s least room
  obtain ⟨depth, silent⟩ := h s
  exact ⟨depth ▸ least, depth ▸ room, .inl silent⟩

theorem Mute.idle (h : Mute p) : Idle low c p :=
  fun s stuck _ => ⟨0, Nat.zero_le _, by rw [h.stays s stuck, repeating_zero]⟩

theorem Mute.tally (h : Mute p) : Tally low c m n p := ⟨h.idle, h.still.reports⟩

namespace Tally

theorem pure (b : β) : Tally low c m n (Pure.pure b : Parser β) := ⟨.pure b, .pure b⟩

theorem weaken (h : Tally low c m n p) (more : c ≤ d) (more' : m ≤ m') : Tally low d m' n p :=
  ⟨h.idle.weaken more, h.busy.weaken more' (Nat.le_refl n)⟩

theorem mute (h : Mute p) (rest : ∀ a, Tally low c m n (f a)) : Tally low c m n (p >>= f) := by
  refine ⟨fun s stuck least => ?_, .still h.still fun a => (rest a).busy⟩
  rw [run_bind, h.stays s stuck]
  exact (rest _).idle s stuck least

/-- What stands behind may depend on what the first part can come to. -/
theorem after {e k : Nat} {P : α → Prop} (h : Tally low c m n p) (gives : p.Gives P)
    (rest : ∀ a, P a → Tally low d k n (f a))
    (fits : c + d ≤ e ∧ m + d ≤ m' ∧ k ≤ m') : Tally low e m' n (p >>= f) where
  idle := (h.idle.bind gives fun a held => (rest a held).idle).weaken fits.1
  busy := h.busy.bind gives (fun a held => (rest a held).idle) fits.2.1 fun a held =>
    (rest a held).busy.weaken fits.2.2 (Nat.le_refl n)

theorem bind {e k : Nat} (h : Tally low c m n p) (rest : ∀ a, Tally low d k n (f a))
    (fits : c + d ≤ e ∧ m + d ≤ m' ∧ k ≤ m') :
    Tally low e m' n (p >>= f) :=
  h.after (P := fun _ => True) (fun _ => trivial) (fun a _ => rest a) fits

theorem last (h : Tally low c m n p) (rest : ∀ a, Mute (f a)) : Tally low c m n (p >>= f) :=
  h.bind (d := 0) (k := m) (fun a => (rest a).tally) ⟨Nat.le_refl c, Nat.le_refl m, Nat.le_refl m⟩

/-- What is found only where the parse is not stuck. -/
theorem find {p : Parser (Option α)} {f : Option α → Parser β}
    (missing : ∀ s, s.Stuck → p.run s = (none, s)) (h : Still p)
    (none : Tally low c m n (f none)) (some : ∀ a, Reports low m n (f (some a))) :
    Tally low c m n (p >>= f) := by
  refine ⟨fun s stuck least => ?_, .still h fun o => ?_⟩
  · rw [run_bind, missing s stuck]
    exact none.idle s stuck least
  · cases o with
    | none => exact none.busy
    | some a => exact some a

theorem eat {f : Option Token → Parser β} {k : Kind} (other : isSyncKind k = false)
    (none : Tally low c m n (f none))
    (some : ∀ t, Reports low m n (f (some t))) : Tally low c m n (eat k >>= f) :=
  find (fun s stuck => by rw [run_eat, if_neg (stuck.ahead_ne other)]) (eat_still k) none some

/-- What is true only where the parse is not stuck. -/
theorem test {p : Parser Bool} {g : ParseState → Bool} {f : Bool → Parser β}
    (run : ∀ s, p.run s = (g s, s))
    (missing : ∀ s, s.Stuck → g s = false) (no : Tally low c m n (f false))
    (yes : Reports low m n (f true)) :
    Tally low c m n (p >>= f) := by
  refine ⟨fun s stuck least => ?_, .still (.look run) fun b => ?_⟩
  · rw [run_bind, run, missing s stuck]
    exact no.idle s stuck least
  · cases b with
    | false => exact no.busy
    | true => exact yes

theorem atKind {f : Bool → Parser β} {k : Kind} (other : isSyncKind k = false)
    (no : Tally low c m n (f false))
    (yes : Reports low m n (f true)) : Tally low c m n (atKind k >>= f) :=
  test (run_atKind · k) (fun _ stuck => beq_eq_false_iff_ne.mpr (stuck.ahead_ne other)) no yes

/-- Where the parse is stuck, the next token starts a section or an item. -/
theorem peek {f : Option Token → Parser β} (none : Tally low c m n (f none))
    (sync : ∀ t, isSyncKind t.kind = true → Idle low c (f (some t)))
    (some : ∀ t, Reports low m n (f (some t))) :
    Tally low c m n (peek >>= f) := by
  refine ⟨fun s stuck least => ?_, .still (.look run_peek) fun o => ?_⟩
  · rw [run_bind, run_peek]
    cases next : s.next? with
    | none => exact none.idle s stuck least
    | some t =>
      have kind := stuck.sync
      rw [kindAhead?_of_next next] at kind
      exact sync t kind s stuck least
  · cases o with
    | none => exact none.busy
    | some t => exact some t

end Tally

/-! ### The first report -/

theorem skipToSyncPoint_ends (s : ParseState) :
    (skipToSyncPoint.run s).2.kindAhead?.all isSyncKind = true := by
  have step : ∀ u, Ensures anywhere (skipStep u)
      (Ensures.round (fun _ => anywhere) fun _ t => t.kindAhead?.all isSyncKind = true) := by
    intro u t _
    rw [skipStep, run_bind, run_atSyncPoint, run_ite]
    split
    · rename_i sync
      exact sync
    · exact trivial
  exact Ensures.iterate skipStep_progress step () s trivial

theorem run_skipToSyncPoint_stuck {s : ParseState} (stuck : s.Stuck) :
    (skipToSyncPoint.run s).2 = s := by
  have done : (skipStep ()).run s = (.done (), s) := by
    rw [skipStep, run_bind, run_atSyncPoint, run_ite, if_pos stuck.sync]
    rfl
  rw [skipToSyncPoint, run_iterate_done done]

/-- The text that the first report skips. -/
def skippedSpan (s : ParseState) : Span :=
  ⟨s.aheadStart, max (skipToSyncPoint.run s).2.input.here.offset s.aheadStart⟩

theorem run_tooDeep (s : ParseState) :
    tooDeep.run s = (.error (skippedSpan s),
      (skipToSyncPoint.run s).2.panicked ⟨.nestingTooDeep, skippedSpan s⟩) := by
  have start :
      ((s.next?.map Token.span).getD (Span.point s.input.here.offset)).start = s.aheadStart := by
    unfold aheadStart
    cases s.next? <;> rfl
  rw [tooDeep, run_bind, run_spanAhead, skippedSpan, ← start]
  rfl

/-- Where the parse is stuck, nothing is skipped. -/
theorem run_tooDeep_stuck {s : ParseState} (stuck : s.Stuck) :
    (tooDeep.run s).2 = s.repeating 1 := by
  have empty : skippedSpan s = .point s.aheadStart := by
    rw [skippedSpan, run_skipToSyncPoint_stuck stuck, Nat.max_eq_right s.here_le_aheadStart]
    rfl
  rw [run_tooDeep, run_skipToSyncPoint_stuck stuck, empty]
  show { s with errors := s.errors ++ [s.again], panicking := true } =
    { s with errors := s.errors ++ [s.again] }
  rw [← stuck.panicking]

theorem tooDeep_reports (positive : 0 < m) (positive' : 0 < n) : Reports low m n tooDeep := by
  intro s least room
  obtain ⟨depth, silent⟩ := skipToSyncPoint_still s
  have before := skipToSyncPoint.forward s
  have start := s.here_le_aheadStart
  have further := before.aheadStart_le
  have stop := (skipToSyncPoint.run s).2.here_le_aheadStart
  rw [run_tooDeep]
  refine ⟨depth ▸ least, depth ▸ room,
    .inr ⟨⟨rfl, skipToSyncPoint_ends s⟩, ⟨.nestingTooDeep, skippedSpan s⟩, 0, ?_, ?_, ?_⟩⟩
  · show ((skipToSyncPoint.run s).2.errors ++ [_]).filter _ = _
    rw [List.filter_append, List.replicate_zero]
    exact congrArg (· ++ _) silent
  · unfold quota
    split
    · exact positive
    · exact positive'
  · exact ⟨start, further, Nat.max_le.mpr ⟨stop, further⟩⟩

/-! ### Constructs that nest -/

/-- Parts of the parser are the same if they run the same and ask for the same. -/
theorem ext_run {p q : Parser α} (h : ∀ s, p.run s = q.run s) (asked : ∀ s, p.calls s = q.calls s) :
    p = q := by
  obtain ⟨run, calls, forward⟩ := p
  obtain ⟨run', calls', forward'⟩ := q
  obtain rfl : run = run' := funext h
  obtain rfl : calls = calls' := funext asked
  rfl

theorem iterateIn_listStep (item : Parser Expr) (fuel : Nat) (es : List Expr) :
    iterateIn (listStep item) (fuel + 1) es = (do
      let e ← item
      if (← eat (.symbol .comma)).isSome then iterateIn (listStep item) fuel (es ++ [e])
        else return es ++ [e]) := by
  refine Parser.ext_run (fun s => ?_) fun s => ?_
  · simp only [iterateIn, listStep, run_bind]
    generalize (eat (.symbol .comma)).run (item.run s).2 = r
    obtain ⟨o, t⟩ := r
    cases o <;> rfl
  · simp only [iterateIn, listStep, calls_bind, run_bind, List.append_assoc]
    generalize (eat (.symbol .comma)).run (item.run s).2 = r
    obtain ⟨o, t⟩ := r
    cases o <;> rfl

/-- A list is over behind an item that gets stuck. -/
theorem list_tally {item : Parser Expr} (h : Tally low 1 1 n item) (es : List Expr) :
    Tally low 1 1 n (iterate (listStep item) es) := by
  have fueled : ∀ fuel es, Tally low 1 1 n (iterateIn (listStep item) fuel es) := by
    intro fuel
    induction fuel with
    | zero => exact fun es => .pure es
    | succ fuel ih =>
      intro es
      rw [iterateIn_listStep]
      exact h.bind (fun e => .eat (c := 0) rfl (.pure _) fun t => (ih _).busy) (by decide)
  exact .mute (.look run_look) fun s => fueled _ es

theorem rangeDots_mute : Mute rangeDots :=
  .eat rfl (unexpected_mute _) fun _ => (Still.look (run_nextAdjacent · _)).bind fun _ =>
    .ite (advance_still.bind fun _ => .pure _) (unexpected_still _)

theorem patternSet_mute : Mute patternSet := by
  refine .eat rfl ?_ fun _ => .pure _
  refine ⟨(expect_still _).bind fun o => ?_, fun s stuck => ?_⟩
  · cases o with
    | none => exact .pure _
    | some _ =>
      exact (Still.iterate setItemStep_still []).bind fun _ =>
        (expect_still _).bind fun _ => .pure _
  · have missing : (expect (.symbol .lparen)).run s = (none, s) := expect_stuck rfl stuck
    rw [run_bind, missing]
    rfl

theorem variables_mute : Mute (iterate variableStep []) := by
  refine ⟨.iterate variableStep_still [], fun s stuck => ?_⟩
  have done : (variableStep []).run s = (.done [], s) := by
    rw [variableStep, run_bind, expect_stuck rfl stuck]
    rfl
  rw [run_iterate_done done]

section Layer

variable {sub : Level → Parser Expr} (inner : ∀ level, Tally low 1 1 n (sub level))

include inner

theorem range_tally : Tally low 2 2 n (range sub) := by
  refine .mute (.look run_spanAhead) fun start => .mute (expect_mute rfl) fun _ => ?_
  refine (inner _).bind (fun lower => .mute rangeDots_mute fun _ => (inner _).last fun upper => ?_)
    (by decide)
  exact (expect_mute rfl).bind fun _ => (Mute.look run_pointHere).bind fun _ => .pure _

theorem anchor_tally : Tally low 0 2 n (anchor sub) := by
  refine .eat rfl (.eat rfl (.pure _) fun _ => ?_) fun _ => ?_
  · exact ((range_tally inner).last fun _ => .pure _).busy
  · exact (((inner _).last fun _ => .pure _).weaken (Nat.le_refl 1) (by decide)).busy

theorem arguments_tally : Tally low 1 1 n (arguments sub) := by
  refine .mute (.look (run_atKind · _)) fun closed => ?_
  split
  · exact .pure _
  · exact list_tally (inner _) []

theorem ofItem_tally : Tally low 1 1 n (ofItem sub) := by
  refine .find (fun s stuck => ?_) (.look Lockstep.run_wildcardAhead) (inner _) fun t => ?_
  · rw [Lockstep.run_wildcardAhead, Lockstep.wildcardOf, if_neg fun found =>
      stuck.ahead_ne rfl found.1]
  · exact .still advance_still fun _ => .still advance_still fun _ => .pure _

theorem ofItems_tally : Tally low 0 1 n (ofItems sub) := by
  have set : Mute (do return (OfItems.patterns (← patternSet) : OfItems Expr)) :=
    patternSet_mute.bind fun _ => .pure _
  refine .test run_atTuple (fun s stuck => ?_) set.tally ?_
  · rw [beq_eq_false_iff_ne.mpr (stuck.ahead_ne rfl), Bool.false_and]
  · refine .still advance_still fun _ =>
      ((list_tally (ofItem_tally inner) []).last fun _ => ?_).busy
    exact (expect_mute rfl).bind fun _ => .pure _

theorem ofExpr_tally (q : Quantifier Expr) : Tally low 0 2 n (ofExpr sub q) := by
  refine .mute (expect_mute rfl) fun _ =>
    (ofItems_tally inner).bind (fun items => (anchor_tally inner).last fun a => ?_) (by decide)
  exact (Mute.look run_pointHere).bind fun _ => .pure _

omit inner in
/-- None of the tokens that start a section or an item starts an expression. -/
theorem sync_starts_nothing {k : Kind} (sync : isSyncKind k = true) :
    quantifierWord? k = none ∧ atomOf? k = none ∧ signOperator? k = none ∧
      negationOperator? k = none := by
  cases k with
  | keyword w => cases w <;> first | exact ⟨rfl, rfl, rfl, rfl⟩ | exact nomatch sync
  | symbol w => cases w <;> first | exact ⟨rfl, rfl, rfl, rfl⟩ | exact nomatch sync
  | _ => exact nomatch sync

theorem quantifier_tally : Tally low 1 1 n (quantifier sub) := by
  have counted : Tally low 1 1 n (do
      let e ← sub .bitwise
      if (← eat (.symbol .percent)).isSome then return Quantifier.percentage e
      return Quantifier.count e) :=
    (inner _).last fun e => .eat rfl (.pure _) fun _ => .pure _
  refine .peek ?_ (fun t sync => ?_) fun t => ?_
  · exact .mute (unexpected_mute _) fun _ => .mute (.look run_pointHere) fun _ => .pure _
  · dsimp only
    rw [(sync_starts_nothing sync).1]
    exact counted.idle
  · dsimp only
    cases quantifierWord? t.kind with
    | some make => exact .still advance_still fun _ => .pure _
    | none => exact counted.busy

theorem loopBody_tally : Tally low 1 1 n (loopBody sub) := by
  refine .mute (expect_mute rfl) fun _ => .mute (.look run_spanAhead) fun start =>
    .mute (expect_mute rfl) fun _ => ?_
  exact (inner _).last fun e => (expect_mute rfl).bind fun _ =>
    (Mute.look run_pointHere).bind fun _ => .pure _

theorem iterable_tally : Tally low 1 1 n (iterable sub) := by
  have finish : ∀ es : List Expr,
    Mute (do let _ ← expect (.symbol .rparen); return Iterable.tuple es) :=
    fun es => (expect_mute rfl).bind fun _ => .pure _
  refine .eat rfl ((inner _).last fun e => .pure _) fun t => ?_
  refine ((inner _).bind (d := 0) (k := 1) (e := 1) (fun first => .atKind rfl ?_ ?_)
    (by decide)).busy
  · refine .eat rfl (finish [first]).tally fun _ => ?_
    exact ((list_tally (inner _) [first]).last finish).busy
  · refine .still rangeDots_mute.still fun _ => ((inner _).last fun upper => ?_).busy
    exact (expect_mute rfl).bind fun _ => (Mute.look run_pointHere).bind fun _ => .pure _

theorem forExpr_tally (start : Span) : Tally low 3 3 n (forExpr sub start) := by
  refine (quantifier_tally inner).bind (d := 2) (k := 2) (fun q => .eat rfl ?_ fun _ => ?_)
    (by decide)
  · refine .mute variables_mute fun vars => .mute (expect_mute rfl) fun _ => ?_
    refine (iterable_tally inner).bind (fun i => (loopBody_tally inner).last fun body => ?_)
      (by decide)
    exact (Mute.look run_pointHere).bind fun _ => .pure _
  · refine .still patternSet_mute.still fun set =>
      ((loopBody_tally inner).last fun body => ?_).busy.weaken (by decide) (Nat.le_refl n)
    exact (Mute.look run_pointHere).bind fun _ => .pure _

theorem index?_tally : Tally low 0 1 n (index? sub) := by
  refine .eat rfl (.pure _) fun _ => ((inner _).last fun e => ?_).busy
  exact (expect_mute rfl).bind fun _ => .pure _

theorem patternExpr_reports (k : Sigil) (t : Token) : Reports low 2 n (patternExpr sub k t) := by
  cases k with
  | identity => exact ((anchor_tally inner).last fun a => .pure _).busy
  | count =>
    have finish : ∀ o : Option (Bounds Expr),
      Mute (do return Expr.count (identOf t) o (t.span.through (← pointHere))) :=
      fun o => (Mute.look run_pointHere).bind fun _ => .pure _
    refine .still (eat_still _) fun o => ?_
    cases o with
    | none => exact (finish none).still.reports
    | some _ => exact ((range_tally inner).last fun b => finish (some b)).busy
  | offset | length =>
    refine ((index?_tally inner).last fun o => ?_).busy.weaken (by decide) (Nat.le_refl n)
    exact (Mute.look run_pointHere).bind fun _ => .pure _

theorem primary_tally : Tally low 0 3 n (primary sub) := by
  have deepest : ∀ {p : Parser Expr}, Reports low 2 n p → Reports low 3 n p :=
    fun h => h.weaken (by decide) (Nat.le_refl n)
  refine .peek (.mute (unexpected_mute _) fun _ => .mute (.look run_pointHere) fun _ => .pure _)
    (fun t sync => ?_) fun t => ?_
  · obtain ⟨word, atom, _⟩ := sync_starts_nothing sync
    have idle : Mute (do unexpected .expression; return Expr.error (.point t.start)) :=
      (unexpected_mute _).bind fun _ => .pure _
    dsimp only
    rw [atom]
    dsimp only
    split
    case h_6 =>
      rw [word]
      exact idle.idle
    all_goals
      rename_i kind
      rw [kind] at sync
      exact nomatch sync
  · dsimp only
    cases atomOf? t.kind with
    | some a => exact .still advance_still fun _ => .still (reportOpen_still t) fun _ => .pure _
    | none =>
      dsimp only
      split
      · exact .still advance_still fun _ => .still (integerValue_still t) fun _ => .pure _
      · exact .still advance_still fun _ => .pure _
      · exact .still advance_still fun _ => deepest (patternExpr_reports inner _ t)
      · refine .still advance_still fun _ =>
          deepest (((inner _).last fun e => ?_).busy.weaken (by decide) (Nat.le_refl n))
        exact (expect_mute rfl).bind fun _ => (Mute.look run_pointHere).bind fun _ => .pure _
      · exact .still advance_still fun _ => (forExpr_tally inner _).busy
      · cases quantifierWord? t.kind with
        | some make => exact .still advance_still fun _ => deepest (ofExpr_tally inner _).busy
        | none => exact .still (unexpected_still _) fun _ => .pure _

theorem applyLink_reports (e : Expr) (link : Link) : Reports low 1 n (applyLink sub e link) := by
  cases link with
  | field =>
    refine .still advance_still fun _ => .still advance_still fun o => ?_
    cases o with
    | none => exact .pure _
    | some t => exact .pure _
  | lookup =>
    refine .still advance_still fun _ => ((inner _).last fun index => ?_).busy
    exact (expect_mute rfl).bind fun _ => (Mute.look run_pointHere).bind fun _ => .pure _
  | call =>
    refine .still advance_still fun _ => ((arguments_tally inner).last fun args => ?_).busy
    exact (expect_mute rfl).bind fun _ => (Mute.look run_pointHere).bind fun _ => .pure _

/-- Where the parse is stuck there is no further link. -/
theorem linkStep_tally (positive : 0 < n) (e : Expr) : Tally low 0 1 n (linkStep sub low e) := by
  refine .find (fun s stuck => ?_) (.look Lockstep.run_linkAhead) (.pure _)
    fun link s least room => ?_
  · have none : Lockstep.linkOf s = none := by
      rw [← Option.not_isSome_iff_eq_none, Option.isSome_iff_exists]
      rintro ⟨link, found⟩
      rcases Lockstep.linkOf_eq_some found with ⟨_, ahead, _⟩ | ⟨_, ahead⟩ | ⟨_, ahead⟩
        <;> exact stuck.ahead_ne rfl ahead
    rw [Lockstep.run_linkAhead, none]
  · dsimp only
    rw [run_bind, run_getDepth, run_ite]
    split
    · exact (tooDeep_reports Nat.one_pos positive { s with depth := low } (Nat.le_refl _)
        (Nat.le_trans least room)).anyDepth
    · have deeper : s.depth + 1 ≤ maxNesting := by omega
      exact (applyLink_reports inner e link { s with depth := s.depth + 1 }
        (Nat.le_succ_of_le least) deeper).anyDepth

end Layer

/-- Steps that do nothing where the parse is stuck. -/
theorem Tally.iterate {step : α → Parser (ForInStep α)} {holds : α → Prop}
    (steps : ∀ a, holds a → Tally low 0 m n (step a))
    (keeps : ∀ a, holds a → (step a).Gives fun r => holds r.value) {a : α} (start : holds a) :
    Tally low 0 m n (iterate step a) := by
  have fueled : ∀ fuel a, holds a → Tally low 0 m n (iterateIn step fuel a) := by
    intro fuel
    induction fuel with
    | zero => exact fun a _ => .pure a
    | succ fuel ih =>
      refine fun a held => (steps a held).after (d := 0) (keeps a held) (fun r held' => ?_)
        ⟨Nat.le_refl 0, Nat.le_refl m, Nat.le_refl m⟩
      cases r with
      | done b => exact .pure b
      | yield b => exact ih b held'
  exact .mute (.look run_look) fun s => fueled _ a start

section Layer

variable {sub : Level → Parser Expr}
    (inner : ∀ depth, low ≤ depth → ∀ level, Tally depth 1 1 n (sub level)) (positive : 0 < n)

include inner positive

/-- The levels of the links are given back, and fewer reports are allowed at
the limit than below it. -/
theorem links_tally (e : Expr) : Tally low 0 1 n (do
    let depth ← getDepth
    let e ← iterate (linkStep sub depth) e
    setDepth depth
    return e) := by
  have links : ∀ depth, low ≤ depth → Tally depth 0 1 n (iterate (linkStep sub depth) e) := by
    intro depth least
    have steps : ∀ e, True → Tally depth 0 1 n (linkStep sub depth e) :=
      fun e _ => linkStep_tally (inner depth least) positive e
    exact .iterate steps (fun _ _ _ => trivial) trivial
  refine ⟨fun s stuck least => ?_, fun s least room => ?_⟩
  · obtain ⟨k, few, after⟩ := (links s.depth least).idle s stuck (Nat.le_refl _)
    obtain rfl : k = 0 := by rwa [quota_zero, Nat.le_zero] at few
    refine ⟨0, Nat.zero_le _, ?_⟩
    show { ((iterate (linkStep sub s.depth) e).run s).2 with depth := s.depth } = s.repeating 0
    rw [after, repeating_zero]
  · obtain ⟨least', room', reports⟩ := (links s.depth least).busy s (Nat.le_refl _) room
    refine ⟨least, room, reports.imp_right fun ⟨stuck, first, k, same, few, lies⟩ => ?_⟩
    refine ⟨⟨stuck.panicking, stuck.sync⟩, first, k, same, ?_, lies⟩
    show k < s.quota 1 n
    unfold quota at few ⊢
    split <;> split at few <;> omega

theorem postfixExpr_tally : Tally low 0 3 n (postfixExpr sub) :=
  (primary_tally (inner low (Nat.le_refl low))).bind (fun e => links_tally inner positive e)
    (by decide)

end Layer

/-! ### Chains of operators -/

/-- What is made of one operand more of a chain. -/
def extendChain (lhs : Expr) (chained : Bool) (op : BinaryOp) (rhs : Expr) :
    Parser (ForInStep (Expr × Bool)) := do
  match if chained then lhs.append? op rhs else none with
  | some e => return .yield (e, true)
  | none =>
    if chained then
      if maxNesting ≤ (← getDepth) then return .done (← tooDeep, true)
      setDepth ((← getDepth) + 1)
    return .yield (.pair op lhs rhs, true)

theorem chainStep_eq (operator : Parser (Option BinaryOp)) (operand : Parser Expr) (lhs : Expr)
    (chained : Bool) :
    chainStep operator operand (lhs, chained) = operator >>= fun o =>
      match o with
      | none => return .done (lhs, chained)
      | some op => advance >>= fun _ => operand >>= extendChain lhs chained op := rfl

/-- A chain that got stuck may be extended once more, which reports deep nesting
again where its operator is another one and no level is left. -/
theorem extendChain_outcome {lhs rhs : Expr} {chained : Bool} {op : BinaryOp} {s t : ParseState}
    (out : s.Outcome low m n t)
    (before : s.input.here.offset ≤ t.input.here.offset) (wide : m ≤ m') (wide' : n ≤ m')
    (positive : 0 < n) (room : m < m' ∨ (chained = true → (lhs.append? op rhs).isSome)) :
    s.Outcome low m' n ((extendChain lhs chained op rhs).run t).2 := by
  have extended := out.weaken wide (Nat.le_refl n)
  unfold extendChain
  cases chained with
  | false => exact extended
  | true =>
    simp only [if_true]
    cases longer : lhs.append? op rhs with
    | some e => exact extended
    | none =>
      have more : m < m' := room.resolve_right fun always => by simp [longer] at always
      dsimp only
      rw [run_bind, run_getDepth, run_ite]
      split
      · rename_i deep
        show s.Outcome low m' n (tooDeep.run t).2
        obtain ⟨least, most, silent | cascades⟩ := out
        · exact (tooDeep_reports (Nat.zero_lt_of_lt more) positive t least most).since silent before
        · rw [run_tooDeep_stuck cascades.stuck]
          have once : 1 ≤ t.quota 1 0 := Nat.le_of_eq (if_pos deep).symm
          exact ⟨least, most, .inr (cascades.repeating once more)⟩
      · exact out.deepen ‹_› wide'

/-- No operator is found where the parse is stuck. -/
theorem Finds.missing {level : Nat} {operator : Parser (Option BinaryOp)}
    (finds : Finds level operator) {s : ParseState}
    (stuck : s.Stuck) : operator.run s = (none, s) := by
  obtain ⟨g, run, found⟩ := finds
  rw [run]
  cases is_op : g s with
  | none => rfl
  | some op =>
    have other : isSyncKind op.kind = false := by cases op <;> rfl
    exact absurd (found s op is_op).2 (stuck.ahead_ne other)

/-- Chains of operators of which there is only one never change their operator. -/
inductive Uniform (op : BinaryOp) : Expr × Bool → Prop
  | operand (e : Expr) : Uniform op (e, false)
  | node (operands : List Expr) (span : Span) : Uniform op (.binary op operands span, true)

/-- Levels that have one operator. -/
theorem BinaryOp.eq_of_level {op x : BinaryOp} (single : op ∈ [.or, .and, .bitOr, .bitXor, .bitAnd])
    (same : x.level = op.level) :
    x = op := by
  simp only [List.mem_cons, List.not_mem_nil, or_false] at single
  rcases single with rfl | rfl | rfl | rfl | rfl <;> cases x <;> first | rfl | exact nomatch same

section Chain

variable {level : Nat} {operator : Parser (Option BinaryOp)} {operand : Parser Expr}
  (finds : Finds level operator) (inner : Tally low 0 m n operand) (positive : 0 < n)

include finds inner positive

theorem chainStep_tally (wide : m ≤ m') (wide' : n ≤ m') (lhs : Expr) (chained : Bool)
    (room : ∀ op rhs s, (operator.run s).1 = some op → m < m' ∨
    (chained = true → (lhs.append? op rhs).isSome)) :
    Tally low 0 m' n (chainStep operator operand (lhs, chained)) := by
  rw [chainStep_eq]
  refine ⟨fun s stuck least => ?_, fun s least most => ?_⟩
  · rw [run_bind, finds.missing stuck]
    exact Idle.pure (ForInStep.done (lhs, chained)) s stuck least
  · obtain ⟨g, run, _⟩ := finds
    rw [run_bind, run]
    cases found : g s with
    | none => exact Reports.pure _ s least most
    | some op =>
      dsimp only
      have advanced : Reports low m n (advance >>= fun _ => operand) :=
        .still advance_still fun _ => inner.busy
      exact extendChain_outcome (advanced s least most)
        ((advance >>= fun _ => operand).forward s).here_le
        wide wide' positive (room op _ s (by rw [run, found]))

/-- With every change of the operator deep nesting may be reported once more. -/
theorem chainFrom_tally (wide : m < m') (wide' : n ≤ m') (lhs : Expr) :
    Tally low 0 m' n (chainFrom lhs operator operand) := by
  have steps : ∀ c, True → Tally low 0 m' n (chainStep operator operand c) :=
    fun (lhs, chained) _ =>
    chainStep_tally finds inner positive (Nat.le_of_lt wide) wide' lhs chained
      fun _ _ _ _ => .inl wide
  exact (Tally.iterate steps (fun _ _ _ => trivial) trivial).last fun _ => .pure _

theorem chain_tally (wide : m < m') (wide' : n ≤ m') : Tally low 0 m' n (chain operator operand) :=
  inner.bind (fun lhs => chainFrom_tally finds inner positive wide wide' lhs)
    ⟨Nat.le_refl 0, Nat.le_of_lt wide, Nat.le_refl m'⟩

/-- A level with one operator reports no more than its operands. -/
theorem uniformChain_tally (op : BinaryOp) (same : level = op.level)
    (single : op ∈ [.or, .and, .bitOr, .bitXor, .bitAnd]) (wide : n ≤ m) :
    Tally low 0 m n (chain operator operand) := by
  have only : operator.Gives fun o => ∀ x ∈ o, x = op := by
    obtain ⟨g, run, found⟩ := finds
    intro s x read
    rw [run] at read
    exact BinaryOp.eq_of_level single ((found s x read).1.trans same)
  have steps : ∀ c, Uniform op c → Tally low 0 m n (chainStep operator operand c) := by
    intro c uniform
    refine chainStep_tally finds inner positive (Nat.le_refl m) wide c.1 c.2 fun o rhs s found =>
      .inr fun chained => ?_
    obtain rfl := only s o found
    cases uniform with
    | operand => cases chained
    | node operands span => rw [Expr.append?, if_pos rfl]; rfl
  have keeps : ∀ c, Uniform op c → (chainStep operator operand c).Gives fun r =>
      Uniform op r.value := by
    rintro ⟨lhs, chained⟩ uniform
    refine only.after fun o same => ?_
    cases o with
    | none => exact .pure uniform
    | some o =>
      obtain rfl := same o rfl
      refine .bind fun _ => .bind fun rhs => ?_
      cases uniform with
      | operand => exact .pure (.node _ _)
      | node operands span =>
        simp only [if_true, Expr.append?]
        exact .pure (.node _ _)
  have links : ∀ lhs, Tally low 0 m n (chainFrom lhs operator operand) := fun lhs =>
    (Tally.iterate steps keeps (.operand lhs)).last fun _ => .pure _
  exact inner.bind links ⟨Nat.le_refl 0, Nat.le_refl m, Nat.le_refl m⟩

end Chain

/-! ### The levels of an expression -/

theorem prefixed_tally {sub : Level → Parser Expr} {table : Kind → Option UnaryOp} {level : Level}
    {bare : Parser Expr}
    (inner : Tally low 1 1 n (sub level)) (none : ∀ k, isSyncKind k = true → table k = none)
    (h : Tally low 0 m n bare)
    (wide : 1 ≤ m) : Tally low 0 m n (prefixed sub table level bare) := by
  refine .peek h (fun t sync => ?_) fun t => ?_
  · dsimp only
    rw [none _ sync]
    exact h.idle
  · dsimp only
    cases table t.kind with
    | none => exact h.busy
    | some op =>
      exact .still advance_still fun _ =>
        (inner.last fun e => .pure _).busy.weaken wide (Nat.le_refl n)

section Layer

variable {sub : Level → Parser Expr}
    (inner : ∀ depth, low ≤ depth → ∀ level, Tally depth 1 1 n (sub level)) (enough : 4 ≤ n)

include inner enough

/-- Products, sums and shifts have more than one operator. -/
theorem bitOrExpr_tally : Tally low 0 (n + 2) n (bitOrExpr sub) := by
  have positive : 0 < n := by omega
  have sign : Tally low 0 3 n (signExpr sub) :=
    prefixed_tally (inner low (Nat.le_refl low) _) (fun k sync => (sync_starts_nothing sync).2.2.1)
      (postfixExpr_tally inner positive) (by decide)
  have product : Tally low 0 n n (productExpr sub) :=
    chain_tally productOperatorAhead_finds sign positive enough (Nat.le_refl n)
  have sum : Tally low 0 (n + 1) n (sumExpr sub) :=
    chain_tally (operatorOf_finds (tables_sound (l := 8) (by simp))) product positive (by omega)
      (by omega)
  have shift : Tally low 0 (n + 2) n (shiftExpr sub) :=
    chain_tally (operatorOf_finds (tables_sound (l := 7) (by simp))) sum positive (by omega)
      (by omega)
  have bitAnd : Tally low 0 (n + 2) n (bitAndExpr sub) :=
    uniformChain_tally (operatorOf_finds (tables_sound (l := 6) (by simp))) shift positive .bitAnd
      rfl (by decide) (by omega)
  have bitXor : Tally low 0 (n + 2) n (bitXorExpr sub) :=
    uniformChain_tally (operatorOf_finds (tables_sound (l := 5) (by simp))) bitAnd positive .bitXor
      rfl (by decide) (by omega)
  exact uniformChain_tally (operatorOf_finds (tables_sound (l := 4) (by simp))) bitXor positive
    .bitOr rfl (by decide) (by omega)

theorem comparisonExpr_tally : Tally low 0 (n + 3) n (comparisonExpr sub) := by
  have inner' := inner low (Nat.le_refl low)
  have counted : ∀ q : Quantifier Expr, Reports low (n + 3) n (ofExpr sub q) := fun q =>
    (ofExpr_tally inner' q).busy.weaken (by omega) (Nat.le_refl n)
  have operand := bitOrExpr_tally inner enough
  refine operand.bind (d := 0) (k := n + 3) (fun lhs => .atKind rfl ?_ (counted _))
    ⟨Nat.le_refl 0, by omega, Nat.le_refl _⟩
  have links :
    Tally low 0 (n + 3) n (chainFrom lhs (operatorOf comparisonOperator) (bitOrExpr sub)) :=
    chainFrom_tally (operatorOf_finds (tables_sound (l := 3) (by simp))) operand (by omega)
      (by omega) (by omega) lhs
  rw [if_neg Bool.false_ne_true]
  refine ⟨fun s stuck => ?_, .still (.look run_atPercentOf) fun b => ?_⟩
  · have none : percentOf s = false := by
      rw [percentOf, beq_eq_false_iff_ne.mpr (stuck.ahead_ne rfl), Bool.false_and]
    rw [run_bind, run_atPercentOf, none]
    exact links.idle s stuck
  · cases b with
    | true => exact .still advance_still fun _ => counted _
    | false => exact links.busy

theorem layer_tally (level : Level) : Tally low 0 (n + 3) n (layer sub level) := by
  have inner' := inner low (Nat.le_refl low)
  have negation : Tally low 0 (n + 3) n (negationExpr sub) :=
    prefixed_tally (inner' _) (fun k sync => (sync_starts_nothing sync).2.2.2)
      (comparisonExpr_tally inner enough) (by omega)
  cases level with
  | expression =>
    have and : Tally low 0 (n + 3) n (andExpr sub) :=
      uniformChain_tally (operatorOf_finds (tables_sound (l := 1) (by simp))) negation
        (by omega) .and rfl (by decide) (by omega)
    exact uniformChain_tally (operatorOf_finds (tables_sound (l := 0) (by simp))) and
      (by omega) .or rfl (by decide) (by omega)
  | negation => exact negation
  | bitwise => exact (bitOrExpr_tally inner enough).weaken (Nat.le_refl 0) (by omega)
  | sign =>
    exact (prefixed_tally (inner' _) (fun k sync => (sync_starts_nothing sync).2.2.1)
      (postfixExpr_tally inner (by omega)) (by decide)).weaken (Nat.le_refl 0) (by omega)

end Layer

/-- How often deep nesting is reported by what is parsed with a budget: three
times more in each level around it, for three of its four levels of operators
that can change. -/
def reportBound (budget : Nat) : Nat := 3 * budget + 4

theorem nested_tally {low budget : Nat} (enough : maxNesting ≤ low + budget) (level : Level) :
    Tally low 1 1 (reportBound budget) (nested budget level) := by
  induction budget generalizing low level with
  | zero =>
    refine ⟨fun s stuck least => ⟨1, ?_, run_tooDeep_stuck stuck⟩,
      tooDeep_reports Nat.one_pos (Nat.succ_pos _)⟩
    exact Nat.le_of_eq (if_pos (Nat.le_trans enough least)).symm
  | succ budget ih =>
    have inner : ∀ depth, low + 1 ≤ depth →
      ∀ level, Tally depth 1 1 (reportBound budget) (nested budget level) :=
      fun depth deeper level => ih (by omega) level
    obtain ⟨idle, busy⟩ := layer_tally inner (Nat.le_add_left 4 _) level
    refine ⟨fun s stuck least => ?_, fun s least room => ?_⟩
    · rw [nested, run_bind, run_getDepth, run_ite]
      split
      · rename_i deep
        exact ⟨1, Nat.le_of_eq (if_pos deep).symm, run_tooDeep_stuck stuck⟩
      · obtain ⟨k, few, after⟩ := idle { s with depth := s.depth + 1 } ⟨stuck.panicking, stuck.sync⟩
          (Nat.succ_le_succ least)
        obtain rfl : k = 0 := by rwa [quota_zero, Nat.le_zero] at few
        refine ⟨0, Nat.zero_le _, ?_⟩
        show { ((layer (nested budget) level).run { s with depth := s.depth + 1 }).2 with
          depth := ((layer (nested budget) level).run { s with depth := s.depth + 1 }).2.depth -
            1 } = s.repeating 0
        rw [after, repeating_zero, repeating_zero]
        rfl
    · rw [nested, run_bind, run_getDepth, run_ite]
      split
      · exact tooDeep_reports Nat.one_pos (Nat.succ_pos _) s least room
      · have deeper : s.depth + 1 ≤ maxNesting := by omega
        have out := (busy { s with depth := s.depth + 1 } (Nat.succ_le_succ least) deeper).anyDepth
        exact out.giveBack (by simp only [reportBound]; omega) (by simp only [reportBound]; omega)

/-- What a whole expression reports. -/
theorem expression_reports (s : ParseState) :
    ParseState.Outcome 0 1 388 s (expression.run s).2 := by
  have whole := (nested_tally (Nat.le_add_left maxNesting 0) .expression).busy { s with depth := 0 }
    (Nat.le_refl _) (Nat.zero_le _)
  exact whole.anyDepth

end Parser

end RuleDesk
