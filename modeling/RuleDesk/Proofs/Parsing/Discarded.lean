import RuleDesk.Proofs.Parsing.Resume
import RuleDesk.Proofs.Parsing.RuleBodies

namespace RuleDesk

/-! ## Where panic mode ends

In panic mode tokens are discarded without an error. It starts with an error, and it
ends at the keyword of a section and at the keywords of an item, but not at the brace
that closes a rule. So what is discarded behind such a keyword has an error behind it. -/

namespace Parser

theorem unexpected_input (expected : Expectation) (s : ParseState) :
    ((unexpected expected).run s).2.input = s.input := by
  rw [run_unexpected]
  split <;> rfl

theorem unexpected_read (expected : Expectation) (s : ParseState) :
    ((unexpected expected).run s).2.read = s.read := by
  rw [run_unexpected]
  split <;> rfl

theorem unexpected_next (expected : Expectation) (s : ParseState) :
    ((unexpected expected).run s).2.next? = s.next? := by
  rw [ParseState.next?, unexpected_input]
  rfl

end Parser

namespace ParseState

variable {low high : Nat} {s t : ParseState} {u : Token}

/-- What panic mode comes from behind an offset: an error that starts there or later, but
not behind the next token. -/
structure Alert (low : Nat) (s : ParseState) : Prop where
  here : low ≤ s.aheadStart
  read : ∀ u ∈ s.read, u.start < u.stop ∧ u.stop ≤ s.input.here.offset
  error : s.panicking → ∃ e ∈ s.errors, low ≤ e.span.start ∧ e.span.start ≤ Parser.sectionStop s

namespace Alert

theorem stop_le (h : Alert low s) (member : u ∈ s.read) : u.stop ≤ Parser.sectionStop s :=
  Nat.le_trans (h.read u member).2 (Nat.le_trans s.here_le_aheadStart s.aheadStart_le_stop)

/-- Without panic mode any offset will do. -/
theorem calm (h : Alert low s) (quiet : ¬ s.panicking) (here : high ≤ s.aheadStart) :
    Alert high s :=
  ⟨here, h.read, fun panicking => (quiet panicking).elim⟩

theorem panicked (h : Alert low s) {e : SyntaxError} (start : low ≤ e.span.start)
    (stop : e.span.start ≤ Parser.sectionStop s) :
    Alert low (s.panicked e) :=
  ⟨h.here, h.read, fun _ => ⟨e, List.mem_append_right _ (List.mem_singleton_self _), start, stop⟩⟩

theorem reported (h : Alert low s) (e : SyntaxError) : Alert low (s.reported e) :=
  ⟨h.here, h.read, fun panicking => have ⟨e', member, place⟩ := h.error panicking;
    ⟨e', List.mem_append_left _ member, place⟩⟩

theorem advanced (h : Alert low s) (mode : Mode) : Alert low (s.advanced mode) := by
  have step := (Parser.advanceInto mode).forward s
  rw [Parser.run_advanceInto] at step
  refine ⟨Nat.le_trans h.here step.aheadStart_le, ?_, ?_⟩
  · cases next : s.next? with
    | none =>
      rw [advanced_of_none next]
      exact h.read
    | some u =>
      rw [advanced_read next, advanced_here next]
      refine List.forall_mem_cons.mpr ⟨⟨next?_wide next, Nat.le_refl _⟩, fun v member => ?_⟩
      have old := (h.read v member).2
      exact ⟨(h.read v member).1,
        Nat.le_trans old (Nat.le_trans (next?_start next) (Nat.le_of_lt (next?_wide next)))⟩
  · rw [advanced_panicking, advanced_errors]
    intro panicking
    obtain ⟨e, member, start, stop⟩ := h.error panicking
    exact ⟨e, member, start, Nat.le_trans stop step.sectionStop_le⟩

theorem unexpected (h : Alert low s) (expected : Expectation) :
    Alert low ((Parser.unexpected expected).run s).2 := by
  rw [Parser.run_unexpected]
  split
  · exact h
  · have place : (s.unexpectedError expected).span.start = Parser.sectionStop s := by
      unfold unexpectedError Parser.sectionStop
      cases s.next? <;> rfl
    exact h.panicked (place ▸ Nat.le_trans h.here s.aheadStart_le_stop) (Nat.le_of_eq place)

/-- Where a token does not fit there is an error, now or before. -/
theorem unfit (h : Alert low s) (expected : Expectation) (next : s.next? = some u) :
    ∃ e ∈ ((Parser.unexpected expected).run s).2.errors, low ≤ e.span.start ∧
      e.span.start ≤ u.start := by
  have alert := h.unexpected expected
  have place : Parser.sectionStop s = u.start := by rw [Parser.sectionStop, next]; rfl
  rw [← place]
  have panics : ((Parser.unexpected expected).run s).2.panicking := by
    rw [Parser.run_unexpected]
    split
    · assumption
    · rfl
  have same : Parser.sectionStop ((Parser.unexpected expected).run s).2 = Parser.sectionStop s := by
    unfold Parser.sectionStop textStop
    rw [Parser.unexpected_next, Parser.unexpected_input]
  exact same ▸ alert.error panics

end Alert

theorem Before.mem_read (h : s.Before t) : ∀ u ∈ t.read, u ∈ s.read ∨ s.aheadStart ≤ u.start := by
  cases h.reads with
  | nothing _ read => exact fun u member => .inl (read ▸ member)
  | @tokens v after later next reaches read ordered =>
    have first : s.aheadStart = v.start := by rw [aheadStart, next?, next]; rfl
    rw [read, first]
    refine List.forall_mem_append.mpr
      ⟨fun u member => .inr ?_, List.forall_mem_cons.mpr ⟨.inr (Nat.le_refl _), fun u => .inl⟩⟩
    exact Nat.le_trans (Nat.le_add_right _ _) (ordered u member)

end ParseState

namespace Parser

open ParseState (Alert)

/-- A part that starts panic mode with an error and does not end it. -/
def Wary (p : Parser α) : Prop := ∀ low, Ensures (Alert low) p fun _ => Alert low

namespace Wary

variable {p : Parser α} {f : α → Parser β}

theorem bind (h : Wary p) (rest : ∀ a, Wary (f a)) : Wary (p >>= f) :=
  fun low => (h low).bind fun a => rest a low

theorem iterate {step : α → Parser (ForInStep α)} (steps : ∀ a, Wary (step a)) (a : α) :
    Wary (iterate step a) := by
  have fueled : ∀ fuel a, Wary (iterateIn step fuel a) := by
    intro fuel
    induction fuel with
    | zero => exact fun _ _ _ h => h
    | succ fuel ih =>
      refine fun a => (steps a).bind fun r => ?_
      cases r with
      | done b => exact fun _ _ h => h
      | yield b => exact ih b
  exact fun low s => fueled (s.input.here.rest.length + 1) a low s

theorem advanceInto (mode : Mode) : Wary (advanceInto mode) := fun low s h => by
  rw [run_advanceInto]
  exact h.advanced mode

theorem skipToSyncPoint : Wary skipToSyncPoint := by
  refine iterate (fun _ low s h => ?_) ()
  rw [skipStep, run_bind, run_atSyncPoint, run_ite]
  split
  · exact h
  · exact advanceInto .normal low s h

theorem tooDeep : Wary tooDeep := by
  intro low s h
  rw [run_tooDeep]
  have step := Parser.skipToSyncPoint.forward s
  refine (skipToSyncPoint low s h).panicked h.here ?_
  exact Nat.le_trans step.aheadStart_le (ParseState.aheadStart_le_stop _)

end Wary

theorem Composed.wary {plain : Bool} {front : Option Kind} {α : Type} {p : Parser α}
    (h : Composed plain front p) : Wary p := by
  induction h with
  | pure a => exact fun _ _ h => h
  | bind _ _ first rest => exact first.bind rest
  | facing _ _ nothing token =>
    refine .bind (fun _ _ h => h) fun o => ?_
    cases o with
    | none => exact nothing
    | some t => exact token t
  | any _ h => exact h
  | sees g run =>
    intro low s h
    rw [run]
    exact h
  | advance => exact .advanceInto .normal
  | opens mode => exact .advanceInto mode
  | report fault span => exact fun _ _ h => h.reported _
  | unexpected expected => exact fun _ _ h => h.unexpected expected
  | setDepth n => exact fun _ _ h => ⟨h.here, h.read, h.error⟩
  | iterate _ a steps => exact .iterate steps a
  | tooDeep => exact .tooDeep

end Parser

/-! ### The body of a rule -/

/-- A token in the body of a rule that is in no section of it and does not close it. -/
structure Rule.Drops (r : Rule) (t : Token) : Prop where
  sections : ∀ sec ∈ r.sections, ¬ sec.span.contains t.span
  rbrace : r.rbrace ≠ some t.span

namespace Parser

variable {low first top : Nat} {r q : Rule} {s t : ParseState}

/-- A rule whose body is being read. At the offset `low` panic mode has ended for the
rule, its name starts at `first` or before it, and its body starts at `top`. -/
structure Watched (low first top : Nat) (r : Rule) (s : ParseState) : Prop where
  alert : ∃ n, low ≤ n ∧ (∀ sec ∈ r.sections, sec.keyword.start ≤ n) ∧ s.Alert n
  name : r.ident.span.start ≤ first
  lbrace : ∀ b ∈ r.lbrace, top ≤ b.stop
  sections : ∀ sec ∈ r.sections, top ≤ sec.keyword.start ∧ sec.keyword.start ≤ s.input.here.offset
  found : ∀ t ∈ s.read, top ≤ t.start → r.Drops t → ∃ e ∈ s.errors, low ≤ e.span.start ∧
    e.span.start ≤ t.start ∧
    ∀ sec ∈ r.sections, sec.keyword.start ≤ t.start → sec.keyword.start ≤ e.span.start

namespace Watched

/-- Where nothing is read, the rule stays as it is. -/
theorem stays (h : Watched low first top r s) (input : t.input = s.input) (read : t.read = s.read)
    (errors : s.errors <+: t.errors)
    (alert : ∀ n, s.Alert n → t.Alert n) : Watched low first top r t where
  alert := have ⟨n, le, passed, before⟩ := h.alert; ⟨n, le, passed, alert n before⟩
  name := h.name
  lbrace := h.lbrace
  sections := input ▸ h.sections
  found u member behind drops :=
    have ⟨e, known, place⟩ := h.found u (read ▸ member) behind drops
    ⟨e, errors.subset known, place⟩

theorem reported (h : Watched low first top r s) (e : SyntaxError) :
    Watched low first top r (s.reported e) :=
  h.stays rfl rfl (List.prefix_append _ _) fun _ alert => alert.reported e

theorem calm (h : Watched low first top r s) :
    Watched low first top r { s with panicking := false } :=
  h.stays rfl rfl (List.prefix_refl _) fun _ alert => ⟨alert.here, alert.read, nofun⟩

theorem unexpected (h : Watched low first top r s) (expected : Expectation) :
    Watched low first top r ((unexpected expected).run s).2 := by
  refine h.stays (unexpected_input ..) (unexpected_read ..) ?_ fun _ alert =>
    alert.unexpected expected
  exact ((Parser.unexpected expected).forward s).errors

/-- The next token is in the rule, or it is dropped with an error. -/
theorem advanced (h : Watched low first top r s) {u : Token} (next : s.next? = some u)
    (found : r.Drops u → ∃ e ∈ s.errors, low ≤ e.span.start ∧ e.span.start ≤ u.start ∧
      ∀ sec ∈ r.sections, sec.keyword.start ≤ u.start → sec.keyword.start ≤ e.span.start) :
    Watched low first top r (s.advanced .normal) where
  alert := have ⟨n, le, passed, alert⟩ := h.alert; ⟨n, le, passed, alert.advanced .normal⟩
  name := h.name
  lbrace := h.lbrace
  sections sec member := by
    have step := advance.forward s
    rw [run_advance] at step
    exact ⟨(h.sections sec member).1, Nat.le_trans (h.sections sec member).2 step.here_le⟩
  found t member behind drops := by
    rw [ParseState.advanced_read next] at member
    rw [ParseState.advanced_errors]
    rcases List.mem_cons.mp member with rfl | old
    · exact found drops
    · exact h.found t old behind drops

/-- The brace that closes the rule. -/
theorem closed (h : Watched low first top r s) (open_ : r.rbrace = none) (b : Span) :
    Watched low first top { r with rbrace := some b } s where
  alert := h.alert
  name := h.name
  lbrace := h.lbrace
  sections := h.sections
  found t member behind drops :=
    h.found t member behind ⟨drops.sections, by rw [open_]; exact nofun⟩

end Watched

/-- A section more, which starts at the next token and takes all that is read. Panic mode
has ended at its keyword. -/
theorem Watched.add {sec : RuleSection} (h : Watched low first top r s) (step : s.Before t)
    (after : top ≤ s.aheadStart)
    (alert : t.Alert s.aheadStart) (wide : s.aheadStart ≤ t.input.here.offset)
    (keyword : sec.keyword.start = s.aheadStart) (span : sec.span = ⟨s.aheadStart, sectionStop t⟩)
    (name : q.ident = r.ident) (lbrace : q.lbrace = r.lbrace) (rbrace : q.rbrace = r.rbrace)
    (sections : q.sections = r.sections ++ [sec]) :
    Watched low first top q t where
  alert := by
    obtain ⟨n, le, passed, before⟩ := h.alert
    refine ⟨s.aheadStart, Nat.le_trans le before.here, ?_, alert⟩
    rw [sections]
    refine List.forall_mem_append.mpr
      ⟨fun sec member => Nat.le_trans (passed sec member) before.here, ?_⟩
    exact List.forall_mem_singleton.mpr (Nat.le_of_eq keyword)
  name := name ▸ h.name
  lbrace := lbrace ▸ h.lbrace
  sections := by
    rw [sections]
    refine List.forall_mem_append.mpr
      ⟨fun sec member => ?_, List.forall_mem_singleton.mpr (keyword ▸ ⟨after, wide⟩)⟩
    exact ⟨(h.sections sec member).1, Nat.le_trans (h.sections sec member).2 step.here_le⟩
  found u member behind drops := by
    have own : sec ∈ q.sections := sections ▸ List.mem_append_right _ (List.mem_singleton_self _)
    rcases step.mem_read u member with old | new
    · -- no token before the section sees its keyword
      have before : u.start < sec.keyword.start := by
        obtain ⟨n, _, _, alert⟩ := h.alert
        obtain ⟨wide, stop⟩ := alert.read u old
        exact keyword ▸ Nat.lt_of_lt_of_le wide (Nat.le_trans stop s.here_le_aheadStart)
      have dropped : r.Drops u :=
        ⟨fun sec member => drops.sections sec (sections ▸ List.mem_append_left _ member),
          rbrace ▸ drops.rbrace⟩
      obtain ⟨e, known, start, stop, places⟩ := h.found u old behind dropped
      refine ⟨e, step.errors.subset known, start, stop, ?_⟩
      rw [sections]
      refine List.forall_mem_append.mpr ⟨places, List.forall_mem_singleton.mpr fun inside => ?_⟩
      exact (Nat.not_le.mpr before inside).elim
    · refine (drops.sections sec own ?_).elim
      rw [span]
      exact Span.Lies.contained ⟨new, Nat.le_trans (Nat.le_add_right _ _) (alert.stop_le member),
        alert.stop_le member⟩

/-- What a section makes of a rule: one more section, from its keyword on. -/
theorem ruleSection_result (kind : SectionKind) (r : Rule) {keyword : Token}
    (next : s.next? = some keyword) :
    ∃ sec, ((ruleSection kind r).run s).1.sections = r.sections ++ [sec] ∧
      sec.keyword.start = keyword.start ∧
      sec.span = ⟨keyword.start, sectionStop ((ruleSection kind r).run s).2⟩ ∧
        ((ruleSection kind r).run s).1.lbrace = r.lbrace := by
  have lbrace : ∀ duplicate, (sectionContent kind duplicate r).Gives (·.lbrace = r.lbrace) := by
    intro duplicate
    cases kind with
    | metas | strings => exact .bind fun _ => .pure rfl
    | condition =>
      refine .bind fun e => .pure ?_
      cases duplicate <;> rfl
  rw [ruleSection_steps kind r next]
  dsimp only
  rw [run_sectionEnd, sectionContent_sections kind _ r, lbrace]
  exact ⟨_, rfl, congrArg Span.start (run_sectionHead ..), rfl, rfl⟩

theorem ruleSection_watched {kind : SectionKind} {keyword : Token} (h : Watched low first top r s)
    (quiet : ¬ s.panicking) (after : top ≤ s.aheadStart) (next : s.next? = some keyword) :
    Watched low first top ((ruleSection kind r).run s).1 ((ruleSection kind r).run s).2 := by
  have start : s.aheadStart = keyword.start := by rw [ParseState.aheadStart, next]; rfl
  obtain ⟨n, le, passed, alert⟩ := h.alert
  have alert := (Composed.ruleSection kind r).wary _ s (alert.calm quiet (Nat.le_refl _))
  have step := (ruleSection kind r).forward s
  obtain ⟨sec, sections, head, span, lbrace⟩ := ruleSection_result kind r next
  obtain ⟨name, rbrace⟩ := ruleSection_keeps kind r s
  have read : s.aheadStart ≤ ((ruleSection kind r).run s).2.input.here.offset := by
    have further := ruleSection_consumes kind r (fun _ => True) s ⟨keyword, next⟩ trivial
    exact start ▸ Nat.le_trans (Nat.le_add_right _ _) (step.stop_le next further)
  exact h.add step after alert read (head.trans start.symm) (start ▸ span) name lbrace
    rbrace sections

theorem bodyStep_watched (r : Rule) :
    Ensures (fun s => Watched low first top r s ∧ r.rbrace = none ∧ top ≤ s.aheadStart) (bodyStep r)
      (Ensures.round (fun r s => Watched low first top r s ∧ r.rbrace = none ∧ top ≤ s.aheadStart)
        (Watched low first top)) := by
  rintro s ⟨h, open_, after⟩
  rw [bodyStep, run_bind, run_peek]
  cases next : s.next? with
  | none => exact h.reported _
  | some t =>
    dsimp only
    rw [run_ite]
    split
    · rw [run_bind, run_advance]
      exact (h.closed open_ t.span).advanced next fun drops => (drops.rbrace rfl).elim
    split
    · rename_i kind _
      have step := (ruleSection kind r).forward ((setPanicking false).run s).2
      refine ⟨ruleSection_watched h.calm Bool.false_ne_true after next, ?_,
        Nat.le_trans after step.aheadStart_le⟩
      exact (ruleSection_keeps kind r _).2.trans open_
    · rw [run_bind, run_atTopLevelItem, run_ite]
      split
      · exact h.reported _
      · obtain ⟨n, le, passed, alert⟩ := h.alert
        obtain ⟨e, known, start, stop⟩ := alert.unfit .ruleSection next
        have ahead : ((unexpected .ruleSection).run s).2.next? = some t :=
          (unexpected_next ..).trans next
        refine ⟨?_, open_, Nat.le_trans after
          ((unexpected .ruleSection >>= fun _ => advance).forward s).aheadStart_le⟩
        rw [run_bind, run_bind, run_advance]
        refine (h.unexpected .ruleSection).advanced ahead fun _ =>
          ⟨e, known, Nat.le_trans le start, stop, fun sec member _ => ?_⟩
        exact Nat.le_trans (passed sec member) start

/-- A token of a kind is read where it is expected, or nothing is. -/
theorem expect_cases (k : Kind) (s : ParseState) :
    (∃ t, s.next? = some t ∧ t.kind = k ∧ (expect k).run s = (some t, s.advanced .normal)) ∨
      (expect k).run s = (none, ((unexpected (.token k)).run s).2) := by
  by_cases ahead : s.kindAhead? = some k
  · obtain ⟨t, next, kind⟩ := ParseState.kindAhead?_eq_some ahead
    exact .inl ⟨t, next, kind, by rw [run_expect ahead, next]⟩
  · exact .inr (Lockstep.expect_missing ahead)

/-- The name of a rule starts at the next token, or before it if it is missing. -/
theorem ruleName_start (s : ParseState) : (ruleName.run s).1.span.start ≤ s.aheadStart := by
  rw [ruleName, run_bind, run_eat]
  by_cases ahead : s.kindAhead? = some .ident
  · obtain ⟨t, next, _⟩ := ParseState.kindAhead?_eq_some ahead
    rw [if_pos ahead, ParseState.aheadStart, next]
    exact Nat.le_refl _
  · rw [if_neg ahead]
    show ((unexpected .ruleName).run s).2.input.here.offset ≤ s.aheadStart
    rw [unexpected_input]
    exact s.here_le_aheadStart

theorem expect_stop (k : Kind) (s : ParseState) :
    ∀ t ∈ ((expect k).run s).1, ((expect k).run s).2.input.here.offset = t.stop := by
  rcases expect_cases k s with ⟨t, next, _, run⟩ | run
  · rw [run]
    rintro _ ⟨⟩
    exact ParseState.advanced_here next .normal
  · rw [run]
    exact nofun

/-- The head of a rule. Nothing of its body is read. -/
theorem ruleHead_watched (flags : RuleFlags) (alert : s.Alert low) :
    let head := (ruleHead flags).run s
    Watched low s.aheadStart head.2.input.here.offset head.1 head.2 ∧ head.1.rbrace = none := by
  have composed : Composed false none (ruleHead flags) := .ruleHead flags
  have alert := composed.wary low s alert
  refine ⟨⟨⟨low, Nat.le_refl _, nofun, alert⟩, ruleName_start s, ?_, nofun,
    fun t member behind => ?_⟩, rfl⟩
  · intro b brace
    obtain ⟨t, found, rfl⟩ := Option.map_eq_some_iff.mp brace
    exact Nat.le_of_eq (expect_stop _ _ t found)
  · obtain ⟨wide, stop⟩ := alert.read t member
    exact absurd (Nat.lt_of_lt_of_le wide stop) (Nat.not_lt.mpr behind)

/-- A rule after its keyword, with all that is dropped in its body. -/
theorem ruleAfterKeyword_watched (start : Nat) (flags : RuleFlags) (alert : s.Alert low) :
    ∃ top, s.input.here.offset ≤ top ∧ Watched low s.aheadStart top
      ((ruleAfterKeyword start flags).run s).1 ((ruleAfterKeyword start flags).run s).2 := by
  obtain ⟨head, open_⟩ := ruleHead_watched flags alert
  refine ⟨((ruleHead flags).run s).2.input.here.offset, ((ruleHead flags).forward s).here_le, ?_⟩
  rw [ruleAfterKeyword, run_bind]
  generalize (ruleHead flags).run s = entry at head open_ ⊢
  obtain ⟨r, t⟩ := entry
  have body :=
    Ensures.iterate bodyStep_progress bodyStep_watched r t ⟨head, open_, t.here_le_aheadStart⟩
  rw [run_bind]
  generalize (iterate bodyStep r).run t = entry at body ⊢
  obtain ⟨q, u⟩ := entry
  have looked : (ruleStop q).run u = (((ruleStop q).run u).1, u) := by
    unfold ruleStop
    cases q.rbrace <;> rfl
  rw [run_bind, looked, run_ite]
  have whole : ∀ {v : ParseState} {span : Span}, Watched low s.aheadStart t.input.here.offset q v →
      Watched low s.aheadStart t.input.here.offset { q with span } v := fun h =>
    ⟨h.alert, h.name, h.lbrace, h.sections, fun t member behind drops =>
      h.found t member behind ⟨drops.sections, drops.rbrace⟩⟩
  split
  · exact whole (body.reported _)
  · exact whole body

end Parser

/-! ### The items of a text -/

/-- Offsets in the body of a rule: from its opening brace on, and from a section on. -/
def Rule.InBody (r : Rule) (n : Nat) : Prop := (∃ b ∈ r.lbrace, b.stop ≤ n) ∨ ∃ sec ∈ r.sections,
  sec.keyword.start ≤ n

namespace SourceFile

/-- A token that belongs to nothing in a file: one in no item that starts none, or one in the body
of a rule that is dropped there. What a section or a hex pattern skips on its way to where it goes
on is not meant: it lies in the span of the section. -/
inductive Discards (f : SourceFile) (t : Token) : Prop
  | outside (kind : ¬ t.kind.opensItem) (imports : ∀ i ∈ f.imports, ¬ i.span.contains t.span)
      (includes : ∀ i ∈ f.includes, ¬ i.span.contains t.span)
      (rules : ∀ r ∈ f.rules, ¬ r.span.contains t.span)
  | inside {r : Rule} (member : r ∈ f.rules) (within : r.span.contains t.span)
      (body : r.InBody t.start) (drops : r.Drops t)

/-- Where panic mode ends: at a keyword that starts an item or is in the head of a rule,
and at the keyword of a section. -/
inductive Resumes (f : SourceFile) (read : List Token) : Nat → Prop
  | item {t : Token} (member : t ∈ read) (kind : t.kind.opensItem)
      (head : ∀ r ∈ f.rules, r.span.contains t.span → t.stop ≤ r.ident.span.start) :
      Resumes f read t.start
  | part {r : Rule} {sec : RuleSection} (rule : r ∈ f.rules) (member : sec ∈ r.sections) :
      Resumes f read sec.keyword.start

/-- An error stands before a token, with no place between them where panic mode ends. -/
def Excuses (f : SourceFile) (read : List Token) (t : Token) : Prop :=
  ∃ e ∈ f.errors, e.span.start ≤ t.start ∧ ∀ n, f.Resumes read n → n ≤ t.start → n ≤ e.span.start

end SourceFile

namespace Parser

variable {items items' : Items} {s t : ParseState}

/-- What is known between two items of a text. -/
structure Vigilant (items : Items) (s : ParseState) : Prop where
  alert : ∃ n, (∀ k, (items.with s.errors).Resumes s.read k → k ≤ n) ∧ s.Alert n
  placed : ∀ r ∈ items.rules, r.span.stop ≤ s.input.here.offset ∧ ∀ sec ∈ r.sections,
      sec.keyword.start ≤ s.input.here.offset
  found : ∀ u ∈ s.read, (items.with s.errors).Discards u → (items.with s.errors).Excuses s.read u

/-- Items that come behind a state, and others that were there before. -/
structure Extends (s : ParseState) (items items' : Items) (t : ParseState) : Prop where
  step : s.Before t
  imports : ∀ i ∈ items.imports, i ∈ items'.imports
  includes : ∀ i ∈ items.includes, i ∈ items'.includes
  kept : ∀ r ∈ items.rules, r ∈ items'.rules
  rules : ∀ r ∈ items'.rules, r ∈ items.rules ∨ s.aheadStart ≤ r.span.start ∧
    r.span.stop ≤ t.input.here.offset ∧
    ∀ sec ∈ r.sections, s.aheadStart ≤ sec.keyword.start ∧ sec.keyword.start ≤ t.input.here.offset

namespace Vigilant

variable {u : Token}

theorem before (h : Vigilant items s) (member : u ∈ s.read) : u.start < s.aheadStart := by
  obtain ⟨n, _, alert⟩ := h.alert
  obtain ⟨wide, stop⟩ := alert.read u member
  exact Nat.lt_of_lt_of_le wide (Nat.le_trans stop s.here_le_aheadStart)

theorem extend (h : Vigilant items s) (further : Extends s items items' t)
    (alert : ∃ n, (∀ k, (items'.with t.errors).Resumes t.read k → k ≤ n) ∧ t.Alert n)
    (found : ∀ u ∈ t.read, s.aheadStart ≤ u.start → (items'.with t.errors).Discards u →
    (items'.with t.errors).Excuses t.read u) :
    Vigilant items' t where
  alert := alert
  placed r member := by
    rcases further.rules r member with old | ⟨_, stop, parts⟩
    · obtain ⟨stop, parts⟩ := h.placed r old
      have later := further.step.here_le
      exact ⟨Nat.le_trans stop later, fun sec member => Nat.le_trans (parts sec member) later⟩
    · exact ⟨stop, fun sec member => (parts sec member).2⟩
  found u member discards := by
    rcases further.step.mem_read u member with old | new
    · have before := h.before old
      have known : (items.with s.errors).Discards u := by
        cases discards with
        | outside kind imports includes rules =>
          exact .outside kind (fun i member => imports i (further.imports i member))
            (fun i member => includes i (further.includes i member)) fun r member =>
              rules r (further.kept r member)
        | @inside r rule within body drops =>
          rcases further.rules r rule with known | ⟨start, _⟩
          · exact .inside known within body drops
          · rw [Span.contains, Bool.and_eq_true, decide_eq_true_eq] at within
            exact absurd (Nat.lt_of_lt_of_le before start) (Nat.not_lt.mpr within.1)
      obtain ⟨e, error, start, places⟩ := h.found u old known
      refine ⟨e, further.step.errors.subset error, start, fun n resumes behind =>
        places n ?_ behind⟩
      cases resumes with
      | @item v read kind head =>
        rcases further.step.mem_read v read with known | new
        · exact .item known kind fun r member => head r (further.kept r member)
        · exact absurd (Nat.lt_of_le_of_lt behind before) (Nat.not_lt.mpr new)
      | @part r sec rule member =>
        rcases further.rules r rule with known | ⟨_, _, parts⟩
        · exact .part known member
        · exact absurd (Nat.lt_of_le_of_lt behind before) (Nat.not_lt.mpr (parts sec member).1)
    · exact found u member new discards

/-- No rule that was read before holds a later token. -/
theorem behind (h : Vigilant items s) (new : s.aheadStart ≤ u.start) (wide : u.start < u.stop) :
    ∀ r ∈ items.rules, ¬ r.span.contains u.span := by
  intro r member within
  rw [Span.contains, Bool.and_eq_true, decide_eq_true_eq, decide_eq_true_eq] at within
  have stop := Nat.le_trans within.2 (Nat.le_trans (h.placed r member).1 s.here_le_aheadStart)
  exact absurd (Nat.lt_of_lt_of_le wide stop) (Nat.not_lt.mpr new)

/-- The sections that were read before start before the next token. -/
theorem resumes_le (h : Vigilant items s) {n k : Nat} {read : List Token}
    {errors : List SyntaxError} (later : s.aheadStart ≤ n)
    (tokens : ∀ u ∈ read, u.kind.opensItem → u.start ≤ n)
    (resumes : (items.with errors).Resumes read k) : k ≤ n := by
  cases resumes with
  | item member kind => exact tokens _ member kind
  | part rule member =>
    exact Nat.le_trans ((h.placed _ rule).2 _ member) (Nat.le_trans s.here_le_aheadStart later)

/-- Without a new rule all that has to be known is what panic mode comes from, and that
later tokens are in an item or start one. -/
theorem advanceTo (h : Vigilant items s) (step : s.Before t)
    (imports : ∀ i ∈ items.imports, i ∈ items'.imports)
    (includes : ∀ i ∈ items.includes, i ∈ items'.includes) (rules : items'.rules = items.rules)
    {n : Nat} (later : s.aheadStart ≤ n)
    (alert : t.Alert n) (tokens : ∀ u ∈ t.read, s.aheadStart ≤ u.start → u.kind.opensItem ∧
      u.start ≤ n ∨ ¬ u.kind.opensItem ∧
      ((∃ i ∈ items'.imports, i.span.contains u.span) ∨ ∃ i ∈ items'.includes,
        i.span.contains u.span)) : Vigilant items' t := by
  have kept : ∀ r ∈ items.rules, r ∈ items'.rules := fun r member => rules ▸ member
  refine h.extend ⟨step, imports, includes, kept, fun r member => .inl (rules ▸ member)⟩
    ⟨n, fun k resumes => ?_, alert⟩ fun u member new discards => ?_
  · have known : (items.with t.errors).Resumes t.read k := by
      cases resumes with
      | item member kind head => exact .item member kind fun r member => head r (kept r member)
      | part rule member => exact .part (rules ▸ rule : _ ∈ items.rules) member
    refine h.resumes_le later (fun u member kind => ?_) known
    rcases step.mem_read u member with old | new
    · exact Nat.le_of_lt (Nat.lt_of_lt_of_le (h.before old) later)
    · exact (tokens u member new).elim And.right fun other => (other.1 kind).elim
  · exfalso
    have none := h.behind new (alert.read u member).1
    cases discards with
    | outside kind imports includes rules =>
      rcases tokens u member new with ⟨opens, _⟩ | ⟨_, ⟨i, within, inside⟩ | ⟨i, within, inside⟩⟩
      · exact kind opens
      · exact imports i within inside
      · exact includes i within inside
    | inside rule within => exact none _ (rules ▸ rule : _ ∈ items.rules) within

end Vigilant

/-! ### Items -/

/-- Panic mode ends at the keyword of an item. -/
theorem Vigilant.calm (h : Vigilant items s) :
    ({ s with panicking := false } : ParseState).Alert s.aheadStart :=
  have ⟨_, _, alert⟩ := h.alert
  ⟨Nat.le_refl _, alert.read, nofun⟩

/-- The keyword of an import or an include is read with the string behind it. -/
def quotedItem : Parser (Option Token) := do
  let _ ← advance
  expect .string

theorem run_quotedItem (s : ParseState) :
    quotedItem.run s = (expect .string).run (s.advanced .normal) := by
  rw [quotedItem, run_bind, run_advance]

theorem run_importItem {keyword : Token} (next : s.next? = some keyword) : importItem.run s =
    ((quotedItem.run s).1.map fun t => ⟨keyword.span.through t.span, String.ofList (unquote t.text),
      t.span⟩, (quotedItem.run s).2) := by
  rw [run_quotedItem, importItem, run_bind, run_advance, next]
  dsimp only
  rw [run_bind]
  cases ((expect .string).run (s.advanced .normal)).1 <;> rfl

theorem run_includeItem {keyword : Token} (next : s.next? = some keyword) : includeItem.run s =
    ((quotedItem.run s).1.map fun t =>
      ⟨keyword.span.through t.span, String.ofList (unquote t.text)⟩, (quotedItem.run s).2) := by
  rw [run_quotedItem, includeItem, run_bind, run_advance, next]
  dsimp only
  rw [run_bind]
  cases ((expect .string).run (s.advanced .normal)).1 <;> rfl

theorem quotedItem_reads {keyword : Token} (next : s.next? = some keyword) :
    ∀ u ∈ (quotedItem.run s).2.read, u ∈ s.read ∨ u = keyword ∨ u.kind = .string ∧
      (quotedItem.run s).1 = some u := by
  have first := ParseState.advanced_read next .normal
  rw [run_quotedItem]
  rcases expect_cases .string (s.advanced .normal) with ⟨name, ahead, kind, expected⟩ | expected
  · rw [expected, ParseState.advanced_read ahead, first]
    exact List.forall_mem_cons.mpr
      ⟨.inr (.inr ⟨kind, rfl⟩), List.forall_mem_cons.mpr ⟨.inr (.inl rfl), fun u => .inl⟩⟩
  · rw [expected, unexpected_read, first]
    exact List.forall_mem_cons.mpr ⟨.inr (.inl rfl), fun u => .inl⟩

theorem through_contains {a b : Span} (start : a.start ≤ b.start) : (a.through b).contains b := by
  rw [Span.contains, Bool.and_eq_true, decide_eq_true_eq, decide_eq_true_eq]
  exact ⟨start, Nat.le_max_left ..⟩

/-- An import or an include holds its keyword and its string. -/
theorem Vigilant.addQuoted {keyword : Token} (h : Vigilant items s) (next : s.next? = some keyword)
    (opens : keyword.kind.opensItem)
    (imports : ∀ i ∈ items.imports, i ∈ items'.imports)
    (includes : ∀ i ∈ items.includes, i ∈ items'.includes)
    (rules : items'.rules = items.rules)
      (item : ∀ t ∈ (quotedItem.run { s with panicking := false }).1,
      (∃ i ∈ items'.imports, i.span = keyword.span.through t.span) ∨ ∃ i ∈ items'.includes,
        i.span = keyword.span.through t.span) :
    Vigilant items' (quotedItem.run { s with panicking := false }).2 := by
  have start : s.aheadStart = keyword.start := by rw [ParseState.aheadStart, next]; rfl
  have step := (do setPanicking false; quotedItem).forward s
  have composed : Composed false none quotedItem := Composed.advance.bind fun _ => .expect .string
  refine h.advanceTo step imports includes rules (Nat.le_refl _) (composed.wary _ _ h.calm)
    fun u member new => ?_
  rcases quotedItem_reads (s := { s with panicking := false }) next u member
    with old | rfl | ⟨kind, name⟩
  · exact absurd (h.before old) (Nat.not_lt.mpr new)
  · exact .inl ⟨opens, Nat.le_of_eq start.symm⟩
  · have within := through_contains (a := keyword.span) (b := u.span)
      (Nat.le_trans (Nat.le_of_eq start.symm) new)
    refine .inr ⟨by rw [kind]; exact Bool.false_ne_true, ?_⟩
    rcases item u name with ⟨i, member, span⟩ | ⟨i, member, span⟩
    · exact .inl ⟨i, member, span ▸ within⟩
    · exact .inr ⟨i, member, span ▸ within⟩

/-- Among the modifiers of a rule panic mode does not start, and nothing else is read. -/
structure Flagged (s t : ParseState) : Prop where
  quiet : ¬ t.panicking
  alert : t.Alert s.aheadStart
  read : ∀ u ∈ t.read, u ∈ s.read ∨ u.kind.opensItem

theorem flagStep_flagged (flags : RuleFlags) :
    Ensures (Flagged s) (flagStep flags)
      (Ensures.round (fun _ => Flagged s) fun _ => Flagged s) := by
  intro t h
  have advanced : ∀ {u : Token}, t.next? = some u → u.kind.opensItem →
      Flagged s (t.advanced .normal) := fun next opens =>
    ⟨by rw [ParseState.advanced_panicking]; exact h.quiet, h.alert.advanced .normal,
      by rw [ParseState.advanced_read next]; exact List.forall_mem_cons.mpr ⟨.inr opens, h.read⟩⟩
  have reported : ∀ {t : ParseState} (e : SyntaxError), Flagged s t → Flagged s (t.reported e) :=
    fun e h =>
    ⟨h.quiet, h.alert.reported e, h.read⟩
  rw [flagStep, run_bind, run_peek]
  cases next : t.next? with
  | none => exact h
  | some u =>
    dsimp only
    rw [run_ite]
    split
    · rename_i kind
      have read := advanced next (kind ▸ rfl)
      rw [run_bind, run_advance, run_ite]
      split
      · exact reported _ read
      · exact read
    rw [run_ite]
    split
    · rename_i kind
      have read := advanced next (kind ▸ rfl)
      rw [run_bind, run_advance, run_ite]
      split
      · exact reported _ read
      · exact read
    · exact h

theorem importItem_vigilant {keyword : Token} (h : Vigilant items s) (next : s.next? = some keyword)
    (opens : keyword.kind.opensItem) :
    Vigilant
      { items with
        imports := items.imports ++ (importItem.run { s with panicking := false }).1.toList }
      (importItem.run { s with panicking := false }).2 := by
  rw [run_importItem (s := { s with panicking := false }) next]
  refine h.addQuoted next opens (fun _ => List.mem_append_left _) (fun _ member => member) rfl
    fun t name =>
    .inl ⟨_, List.mem_append_right _ (Option.mem_toList.mpr (Option.mem_map_of_mem _ name)), rfl⟩

theorem includeItem_vigilant {keyword : Token} (h : Vigilant items s)
    (next : s.next? = some keyword) (opens : keyword.kind.opensItem) :
    Vigilant
      { items with
        includes := items.includes ++ (includeItem.run { s with panicking := false }).1.toList }
      (includeItem.run { s with panicking := false }).2 := by
  rw [run_includeItem (s := { s with panicking := false }) next]
  refine h.addQuoted next opens (fun _ member => member) (fun _ => List.mem_append_left _) rfl
    fun t name =>
    .inr ⟨_, List.mem_append_right _ (Option.mem_toList.mpr (Option.mem_map_of_mem _ name)), rfl⟩

/-- A rule: `u` is the state before its keyword, `t` the one behind it, and `v` the one
behind the rule. -/
theorem Vigilant.addRule {r : Rule} {u v : ParseState} {top : Nat} (h : Vigilant items s)
    (flags : s.Before u) (keyword : u.Before t)
    (rule : t.Before v) (read : ∀ w ∈ t.read, w.start ≤ u.aheadStart) (body : s.aheadStart ≤ top)
    (watched : Watched u.aheadStart t.aheadStart top r v)
    (span : r.span = ⟨s.aheadStart, v.input.here.offset⟩) :
    Vigilant { items with rules := items.rules ++ [r] } v := by
  obtain ⟨n, le, passed, alert⟩ := watched.alert
  have step := (flags.trans keyword).trans rule
  have own : r ∈ items.rules ++ [r] := List.mem_append_right _ (List.mem_singleton_self _)
  have within : ∀ w ∈ v.read, s.aheadStart ≤ w.start → r.span.contains w.span :=
    fun w member new => by
    have wide : w.start < w.stop := (alert.read w member).1
    have stop := (alert.read w member).2
    rw [span]
    exact Span.Lies.contained ⟨new, Nat.le_trans (Nat.le_of_lt wide) stop, stop⟩
  have resumes : ∀ k,
      (({ items with rules := items.rules ++ [r] } : Items).with v.errors).Resumes v.read k →
      k ≤ u.aheadStart ∨ ∃ sec ∈ r.sections, k = sec.keyword.start := by
    intro k resumes
    cases resumes with
    | @item w member kind head =>
      rcases rule.mem_read w member with old | new
      · exact .inl (read w old)
      · -- a token behind the keyword is not before the name of the rule
        have inside := within w member (Nat.le_trans (flags.trans keyword).aheadStart_le new)
        have early := Nat.le_trans (head r own inside) watched.name
        have wide := (alert.read w member).1
        omega
    | @part q sec member part =>
      rcases List.mem_append.mp member with old | same
      · exact .inl (Nat.le_trans ((h.placed q old).2 sec part)
          (Nat.le_trans s.here_le_aheadStart flags.aheadStart_le))
      · exact .inr ⟨sec, List.mem_singleton.mp same ▸ part, rfl⟩
  refine h.extend ⟨step, fun _ member => member, fun _ member => member,
    fun _ => List.mem_append_left _, ?_⟩
    ⟨n, fun k found => ?_, alert⟩ fun w member new discards => ?_
  · intro q member
    rcases List.mem_append.mp member with old | same
    · exact .inl old
    · obtain rfl := List.mem_singleton.mp same
      rw [span]
      refine .inr ⟨Nat.le_refl _, Nat.le_refl _, fun sec part => ?_⟩
      exact ⟨Nat.le_trans body (watched.sections sec part).1, (watched.sections sec part).2⟩
  · rcases resumes k found with early | ⟨sec, part, rfl⟩
    · exact Nat.le_trans early le
    · exact passed sec part
  · cases discards with
    | outside kind imports includes rules => exact (rules r own (within w member new)).elim
    | @inside q rule inside body drops =>
      rcases List.mem_append.mp rule with old | same
      · exact (h.behind new (alert.read w member).1 q old inside).elim
      · obtain rfl := List.mem_singleton.mp same
        have behind : top ≤ w.start := by
          rcases body with ⟨b, brace, stop⟩ | ⟨sec, part, stop⟩
          · exact Nat.le_trans (watched.lbrace b brace) stop
          · exact Nat.le_trans (watched.sections sec part).1 stop
        obtain ⟨e, error, low, start, places⟩ := watched.found w member behind drops
        refine ⟨e, error, start, fun k found stop => ?_⟩
        rcases resumes k found with early | ⟨sec, part, rfl⟩
        · exact Nat.le_trans early low
        · exact places sec part stop

theorem ruleItem_vigilant {keyword : Token} (h : Vigilant items s) (next : s.next? = some keyword) :
    Vigilant
      { items with
        rules := items.rules ++ (ruleItem.run { s with panicking := false }).1.toList }
      (ruleItem.run { s with panicking := false }).2 := by
  have start : s.aheadStart = keyword.start := by rw [ParseState.aheadStart, next]; rfl
  have flagged :=
    Ensures.iterate flagStep_progress flagStep_flagged ⟨false, false⟩ { s with panicking := false }
    (⟨Bool.false_ne_true, h.calm, fun u => .inl⟩ : Flagged s _)
  have flags : s.Before _ := (do setPanicking false; iterate flagStep ⟨false, false⟩).forward s
  rw [run_bind, run_setPanicking] at flags
  rw [ruleItem, run_bind, run_peek, show ({ s with panicking := false } : ParseState).next? =
    some keyword from next]
  dsimp only
  rw [run_bind]
  generalize (iterate flagStep ⟨false, false⟩).run { s with panicking := false } =
    entry at flagged flags ⊢
  obtain ⟨modifiers, u⟩ := entry
  have alert : u.Alert u.aheadStart := flagged.alert.calm flagged.quiet (Nat.le_refl _)
  rw [run_bind]
  rcases expect_cases (.keyword .kwRule) u with ⟨k, ahead, kind, run⟩ | run
  · rw [run]
    dsimp only
    rw [run_bind]
    have place : u.aheadStart = k.start := by rw [ParseState.aheadStart, ahead]; rfl
    have here := ParseState.advanced_here ahead .normal
    have step := advance.forward u
    rw [run_advance] at step
    have later : s.aheadStart ≤ (u.advanced .normal).input.here.offset :=
      here ▸ Nat.le_trans flags.aheadStart_le (place ▸ Nat.le_add_right _ _)
    obtain ⟨top, behind, watched⟩ :=
      ruleAfterKeyword_watched keyword.start modifiers (alert.advanced .normal)
    have span :=
      (ruleAfterKeyword_spans modifiers (u.advanced .normal) (start ▸ later : keyword.start ≤ _)).2
    refine h.addRule flags step ((ruleAfterKeyword keyword.start modifiers).forward _) ?_
      (Nat.le_trans later behind) watched (start ▸ span)
    rw [ParseState.advanced_read ahead]
    refine List.forall_mem_cons.mpr ⟨Nat.le_of_eq place.symm, fun w member => ?_⟩
    obtain ⟨wide, stop⟩ := alert.read w member
    exact Nat.le_trans (Nat.le_of_lt wide) (Nat.le_trans stop u.here_le_aheadStart)
  · rw [run]
    have step := flags.trans ((unexpected (.token (.keyword .kwRule))).forward u)
    refine h.advanceTo step (fun _ member => member) (fun _ member => member)
      (List.append_nil _) flags.aheadStart_le (alert.unexpected _) fun w member new => ?_
    have member : w ∈ u.read := unexpected_read _ u ▸ member
    rcases flagged.read w member with old | opens
    · exact absurd (h.before old) (Nat.not_lt.mpr new)
    · obtain ⟨wide, stop⟩ := alert.read w member
      exact .inl ⟨opens, Nat.le_trans (Nat.le_of_lt wide) (Nat.le_trans stop u.here_le_aheadStart)⟩

/-- A token that starts no item is discarded with an error, or in panic mode. -/
theorem discard_vigilant {u : Token} (h : Vigilant items s) (next : s.next? = some u)
    (other : ¬ u.kind.opensItem) :
    Vigilant items (((unexpected .topLevelItem).run s).2.advanced .normal) := by
  obtain ⟨n, passed, alert⟩ := h.alert
  obtain ⟨e, error, start, stop⟩ := alert.unfit .topLevelItem next
  have step := (unexpected .topLevelItem >>= fun _ => advance).forward s
  rw [run_bind, run_advance] at step
  have ahead : ((unexpected .topLevelItem).run s).2.next? = some u :=
    (unexpected_next ..).trans next
  have read : (((unexpected .topLevelItem).run s).2.advanced .normal).read = u :: s.read :=
    (ParseState.advanced_read ahead .normal).trans (congrArg _ (unexpected_read ..))
  have resumes : ∀ k,
      (items.with (((unexpected .topLevelItem).run s).2.advanced .normal).errors).Resumes
      (((unexpected .topLevelItem).run s).2.advanced .normal).read k → k ≤ n := by
    intro k found
    refine passed k ?_
    cases found with
    | @item v member kind head =>
      rw [read] at member
      rcases List.mem_cons.mp member with rfl | old
      · exact (other kind).elim
      · exact .item old kind head
    | part rule member => exact .part rule member
  refine h.extend ⟨step, fun _ member => member, fun _ member => member, fun _ member => member,
    fun _ => .inl⟩
    ⟨n, resumes, (alert.unexpected .topLevelItem).advanced .normal⟩ fun v member new _ => ?_
  rw [read] at member
  rcases List.mem_cons.mp member with rfl | old
  · have known : e ∈ (((unexpected .topLevelItem).run s).2.advanced .normal).errors := by
      rwa [ParseState.advanced_errors]
    exact ⟨e, known, stop, fun k found _ => Nat.le_trans (resumes k found) start⟩
  · exact absurd (h.before old) (Nat.not_lt.mpr new)

theorem opensItem_cases {k : Kind} (h : k.opensItem) :
    k = .keyword .kwRule ∨ k = .keyword .kwImport ∨ k = .keyword .kwInclude ∨
    k = .keyword .kwPrivate ∨ k = .keyword .kwGlobal := by
  cases k with
  | keyword w =>
    simpa only [Kind.opensItem, Bool.or_eq_true, beq_iff_eq, Kind.keyword.injEq, or_assoc] using h
  | _ => cases h

theorem itemStep_vigilant (items : Items) :
    Ensures (Vigilant items) (itemStep items) (Ensures.round Vigilant Vigilant) := by
  intro s h
  rw [itemStep, run_bind, run_peekKind]
  cases next : s.next? with
  | none =>
    rw [ParseState.kindAhead?, next]
    exact h
  | some t =>
    rw [ParseState.kindAhead?_of_next next]
    split
    · exact h
    · rename_i kind
      exact importItem_vigilant h next (Option.some.inj kind ▸ rfl)
    · rename_i kind
      exact includeItem_vigilant h next (Option.some.inj kind ▸ rfl)
    · rename_i k no_import no_include same
      obtain rfl := Option.some.inj same
      rw [run_ite]
      split
      · exact ruleItem_vigilant h next
      · rename_i others
        rw [run_bind, run_bind, run_advance]
        refine discard_vigilant h next fun opens => ?_
        rcases opensItem_cases opens with kind | kind | kind | kind | kind
        · exact others (.inl kind)
        · exact no_import kind
        · exact no_include kind
        · exact others (.inr (.inl kind))
        · exact others (.inr (.inr kind))

end Parser

/-- Panic mode ends at the keywords of sections and of items: of the tokens that belong
to nothing each has an error before it or at it, with no such keyword between them. -/
theorem parse_excuses_discarded (text : List Char) {t : Token} (read : t ∈ (finalState text).read)
    (discards : (parse text).Discards t) :
    (parse text).Excuses (finalState text).read t := by
  have start : Parser.Vigilant ⟨[], [], []⟩ (Parser.initial text) := by
    refine ⟨⟨0, fun k resumes => ?_, ⟨Nat.zero_le _, nofun, nofun⟩⟩, nofun, nofun⟩
    cases resumes with
    | item member => cases member
    | part rule => cases rule
  exact (Parser.Ensures.iterate Parser.itemStep_progress Parser.itemStep_vigilant _ _ start).found t
    read discards

/-- A word behind a rule that has an error in it. The brace of the rule does not end panic mode. -/
def behindRule : List Char := "rule a \x7b condition: ) \x7d x".toList

theorem parse_excuses_discarded_behindRule :
    (⟨.ident, 24, ['x']⟩ : Token) ∈ (finalState behindRule).read ∧
    (parse behindRule).Discards ⟨.ident, 24, ['x']⟩ ∧
      (parse behindRule).errors.map (·.span.start) = [20] ∧
      (parse behindRule).Excuses (finalState behindRule).read ⟨.ident, 24, ['x']⟩ := by
  have read : (⟨.ident, 24, ['x']⟩ : Token) ∈ (finalState behindRule).read := by decide +kernel
  have discards : (parse behindRule).Discards ⟨.ident, 24, ['x']⟩ :=
    .outside (by decide) (by decide +kernel) (by decide +kernel) (by decide +kernel)
  exact ⟨read, discards, by decide +kernel, parse_excuses_discarded behindRule read discards⟩

end RuleDesk
