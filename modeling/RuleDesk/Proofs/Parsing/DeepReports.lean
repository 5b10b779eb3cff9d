import RuleDesk.Proofs.Parsing.Cascade
import RuleDesk.Proofs.Parsing.Origins
import RuleDesk.Proofs.Parsing.RuleSpans

namespace RuleDesk

namespace Parser

/-! ### What is parsed outside of conditions -/

theorem importItem_still : Still importItem := by
  refine advance_still.bind fun o => ?_
  cases o with
  | none => exact .pure _
  | some start =>
    refine (expect_still _).bind fun o => ?_
    cases o <;> exact .pure _

theorem includeItem_still : Still includeItem := by
  refine advance_still.bind fun o => ?_
  cases o with
  | none => exact .pure _
  | some start =>
    refine (expect_still _).bind fun o => ?_
    cases o <;> exact .pure _

theorem negativeMeta_still : Still negativeMeta := by
  refine (Still.look run_peek).bind fun o => ?_
  cases o with
  | none => exact (unexpected_still _).bind fun _ => .pure _
  | some t =>
    dsimp only
    split
    · exact advance_still.bind fun _ => (integerValue_still t).bind fun _ => .pure _
    · exact advance_still.bind fun _ => .pure _
    · exact (unexpected_still _).bind fun _ => .pure _

theorem metaValue_still : Still metaValue := by
  refine (Still.look run_peek).bind fun o => ?_
  cases o with
  | none => exact (unexpected_still _).bind fun _ => .pure _
  | some t =>
    dsimp only
    split
    · exact advance_still.bind fun _ => .pure _
    · exact advance_still.bind fun _ => .pure _
    · exact advance_still.bind fun _ => .pure _
    · exact (report_still _ _ (by nofun)).bind fun _ => advance_still.bind fun _ => .pure _
    · exact advance_still.bind fun _ => .pure _
    · exact (integerValue_still t).bind fun _ => advance_still.bind fun _ => .pure _
    · exact advance_still.bind fun _ => negativeMeta_still
    · exact (unexpected_still _).bind fun _ => .pure _

theorem metaStep_still (entries : List MetaEntry) : Still (metaStep entries) := by
  refine (eat_still _).bind fun o => ?_
  cases o with
  | none => exact .pure _
  | some t =>
    refine (expect_still _).bind fun o => ?_
    cases o with
    | none => exact .pure _
    | some _ =>
      refine metaValue_still.bind fun o => ?_
      cases o with
      | none => exact .pure _
      | some value => exact pointHere_still.bind fun _ => .pure _

theorem hexJump_still : Still hexJump := by
  refine (eat_still _).bind fun _ => (eat_still _).bind fun o => ?_
  have close : Still (do let _ ← expect (.symbol .rbracket)) :=
    (expect_still _).bind fun _ => .pure _
  exact .ite ((eat_still _).bind fun _ => close) close

theorem hexStep_still (lbrace : Span) (progress : HexProgress) :
    Still (hexStep lbrace progress) := by
  cases progress with
  | ended stop => exact .pure _
  | within parens =>
    have unbalanced : Still (do
        report .unbalancedBraces lbrace
        return .done (.ended (← lastStop)) : Parser (ForInStep HexProgress)) :=
      (report_still _ _ (by nofun)).bind fun _ => (Still.look run_lastStop).bind fun _ => .pure _
    refine (Still.look run_peek).bind fun o => ?_
    cases o with
    | none => exact unbalanced
    | some t =>
      refine .ite (advance_still.bind fun _ => .pure _) <|
        .ite ((advanceInto_still _).bind fun _ => hexJump_still.bind fun _ => .pure _) <|
        .ite (advance_still.bind fun _ => .pure _) <| .ite (advance_still.bind fun _ => .pure _) <|
        .ite (advance_still.bind fun _ => .pure _) <| .ite (advance_still.bind fun _ => .pure _) ?_
      refine (Still.look run_atSyncPoint).bind fun _ => .ite unbalanced ?_
      refine (unexpected_still _).bind fun _ => skipToSyncPoint_still.bind fun _ =>
        (eat_still _).bind fun o => ?_
      cases o with
      | some rbrace => exact .pure _
      | none => exact (Still.look run_lastStop).bind fun _ => .pure _

theorem hexPattern_still (lbrace : Span) : Still (hexPattern lbrace) := by
  refine (Still.iterate (hexStep_still lbrace) _).bind fun progress => ?_
  cases progress with
  | ended stop => exact .pure _
  | within _ => exact .look run_lastStop

theorem patternValue_still : Still patternValue := by
  refine (Still.look run_peek).bind fun o => ?_
  cases o with
  | none => exact (unexpected_still _).bind fun _ => .pure _
  | some t =>
    dsimp only
    split
    · exact advance_still.bind fun _ => .pure _
    · exact advance_still.bind fun _ => .pure _
    · exact advance_still.bind fun _ => (report_still _ _ (by nofun)).bind fun _ => .pure _
    · exact advance_still.bind fun _ => (report_still _ _ (by nofun)).bind fun _ => .pure _
    · exact (advanceInto_still _).bind fun _ => (hexPattern_still _).bind fun _ => .pure _
    · exact (unexpected_still _).bind fun _ => .pure _

theorem skipArguments_still : Still skipArguments := by
  have step : ∀ u, Still (argumentStep u) := fun u =>
    (Still.look run_atArgumentsEnd).bind fun _ =>
      .ite (.pure _) (advance_still.bind fun _ => .pure _)
  refine (eat_still _).bind fun _ => .ite ?_ (.pure _)
  exact (Still.iterate step ()).bind fun _ => (expect_still _).bind fun _ => .pure _

theorem modifierStep_still (modifiers : List Modifier) : Still (modifierStep modifiers) := by
  refine (Still.look run_peek).bind fun o => ?_
  cases o with
  | none => exact .pure _
  | some t =>
    have keep : Still
      (do return ForInStep.yield (modifiers ++ [⟨⟨t.start, ← lastStop⟩, t.name⟩])) :=
      (Still.look run_lastStop).bind fun _ => .pure _
    refine (Still.look (run_isBareModifier · _)).bind fun bare =>
      .ite (advance_still.bind fun _ => keep) (.ite ?_ (.pure _))
    exact advance_still.bind fun _ => skipArguments_still.bind fun _ => keep

theorem modifiers_still : Still modifiers := .iterate modifierStep_still []

theorem keepPattern_still (patterns : List Pattern) (p : Pattern) :
    Still (keepPattern patterns p) := by
  unfold keepPattern
  refine .ite (.pure _) ?_
  split
  · exact (report_still _ _ (by nofun)).bind fun _ => .pure _
  · exact .pure _

theorem dropDeclaration_still (t : Token) (patterns : List Pattern) :
    Still (dropDeclaration t patterns) := by
  refine (report_still _ _ (by nofun)).bind fun _ => advance_still.bind fun _ =>
    advance_still.bind fun _ => ?_
  refine patternValue_still.bind fun o => ?_
  cases o with
  | none => exact .pure _
  | some _ => exact modifiers_still.bind fun _ => .pure _

theorem declaration_still (t : Token) (patterns : List Pattern) :
    Still (declaration t patterns) := by
  refine advance_still.bind fun _ => (expect_still _).bind fun o => ?_
  cases o with
  | none => exact .pure _
  | some _ =>
    refine patternValue_still.bind fun o => ?_
    cases o with
    | none => exact .pure _
    | some value =>
      exact modifiers_still.bind fun _ => pointHere_still.bind fun _ =>
        (keepPattern_still _ _).bind fun _ => .pure _

theorem patternStep_still (patterns : List Pattern) : Still (patternStep patterns) := by
  refine (Still.look run_peek).bind fun o => ?_
  cases o with
  | none => exact .pure _
  | some t =>
    refine .ite (declaration_still t patterns) ?_
    exact (Still.look (run_declaresMisnamed · _)).bind fun _ =>
      .ite (dropDeclaration_still t patterns) (.pure _)

theorem sectionHead_still (kind : SectionKind) (duplicate : Bool) (keyword : Token) :
    Still (sectionHead kind duplicate keyword) := by
  have head : Still
    (do let _ ← expect (.symbol .colon); return ⟨keyword.start, ← lastStop⟩ : Parser Span) :=
    (expect_still _).bind fun _ => (Still.look run_lastStop).bind fun _ => .pure _
  exact .ite ((report_still _ _ (by nofun)).bind fun _ => head) head

/-- Where a section ends when the parse has come to its end. -/
def stopAhead : Parser Nat := do
  match ← peek with
  | some t => return t.start
  | none => textStop

theorem run_stopAhead (s : ParseState) : stopAhead.run s = (sectionStop s, s) := by
  rw [stopAhead, run_bind, run_peek, sectionStop]
  cases s.next? <;> rfl

theorem stopAhead_still : Still stopAhead := .look run_stopAhead

theorem sectionEnd_still : Still sectionEnd := by
  refine (Still.look run_atSyncPoint).bind fun _ =>
    (Still.look Lockstep.run_atFalseTopLevelModifier).bind fun _ => .ite ?_ stopAhead_still
  exact (unexpected_still _).bind fun _ => skipToSyncPoint_still.bind fun _ => stopAhead_still

theorem flagStep_still (flags : RuleFlags) : Still (flagStep flags) := by
  refine (Still.look run_peek).bind fun o => ?_
  cases o with
  | none => exact .pure _
  | some t =>
    refine .ite (advance_still.bind fun _ => ?_) (.ite (advance_still.bind fun _ => ?_) (.pure _))
    · exact .ite ((report_still _ _ (by nofun)).bind fun _ => .pure _) (.pure _)
    · exact .ite ((report_still _ _ (by nofun)).bind fun _ => .pure _) (.pure _)

theorem ruleHead_still (flags : RuleFlags) : Still (ruleHead flags) := by
  have name : Still ruleName := by
    refine (eat_still _).bind fun o => ?_
    cases o with
    | some t => exact .pure _
    | none => exact (unexpected_still _).bind fun _ => pointHere_still.bind fun _ => .pure _
  have tag : ∀ tags, Still (tagStep tags) := by
    refine fun tags => (eat_still _).bind fun o => ?_
    cases o with
    | none => exact .pure _
    | some t => exact .ite ((report_still _ _ (by nofun)).bind fun _ => .pure _) (.pure _)
  have tags : Still tags := (eat_still _).bind fun _ => .ite (.iterate tag []) (.pure _)
  exact name.bind fun _ => tags.bind fun _ => (expect_still _).bind fun _ => .pure _

theorem ruleStop_still (r : Rule) : Still (ruleStop r) := by
  unfold ruleStop
  split
  · exact .pure _
  · exact .look run_lastStop

/-- A section ends where the parse has come to. -/
theorem run_sectionEnd (s : ParseState) :
    (sectionEnd.run s).1 = sectionStop (sectionEnd.run s).2 := by
  have ends : ∀ {p : Parser Nat} {s : ParseState}, p.run s = (sectionStop s, s) →
    (p.run s).1 = sectionStop (p.run s).2 :=
    fun run => by rw [run]
  rw [sectionEnd, run_bind, run_atSyncPoint, run_bind,
    Lockstep.run_atFalseTopLevelModifier, run_ite]
  split
  · rw [run_bind, run_bind]
    exact ends (run_stopAhead _)
  · exact ends (run_stopAhead _)

end Parser

/-- A span that lies inside of another one. -/
def Span.encloses (body s : Span) : Bool :=
  body.start ≤ s.start && s.start ≤ body.stop && s.stop ≤ body.stop

theorem Span.encloses_iff {body s : Span} : body.encloses s ↔ s.Lies body.start body.stop := by
  simp only [encloses, Bool.and_eq_true, decide_eq_true_eq]
  exact ⟨fun h => ⟨h.1.1, h.1.2, h.2⟩, fun h => ⟨⟨h.start, h.begun⟩, h.stop⟩⟩

/-- The errors that say that an expression in a section is nested too deeply. -/
def RuleSection.deepReports (sec : RuleSection) (errors : List SyntaxError) : List SyntaxError :=
  errors.filter fun e => e.fault == .nestingTooDeep && sec.body.encloses e.span

namespace ParseState

variable {s t : ParseState}

theorem aheadStart_le_stop (s : ParseState) : s.aheadStart ≤ Parser.sectionStop s := by
  unfold aheadStart Parser.sectionStop
  cases s.next? with
  | none => exact Nat.le_add_right _ _
  | some u => exact Nat.le_refl _

theorem Before.sectionStop_le (h : s.Before t) : Parser.sectionStop s ≤ Parser.sectionStop t := by
  cases h.reads with
  | nothing input =>
    exact Nat.le_of_eq
      (by rw [Parser.sectionStop, Parser.sectionStop, next?, next?, textStop, textStop, input])
  | @tokens u after later next reaches =>
    have first : Parser.sectionStop s = s.aheadStart := by
      rw [Parser.sectionStop, aheadStart, next?, next]; rfl
    exact first ▸ Nat.le_trans h.aheadStart_le t.aheadStart_le_stop

theorem deepReports_eq (s : ParseState) (sec : RuleSection) :
    sec.deepReports s.errors = s.tooDeep.filter (sec.body.encloses ·.span) := by
  rw [RuleSection.deepReports, tooDeep, List.filter_filter]
  exact List.filter_congr fun e _ => Bool.and_comm _ _

end ParseState

/-- At most so many errors, and all but the first one skip nothing. -/
structure FewDeep (errors : List SyntaxError) : Prop where
  few : errors.length ≤ 388
  empty : ∀ e ∈ errors.tail, e.span.start = e.span.stop

/-- Deep nesting is reported in the conditions that were read so far, a few
times in each of them. -/
structure Attributed (sections : List RuleSection) (s : ParseState) : Prop where
  found : ∀ e ∈ s.tooDeep, ∃ sec ∈ sections, sec.kind = .condition ∧ sec.body.encloses e.span
  few : ∀ sec ∈ sections, FewDeep (s.tooDeep.filter (sec.body.encloses ·.span))
  passed : ∀ sec ∈ sections, sec.body.stop ≤ Parser.sectionStop s

namespace Attributed

variable {sections : List RuleSection} {s t : ParseState}

theorem later (h : Attributed sections s) (step : s.Before t) (silent : t.tooDeep = s.tooDeep) :
    Attributed sections t where
  found := silent ▸ h.found
  few := silent ▸ h.few
  passed sec member := Nat.le_trans (h.passed sec member) step.sectionStop_le

theorem still {p : Parser α} (h : Parser.Still p) :
    Parser.Ensures (Attributed sections) p fun _ => Attributed sections :=
  fun s attributed => attributed.later (p.forward s) (h s).2

/-- An error that was reported before a section lies in front of it. -/
theorem before (h : Attributed sections s) {body : Span}
    (behind : Parser.sectionStop s < body.start) :
    ∀ e ∈ s.tooDeep, body.encloses e.span = false := by
  intro e member
  obtain ⟨old, known, _, inside⟩ := h.found e member
  rw [← Bool.not_eq_true, Span.encloses_iff]
  intro lies
  exact absurd (calc body.start ≤ e.span.start := lies.start
    _ ≤ old.body.stop := (Span.encloses_iff.mp inside).begun
    _ ≤ Parser.sectionStop s := h.passed old known) (Nat.not_le.mpr behind)

/-- A section more, with what was reported in it. -/
theorem add (h : Attributed sections s) (step : s.Before t) {sec : RuleSection}
    {reports : List SyntaxError}
    (same : t.tooDeep = s.tooDeep ++ reports) (behind : Parser.sectionStop s < sec.body.start)
    (stop : sec.body.stop = Parser.sectionStop t)
    (inside : ∀ e ∈ reports, sec.kind = .condition ∧ sec.body.encloses e.span)
    (few : FewDeep reports) : Attributed (sections ++ [sec]) t where
  found e member := by
    rw [same] at member
    rcases List.mem_append.mp member with old | new
    · obtain ⟨known, among, fact⟩ := h.found e old
      exact ⟨known, List.mem_append_left _ among, fact⟩
    · exact ⟨sec, List.mem_append_right _ (List.mem_singleton_self sec), inside e new⟩
  few known member := by
    rw [same, List.filter_append]
    rcases List.mem_append.mp member with old | new
    · have none : reports.filter (known.body.encloses ·.span) = [] := by
        refine List.filter_eq_nil_iff.mpr fun e member lies => ?_
        refine absurd
          (calc sec.body.start ≤ e.span.start := (Span.encloses_iff.mp (inside e member).2).start
          _ ≤ known.body.stop := (Span.encloses_iff.mp lies).begun
          _ ≤ Parser.sectionStop s := h.passed known old) (Nat.not_le.mpr behind)
      rw [none, List.append_nil]
      exact h.few known old
    · obtain rfl := List.mem_singleton.mp new
      have none : s.tooDeep.filter (known.body.encloses ·.span) = [] :=
        List.filter_eq_nil_iff.mpr fun e member => Bool.eq_false_iff.mp (h.before behind e member)
      rw [none, List.nil_append, List.filter_eq_self.mpr fun e member => (inside e member).2]
      exact few
  passed known member := by
    rcases List.mem_append.mp member with old | new
    · exact Nat.le_trans (h.passed known old) step.sectionStop_le
    · obtain rfl := List.mem_singleton.mp new
      exact Nat.le_of_eq stop

end Attributed

namespace Parser

/-- What a content leaves of the sections. -/
theorem sectionContent_sections (kind : SectionKind) (duplicate : Bool) (r : Rule) :
    (sectionContent kind duplicate r).Gives fun q => q.sections = r.sections := by
  cases kind with
  | metas | strings => exact .bind fun _ => .pure rfl
  | condition =>
    refine .bind fun e => .pure ?_
    cases duplicate <;> rfl

/-- Deep nesting is only reported in a condition, between its colon and where
parsing resumes. -/
theorem sectionContent_reports (kind : SectionKind) (duplicate : Bool) (r : Rule) (s : ParseState) :
    ∃ reports, ((sectionContent kind duplicate r).run s).2.tooDeep = s.tooDeep ++ reports ∧
      FewDeep reports ∧
      ∀ e ∈ reports, kind = .condition ∧ e.span.Lies s.input.here.offset
        (sectionStop ((sectionContent kind duplicate r).run s).2) := by
  have none : FewDeep [] := ⟨by decide, nofun⟩
  have silent : ∀ {p : Parser Rule}, Still p →
      ∃ reports, (p.run s).2.tooDeep = s.tooDeep ++ reports ∧ FewDeep reports ∧
      ∀ e ∈ reports, kind = .condition ∧
        e.span.Lies s.input.here.offset (sectionStop (p.run s).2) := fun still =>
    ⟨[], (still s).2.trans (List.append_nil _).symm, none, nofun⟩
  cases kind with
  | metas => exact silent ((Still.iterate metaStep_still _).bind fun _ => .pure _)
  | strings => exact silent ((Still.iterate patternStep_still _).bind fun _ => .pure _)
  | condition =>
    have same : ((sectionContent .condition duplicate r).run s).2 = (expression.run s).2 := rfl
    rw [same]
    rcases (expression_reports s).reports with silent | ⟨_, first, k, reported, few, lies⟩
    · exact ⟨[], silent.trans (List.append_nil _).symm, none, nofun⟩
    · refine ⟨_, reported, ⟨?_, fun e member => ?_⟩, fun e member => ⟨rfl, ?_⟩⟩
      · have most : k < 388 := Nat.lt_of_lt_of_le few (by unfold ParseState.quota; split <;> decide)
        rw [List.length_cons, List.length_replicate]
        exact most
      · rw [List.eq_of_mem_replicate member]
        rfl
      · have stop := (expression.run s).2.aheadStart_le_stop
        rcases List.mem_cons.mp member with rfl | again
        · exact lies.raise stop
        · rw [List.eq_of_mem_replicate again]
          have start :=
            Nat.le_trans (expression.forward s).here_le (expression.run s).2.here_le_aheadStart
          exact ⟨start, stop, stop⟩

/-- A section more is read, and what is reported in it is reported there. -/
theorem ruleSection_attributed {known : List RuleSection} (kind : SectionKind) (r : Rule) :
    Ensures (Attributed (known ++ r.sections)) (ruleSection kind r) fun q =>
      Attributed (known ++ q.sections) := by
  intro s attributed
  rw [ruleSection, run_bind, run_advance]
  cases next : s.next? with
  | none =>
    dsimp only
    rw [ParseState.advanced_of_none next]
    exact attributed
  | some keyword =>
    dsimp only
    generalize r.sections.any (·.kind == kind) = duplicate
    have first := (advance.forward s)
    have silent := (advance_still s).2
    have here := ParseState.advanced_here next .normal
    have wide := ParseState.next?_wide next
    have start : sectionStop s = keyword.start := by rw [sectionStop, next]; rfl
    rw [run_advance] at first silent
    generalize s.advanced .normal = s₁ at first silent here ⊢
    have head := (sectionHead kind duplicate keyword).forward s₁
    have silent₁ := (sectionHead_still kind duplicate keyword s₁).2
    have span := run_sectionHead kind duplicate keyword s₁
    rw [run_bind]
    generalize (sectionHead kind duplicate keyword).run s₁ = e₁ at head silent₁ span ⊢
    have content := (sectionContent kind duplicate r).forward e₁.2
    obtain ⟨reports, reported, few, inside⟩ := sectionContent_reports kind duplicate r e₁.2
    have sections := sectionContent_sections kind duplicate r e₁.2
    rw [run_bind]
    generalize (sectionContent kind duplicate r).run e₁.2 = e₂ at content reported inside sections ⊢
    have rest := sectionEnd.forward e₂.2
    have silent₃ := (sectionEnd_still e₂.2).2
    have stop := run_sectionEnd e₂.2
    rw [run_bind]
    generalize sectionEnd.run e₂.2 = e₃ at rest silent₃ stop ⊢
    show Attributed (known ++ (e₂.1.sections ++ [⟨kind, e₁.1, ⟨keyword.start, e₃.1⟩⟩])) e₃.2
    rw [sections, ← List.append_assoc]
    refine attributed.add (first.trans (head.trans (content.trans rest))) ?_ ?_ stop
      (fun e member => ?_) few
    · rw [silent₃, reported, silent₁, silent]
    · show sectionStop s < e₁.1.stop
      rw [start, span]
      exact Nat.lt_of_lt_of_le (here ▸ wide) head.here_le
    · obtain ⟨condition, lies⟩ := inside e member
      refine ⟨condition, Span.encloses_iff.mpr ?_⟩
      show e.span.Lies e₁.1.stop e₃.1
      rw [span, stop]
      exact lies.raise rest.sectionStop_le

theorem bodyStep_attributed {known : List RuleSection} (r : Rule) :
    Ensures (Attributed (known ++ r.sections)) (bodyStep r)
      (Ensures.round (fun q => Attributed (known ++ q.sections)) fun q =>
        Attributed (known ++ q.sections)) := by
  refine (Attributed.still (.look run_peek)).bind fun o => ?_
  cases o with
  | none =>
    exact (Attributed.still (report_still _ _ (by nofun))).bind fun _ => .pure fun _ attributed =>
      attributed
  | some t =>
    dsimp only
    split
    · exact (Attributed.still advance_still).bind fun _ => .pure fun _ attributed => attributed
    split
    · refine (Attributed.still (setPanicking_still false)).bind fun _ => ?_
      exact (ruleSection_attributed _ r).bind fun q => .pure fun _ attributed => attributed
    · refine (Attributed.still (.look run_atTopLevelItem)).bind fun item => ?_
      split
      · exact (Attributed.still (report_still _ _ (by nofun))).bind fun _ =>
          .pure fun _ attributed => attributed
      · exact (Attributed.still ((unexpected_still _).bind fun _ => advance_still)).bind fun _ =>
          .pure fun _ attributed => attributed

theorem ruleAfterKeyword_attributed {known : List RuleSection} (start : Nat) (flags : RuleFlags) :
    Ensures (Attributed known) (ruleAfterKeyword start flags) fun r =>
      Attributed (known ++ r.sections) := by
  have head : Ensures (Attributed known) (ruleHead flags) fun r =>
      Attributed (known ++ r.sections) := by
    intro s attributed
    have none : (ruleHead flags).Gives fun r => r.sections = [] :=
      .bind fun _ => .bind fun _ => .bind fun _ => .pure rfl
    rw [none s, List.append_nil]
    exact Attributed.still (ruleHead_still flags) s attributed
  refine head.bind fun r => (Ensures.iterate bodyStep_progress bodyStep_attributed r).bind
    fun q => ?_
  refine (Attributed.still (ruleStop_still q)).bind fun stop => ?_
  split
  · exact (Attributed.still (report_still _ _ (by nofun))).bind fun _ => .pure fun _ attributed =>
      attributed
  · exact .pure fun _ attributed => attributed

theorem ruleItem_attributed {known : List RuleSection} :
    Ensures (Attributed known) ruleItem fun o =>
      Attributed (known ++ o.toList.flatMap (·.sections)) := by
  have nothing : Ensures (Attributed known) (Pure.pure none : Parser (Option Rule)) fun o =>
      Attributed (known ++ o.toList.flatMap (·.sections)) :=
        .pure fun s attributed => (List.append_nil known).symm ▸ attributed
  refine (Attributed.still (.look run_peek)).bind fun o => ?_
  cases o with
  | none => exact nothing
  | some t =>
    refine (Attributed.still (.iterate flagStep_still _)).bind fun flags =>
      (Attributed.still (expect_still _)).bind fun o => ?_
    cases o with
    | none => exact nothing
    | some _ =>
      refine (ruleAfterKeyword_attributed _ flags).bind fun r => .pure fun s attributed => ?_
      simpa using attributed

theorem itemStep_attributed (items : Items) :
    Ensures (Attributed (items.rules.flatMap (·.sections))) (itemStep items)
      (Ensures.round (fun items => Attributed (items.rules.flatMap (·.sections))) fun items =>
        Attributed (items.rules.flatMap (·.sections))) := by
  refine (Attributed.still (.look run_peekKind)).bind fun o => ?_
  split
  · exact .pure fun _ attributed => attributed
  · exact (Attributed.still ((setPanicking_still false).bind fun _ => importItem_still)).bind
      fun _ => .pure fun _ attributed => attributed
  · exact (Attributed.still ((setPanicking_still false).bind fun _ => includeItem_still)).bind
      fun _ => .pure fun _ attributed => attributed
  · split
    · refine (Attributed.still (setPanicking_still false)).bind fun _ =>
        ruleItem_attributed.bind fun o => .pure fun s attributed => ?_
      show Attributed ((items.rules ++ o.toList).flatMap (·.sections)) s
      rw [List.flatMap_append]
      exact attributed
    · exact (Attributed.still ((unexpected_still _).bind fun _ => advance_still)).bind fun _ =>
        .pure fun _ attributed => attributed

end Parser

theorem parse_attributed (text : List Char) :
    Attributed ((parse text).rules.flatMap (·.sections)) (finalState text) :=
  Parser.Ensures.iterate Parser.itemStep_progress Parser.itemStep_attributed ⟨[], [], []⟩
    (Parser.initial text) { found := nofun, few := nofun, passed := nofun }

/-- In every text, deep nesting is reported in conditions only. In each
condition it is reported at most so often, and only the first report skips
something: the other ones are at the place where parsing resumes. -/
theorem deepNesting_reports (text : List Char) :
    (∀ e ∈ (parse text).errors, e.fault = .nestingTooDeep →
      ∃ r ∈ (parse text).rules, ∃ sec ∈ r.sections, sec.kind = .condition ∧
        sec.body.encloses e.span) ∧
    ∀ r ∈ (parse text).rules, ∀ sec ∈ r.sections,
      FewDeep (sec.deepReports (parse text).errors) := by
  have attributed := parse_attributed text
  refine ⟨fun e member deep => ?_, fun r member sec inside => ?_⟩
  · have reported : e ∈ (finalState text).tooDeep :=
      List.mem_filter.mpr ⟨member, beq_iff_eq.mpr deep⟩
    obtain ⟨sec, inside, fact⟩ := attributed.found e reported
    obtain ⟨r, member, inside⟩ := List.mem_flatMap.mp inside
    exact ⟨r, member, sec, inside, fact⟩
  · show FewDeep (sec.deepReports (finalState text).errors)
    rw [ParseState.deepReports_eq]
    exact attributed.few sec (List.mem_flatMap.mpr ⟨r, member, inside⟩)

/-- A range at the limit of nesting. -/
def signedRange : List Char :=
  "rule a \x7b condition: ".toList ++ List.replicate 127 '~' ++ "#a in (1..2) \x7d".toList

/-- Each of the two ends of the range is reported. -/
theorem deepNesting_reports_signedRange : ∃ r ∈ (parse signedRange).rules, ∃ sec ∈ r.sections,
    (sec.deepReports (parse signedRange).errors).map (·.span) = [⟨154, 159⟩, ⟨160, 160⟩] ∧
      FewDeep (sec.deepReports (parse signedRange).errors) := by
  have spans : (parse signedRange).rules.map (fun r => r.sections.map fun sec =>
      (sec.deepReports (parse signedRange).errors).map (·.span)) =
        [[[⟨154, 159⟩, ⟨160, 160⟩]]] := by decide +kernel
  obtain ⟨r, member, same⟩ := List.mem_map.mp (spans ▸ List.mem_singleton_self _)
  obtain ⟨sec, inside, same⟩ := List.mem_map.mp (same ▸ List.mem_singleton_self _)
  exact ⟨r, member, sec, inside, same, (deepNesting_reports signedRange).2 r member sec inside⟩

end RuleDesk
