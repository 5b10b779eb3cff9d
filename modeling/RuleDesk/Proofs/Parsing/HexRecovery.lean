import RuleDesk.Proofs.Parsing.HexSteps

namespace RuleDesk

/-! ## Errors in a hex pattern

Whatever is wrong in a hex pattern, the rule goes on with its condition, as long as no
parenthesis is open at the brace of the pattern. -/

namespace Parser

/-- None of the reserved words at which parsing resumes is in the text. -/
def NoRecovery (cs : List Char) : Prop := ∀ w, isSyncKind (.keyword w) → ¬ w.text.toList <:+: cs

theorem NoRecovery.suffix {cs rest : List Char} (h : NoRecovery cs) (suffix : rest <:+ cs) :
    NoRecovery rest :=
  fun w resumes inside => h w resumes (inside.trans suffix.isInfix)

section Skip

variable {s : ParseState} {t : Token} (next : s.next? = some t)

include next

theorem run_skipStep_stays (sync : isSyncKind t.kind) : (skipStep ()).run s = (.done (), s) := by
  rw [skipStep, run_bind, run_atSyncPoint, ParseState.kindAhead?_of_next next,
    Option.all_some, sync]
  rfl

theorem run_skipStep_goes (other : isSyncKind t.kind = false) :
    (skipStep ()).run s = (.yield (), s.advanced .normal) := by
  rw [skipStep, run_bind, run_atSyncPoint, ParseState.kindAhead?_of_next next,
    Option.all_some, other]
  dsimp only
  rw [if_neg Bool.false_ne_true, run_bind, run_advance]
  rfl

end Skip

variable {body : List Char} {stop : Nat}

/-- In front of the condition. -/
def AtCondition (body : List Char) (stop : Nat) (s : ParseState) : Prop :=
  s.input.here = ⟨.normal, stop + 1, conditionText body⟩

/-- On the way to a place where parsing resumes the pattern is left: at its brace, or
behind it if something took the brace. -/
theorem skip_leaves {s : ParseState} {cs : List Char} (h : InHex (conditionTail body) stop s cs)
    (none : NoRecovery cs) :
    ∃ u, skipToSyncPoint.run s = ((), u) ∧
      ((∃ t, u.next? = some t ∧ t.kind = .symbol .rbrace ∧ t.stop = stop + 1 ∧
        AtCondition body stop (u.advanced .normal)) ∨ AtCondition body stop u) := by
  have resumes : ∀ u, AtCondition body stop u → (iterate skipStep ()).run u = ((), u) :=
    fun u here =>
    run_iterate_done (run_skipStep_stays (ParseState.next_at here (condition_keyword body _)) rfl)
  induction size : cs.length using Nat.strongRecOn generalizing s cs with
  | _ size ih =>
    subst size
    obtain ⟨t, next, ahead⟩ := h.next
    cases ahead with
    | brace white kind ends behind =>
      exact ⟨s, run_iterate_done (run_skipStep_stays next (by rw [kind]; rfl)),
        .inl ⟨t, next, kind, ends, behind⟩⟩
    | swallowed kind behind =>
      have goes := run_skipStep_goes next (by rw [kind]; rfl)
      exact ⟨_, (run_iterate_yield skipStep_progress goes).trans (resumes _ behind), .inr behind⟩
    | inside shorter suffix sync _ _ behind =>
      have other : isSyncKind t.kind = false := Bool.eq_false_iff.mpr fun resumes =>
        have ⟨w, word, inside⟩ := sync resumes
        none w word inside
      obtain ⟨u, run, left⟩ := ih _ shorter (behind .normal) (none.suffix suffix) rfl
      exact ⟨u, (run_iterate_yield skipStep_progress (run_skipStep_goes next other)).trans
        run, left⟩

/-- What has no place in the pattern costs no more than the pattern. -/
theorem recover_leaves {s : ParseState} {cs : List Char} (h : InHex (conditionTail body) stop s cs)
    (none : NoRecovery cs) (parens : Nat) :
    ∃ u, (hexRecover parens).run s = (.done (.ended (stop + 1)), u) ∧ AtCondition body stop u := by
  have reported : InHex (conditionTail body) stop ((unexpected
      (if 0 < parens then .hexByteOrAlternative else .hexByteOrBrace)).run s).2 cs := by
    rw [run_unexpected]
    dsimp only
    split <;> exact ⟨h.among, h.ahead⟩
  obtain ⟨u, skipped, left⟩ := skip_leaves reported none
  rw [hexRecover, run_bind, run_bind, skipped, run_bind, run_eat]
  rcases left with ⟨t, next, kind, ends, behind⟩ | here
  · rw [if_pos (kind ▸ ParseState.kindAhead?_of_next next), next]
    exact ⟨_, by rw [← ends]; rfl, behind⟩
  · rw [ParseState.kind_at here (condition_keyword body _), if_neg nofun]
    refine ⟨u, ?_, here⟩
    dsimp only
    rw [run_bind, run_lastStop, here]
    rfl

/-! ### Jumps -/

/-- A token of a jump is passed if it is there. -/
theorem eat_passes {back : List Char} {s : ParseState} {cs : List Char} (h : InHex back stop s cs)
    {k : Kind} (known : k ≠ .unknown)
    (opens : k ≠ .symbol .lparen) (closes : k ≠ .symbol .rparen) (other : k ≠ .symbol .rbrace) :
    ∃ rest, InHex back stop ((eat k).run s).2 rest ∧ Passed cs rest := by
  rw [run_eat]
  split
  · rename_i ahead
    obtain ⟨t, next, there⟩ := h.next
    have kind : t.kind = k :=
      Option.some.inj ((ParseState.kindAhead?_of_next next).symm.trans ahead)
    cases there with
    | brace _ brace => exact (other (kind.symm.trans brace)).elim
    | swallowed unknown => exact (known (kind.symm.trans unknown)).elim
    | @inside rest _ suffix _ opened closed behind =>
      rw [kind] at opened closed
      rw [if_neg opens] at opened
      rw [if_neg closes] at closed
      exact ⟨rest, behind .normal, suffix, opened known, closed known⟩
  · exact ⟨cs, h, .refl cs⟩

/-- What is wrong in a jump is reported and stays where it is. -/
theorem expect_passes {back : List Char} {s : ParseState} {cs : List Char}
    (h : InHex back stop s cs) :
    ∃ rest, InHex back stop ((expect (.symbol .rbracket)).run s).2 rest ∧ Passed cs rest := by
  obtain ⟨rest, left, passed⟩ := eat_passes h (k := .symbol .rbracket) nofun nofun nofun nofun
  refine ⟨rest, ?_, passed⟩
  rw [expect, run_bind]
  cases ((eat (.symbol .rbracket)).run s).1 with
  | some t => exact left
  | none =>
    dsimp only
    rw [run_bind, run_unexpected]
    dsimp only
    split <;> exact ⟨left.among, left.ahead⟩

theorem jump_passes {back : List Char} {s : ParseState} {cs : List Char}
    (h : InHex back stop s cs) :
    ∃ rest, InHex back stop (hexJump.run s).2 rest ∧ Passed cs rest := by
  obtain ⟨rest, low, first⟩ := eat_passes h (k := .integer) nofun nofun nofun nofun
  obtain ⟨rest', hyphen, second⟩ := eat_passes low (k := .symbol .hyphen) nofun nofun nofun nofun
  have high : ∃ more, InHex back stop (afterHigh
      ((eat (.symbol .hyphen)).run ((eat .integer).run s).2)) more ∧ Passed rest' more := by
    unfold afterHigh
    split
    · exact eat_passes hyphen nofun nofun nofun nofun
    · exact ⟨rest', hyphen, .refl rest'⟩
  obtain ⟨more, high, third⟩ := high
  obtain ⟨last, closed, fourth⟩ := expect_passes high
  exact ⟨last, by rw [run_hexJump]; exact closed, ((first.trans second).trans third).trans fourth⟩

/-! ### The whole pattern -/

theorem hexMove_counts {n m a b : Nat} {k : Kind} (move : hexMove n k = some m)
    (counts : n + (a + if k = .symbol .lparen then 1 else 0) ≤ b + if k = .symbol .rparen then 1
    else 0) : m + a ≤ b := by
  unfold hexMove at move
  split at move <;> (try split at move) <;> cases move <;> simp at counts <;> omega

/-- Whatever is in the pattern, it is left in front of the condition. -/
theorem hex_leaves {s : ParseState} {cs : List Char} (h : InHex (conditionTail body) stop s cs)
    (none : NoRecovery cs) {n : Nat} (counts : n + cs.count '(' ≤ cs.count ')') (lbrace : Span) :
    ∃ u, (iterate (hexStep lbrace) (.within n)).run s = (.ended (stop + 1), u) ∧
      AtCondition body stop u := by
  induction size : cs.length using Nat.strongRecOn generalizing s cs n with
  | _ size ih =>
    subst size
    obtain ⟨t, next, ahead⟩ := h.next
    have refused (refused : hexMove n t.kind = Option.none) (other : isSyncKind t.kind = false) :
        ∃ u, (iterate (hexStep lbrace) (.within n)).run s = (.ended (stop + 1), u) ∧
          AtCondition body stop u := by
      obtain ⟨u, run, left⟩ := recover_leaves h none n
      have no_brace : ¬ (t.kind = .symbol .rbrace ∧ n = 0) := by
        rintro ⟨brace, _⟩
        rw [brace] at other
        cases other
      refine ⟨u, run_iterate_done ?_, left⟩
      rw [run_hexStep_refused next refused no_brace, other, if_neg Bool.false_ne_true, run]
    cases ahead with
    | brace white kind ends behind =>
      rw [count_of_all white rfl, count_of_all white rfl, Nat.add_zero] at counts
      refine ⟨_, run_iterate_done ?_, behind⟩
      rw [run_hexStep_brace next kind (Nat.le_zero.mp counts), ends]
    | swallowed kind => exact refused (by rw [kind]; rfl) (by rw [kind]; rfl)
    | @inside rest shorter suffix sync opens closes behind =>
      cases move : hexMove n t.kind with
      | none =>
        refine refused move (Bool.eq_false_iff.mpr fun resumes => ?_)
        obtain ⟨w, word, inside⟩ := sync resumes
        exact none w word inside
      | some m =>
        have known : t.kind ≠ .unknown := by
          intro unknown
          rw [unknown] at move
          cases move
        have counts' := hexMove_counts move (by rw [← opens known, ← closes known]; exact counts)
        rw [run_iterate_yield (hexStep_progress lbrace) (run_hexStep_move next move)]
        split
        · obtain ⟨rest', left, passed⟩ := jump_passes (behind .jump)
          have less := passed.suffix.length_le
          exact ih _ (by omega) left (none.suffix (passed.suffix.trans suffix))
            (by rw [← passed.opens, ← passed.closes]; exact counts') rfl
        · exact ih _ shorter (behind .normal) (none.suffix suffix) counts' rfl

/-- The pattern and the state in front of the condition. -/
theorem afterPattern_leaves {h : List Char} (among : h.all isPatternChar) (none : NoRecovery h)
    (counts : h.count '(' ≤ h.count ')')
    (body : List Char) : ∃ u, afterPattern h body = (24 + byteLength h + 1, u) ∧
    AtCondition body (24 + byteLength h) u := by
  have start : InHex (conditionTail body) (24 + byteLength h) (atPattern h body) h :=
    ⟨among, .hex, 24, rfl, rfl⟩
  obtain ⟨u, run, left⟩ := hex_leaves start none (n := 0) (by rwa [Nat.zero_add]) ⟨23, 24⟩
  refine ⟨u, ?_, left⟩
  rw [afterPattern, hexPattern, run_bind, run]
  rfl

end Parser

/-- An error inside of a hex pattern never costs the rule its condition, as long as the
pattern closes at least as many parentheses as it opens. Behind an open one the brace of
the pattern would close the rule. -/
theorem parse_hexRule_condition {h : List Char} (among : h.all isPatternChar)
    (none : ∀ w ∈ [Keyword.kwMeta, .kwStrings, .kwCondition, .kwRule, .kwPrivate, .kwGlobal,
    .kwImport, .kwInclude], ¬ w.text.toList <:+: h)
    (closed : h.count '(' ≤ h.count ')') : ∃ r :
      Rule, (parse (hexRule h "true".toList)).rules = [r] ∧
      r.condition = some (.atom .true ⟨37 + byteLength h, 41 + byteLength h⟩) := by
  have resuming : ∀ w : Keyword, Parser.isSyncKind (.keyword w) →
      w ∈ [Keyword.kwMeta, .kwStrings, .kwCondition, .kwRule, .kwPrivate,
      .kwGlobal, .kwImport, .kwInclude] := by
    intro w
    cases w <;> decide
  obtain ⟨u, ends, left⟩ := Parser.afterPattern_leaves among
    (fun w resumes => none w (resuming w resumes)) closed "true".toList
  obtain ⟨r, rules, condition, _⟩ := Parser.parse_hexRule left Parser.readsAs_true ends
  refine ⟨r, rules, condition.trans ?_⟩
  have start : 24 + byteLength h + 1 + 12 = 37 + byteLength h := by omega
  have stop : 37 + byteLength h + 4 = 41 + byteLength h := by omega
  rw [start, stop]

/-- A byte that is cut off in a jump, alternatives that are closed twice, and text that
takes the brace of the pattern with it. -/
def brokenPattern : List Char := "01 [2-?] (03|~4\n) ) zz~[?".toList

theorem brokenPattern_plain : ∀ w ∈ [Keyword.kwMeta, .kwStrings, .kwCondition, .kwRule, .kwPrivate,
    .kwGlobal, .kwImport, .kwInclude], ¬ w.text.toList <:+: brokenPattern := by
  -- each of the words has a letter that the pattern has not
  have letter : ∀ w ∈ [Keyword.kwMeta, .kwStrings, .kwCondition, .kwRule, .kwPrivate, .kwGlobal,
      .kwImport, .kwInclude], w.text.toList.any ['a', 'i', 'e'].contains := by decide
  have absent : brokenPattern.any ['a', 'i', 'e'].contains = false := by decide
  intro w listed inside
  obtain ⟨c, member, among⟩ := List.any_eq_true.mp (letter w listed)
  exact List.any_eq_false.mp absent c (inside.subset member) among

theorem parse_hexRule_condition_broken : brokenPattern.all isPatternChar ∧
    (∀ w ∈ [Keyword.kwMeta, .kwStrings, .kwCondition, .kwRule, .kwPrivate, .kwGlobal, .kwImport,
      .kwInclude],
      ¬ w.text.toList <:+: brokenPattern) ∧ brokenPattern.count '(' ≤ brokenPattern.count ')' ∧
    ∃ r : Rule, (parse (hexRule brokenPattern "true".toList)).rules = [r] ∧
      r.condition =
        some (.atom .true ⟨37 + byteLength brokenPattern, 41 + byteLength brokenPattern⟩) :=
  ⟨by decide, brokenPattern_plain, by decide,
    parse_hexRule_condition (by decide) brokenPattern_plain (by decide)⟩

end RuleDesk
