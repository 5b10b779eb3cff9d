import RuleDesk.Proofs.Parsing.Written

namespace RuleDesk

/-! ## A rule around a hex pattern

What stands before the hex pattern is always read the same. Where the pattern ends in front
of the condition, so is what stands behind it, whatever was reported in the pattern. -/

/-- The section of the condition and the last brace. -/
def conditionTail (body : List Char) : List Char :=
  "condition".toList ++ ([':'] ++ (' ' :: (body ++ " \x7d".toList)))

/-- The text behind the brace of the pattern. -/
def conditionText (body : List Char) : List Char := ' ' :: conditionTail body

/-- A rule with a hex pattern and a condition. -/
def hexRule (h body : List Char) : List Char :=
  "rule A \x7b strings: $a = \x7b".toList ++ (h ++ '}' :: conditionText body)

namespace ParseState

variable {s : ParseState} {c after : Cursor} {t : Token} (here : s.input.here = c)
    (next : c.nextSolid? = some (t, after))

include here next

theorem ahead_at : s.input.ahead = some (t, after) := s.input.ahead_eq.trans (here ▸ next)

theorem next_at : s.next? = some t := congrArg (Option.map Prod.fst) (ahead_at here next)

theorem kind_at : s.kindAhead? = some t.kind := kindAhead?_of_next (next_at here next)

theorem advanced_at (mode : Mode) : (s.advanced mode).input.here = after.enter mode := by
  rw [advanced, ahead_at here next]
  rfl

end ParseState

namespace Parser

open ParseState (behind behind_next? behind_kindAhead? behind_advanced)

/-! ### A condition of one operand -/

section Operand

variable {sub : Level → Parser Expr} {s t : ParseState} {e : Expr} {k : Kind}

/-- An operand with no operator around it is the same on each level. -/
theorem run_operand (first : s.kindAhead? = some k) (no_sign : signOperator? k = none)
    (no_negation : negationOperator? k = none)
    (run : (primary sub).run s = (e, t)) (ahead : t.kindAhead? = some (.symbol .rbrace)) :
    ∀ level ≤ Expr.operandLevel, (atLevel sub level).run s = (e, t) := by
  intro level le
  induction le using Nat.decreasingInduction with
  | self => exact postfixExpr_closes run ahead (.rbrace Expr.operandLevel)
  | of_succ level looser ih =>
    rcases level_cases looser with rfl | rfl | ⟨op, rfl⟩
    · exact (prefixed_bare first no_negation).trans ih
    · exact (prefixed_bare first no_sign).trans ih
    · rw [run_chainLevel sub op (k := .symbol .rbrace) (by rw [ih]; exact ahead) (.rbrace _)]
      exact ChainTo.ends (operatorAt_peeks _) (.first ih) (operatorAt_closes ahead (.rbrace _))

end Operand

/-- Wherever it stands between a blank and the last brace, a body is an expression. -/
def ReadsAs (body : List Char) (e : Nat → Expr) : Prop :=
  ∀ (s : ParseState) (n : Nat), s.input.here = ⟨.normal, n, ' ' :: (body ++ " \x7d".toList)⟩ →
    ∃ u, expression.run s = (e (n + 1), u) ∧
      u.input.here = ⟨.normal, n + 1 + byteLength body, " \x7d".toList⟩ ∧ u.errors = s.errors

theorem readsAs_operand {body : List Char} {e : Nat → Expr} {k : Kind} (nonempty : body ≠ [])
    (read : Lexeme.normal (body ++ " \x7d".toList) = ⟨k, body.length⟩) (meant : ¬ k.isTrivia)
    (no_sign : signOperator? k = none) (no_negation : negationOperator? k = none)
    (run : ∀ sub (s : ParseState) n, s.next? = some ⟨k, n, body⟩ →
      (s.advanced .normal).kindAhead? = some (.symbol .rbrace) →
      (primary sub).run s = (e n, s.advanced .normal)) : ReadsAs body e := by
  intro s n here
  have next := Cursor.nextSolid?_behindBlank " \x7d".toList nonempty read meant n
  have deeper : ({ s with depth := 1 } : ParseState).input.here = _ := here
  have behind := ParseState.advanced_at deeper next .normal
  have ahead := ParseState.kind_at behind (nextSolid?_lastBrace _)
  have operand := run_operand (ParseState.kind_at deeper next) no_sign no_negation
    (run (nested 127) _ _ (ParseState.next_at deeper next) ahead) ahead 0 (Nat.zero_le _)
  have whole : (orExpr (nested 127)).run { s with depth := 1 } = _ := operand
  rw [run_expression, whole]
  exact ⟨_, rfl, behind, ParseState.advanced_errors _ _⟩

theorem readsAs_true : ReadsAs "true".toList fun n => .atom .true ⟨n, n + 4⟩ := by
  refine readsAs_operand (k := .keyword .kwTrue) (List.cons_ne_nil _ _) rfl (by decide) rfl rfl
    fun sub s n next _ => ?_
  rw [primary, run_bind, run_peek, next]
  dsimp only [atomOf?]
  rw [run_bind, run_advance]
  rfl

theorem readsAs_pattern :
    ReadsAs "$a".toList fun n => .pattern ⟨"$a", ⟨n, n + 2⟩⟩ .anywhere ⟨n, n + 2⟩ := by
  refine readsAs_operand (k := .sigil .identity) (List.cons_ne_nil _ _) rfl (by decide) rfl rfl
    fun sub s n next ahead => ?_
  have anywhere : (anchor sub).run (s.advanced .normal) = (.anywhere, s.advanced .normal) := by
    have missing : ∀ w, (eat (.keyword w)).run (s.advanced .normal) = (none, s.advanced .normal) :=
      fun w => by
      rw [run_eat, ahead]
      rfl
    rw [anchor, run_bind, missing]
    dsimp only [Option.isSome_none]
    rw [if_neg Bool.false_ne_true, run_bind, missing]
    rfl
  rw [primary, run_bind, run_peek, next]
  dsimp only [atomOf?]
  rw [run_bind, run_advance, patternExpr]
  dsimp only
  rw [run_bind, anywhere]
  rfl

/-! ### A section -/

section Sections

variable {s u : ParseState} {t : Token} {kind : SectionKind} {r r' : Rule}

/-- A section ends in front of a token where parsing resumes and that is no modifier. -/
theorem run_sectionEnd_sync (next : s.next? = some t) (sync : isSyncKind t.kind)
    (other : isRuleModifier t.kind = false) :
    sectionEnd.run s = (t.start, s) := by
  have ahead := ParseState.kindAhead?_of_next next
  have no_modifier : Lockstep.falseModifier s = false := by
    rw [isRuleModifier] at other
    rw [Lockstep.falseModifier, ahead]
    simp only [Option.some_beq_some, other, Bool.false_and]
  rw [sectionEnd, run_bind, run_atSyncPoint, run_bind, Lockstep.run_atFalseTopLevelModifier,
    no_modifier, ahead]
  dsimp only
  rw [Option.all_some, sync]
  simp only [Bool.not_true, Bool.or_false, Bool.false_eq_true, if_false]
  rw [run_bind, run_peek, next]
  rfl

/-- The body of a rule goes on with a section at its keyword. -/
theorem run_bodyStep_section (next : s.next? = some t) (opens : sectionKindOf? t.kind = some kind)
    (r : Rule) :
    (bodyStep r).run s = (.yield ((ruleSection kind r).run { s with panicking := false }).1,
      ((ruleSection kind r).run { s with panicking := false }).2) := by
  have other : t.kind ≠ .symbol .rbrace := by
    intro brace
    rw [brace] at opens
    cases opens
  rw [bodyStep, run_bind, run_peek, next]
  dsimp only
  rw [if_neg other, opens]
  rfl

/-- The first section of its kind, with its colon. -/
theorem run_ruleSection (next : s.next? = some t)
    (colon : (s.advanced .normal).kindAhead? = some (.symbol .colon))
    (first : r.sections.any (·.kind == kind) = false)
    (content : (sectionContent kind false r).run ((s.advanced .normal).advanced .normal) =
    (r', u)) :
    (ruleSection kind r).run s = ({ r' with sections := r'.sections ++
      [⟨kind, ⟨t.start, ((s.advanced .normal).advanced .normal).input.here.offset⟩,
        ⟨t.start, (sectionEnd.run u).1⟩⟩] }, (sectionEnd.run u).2) := by
  have head : (sectionHead kind false t).run (s.advanced .normal) =
      (⟨t.start, ((s.advanced .normal).advanced .normal).input.here.offset⟩,
        (s.advanced .normal).advanced .normal) := by
    rw [sectionHead, if_neg Bool.false_ne_true, run_bind, run_expect colon]
    rfl
  rw [ruleSection, run_bind, run_advance, next]
  dsimp only
  rw [first, run_bind, head, run_bind, content]
  rfl

/-- The brace at the end closes the rule. -/
theorem run_bodyStep_close {m : Nat} (last : s.input.here = ⟨.normal, m, " \x7d".toList⟩)
    (r : Rule) :
    (bodyStep r).run s = (.done { r with rbrace := some ⟨m + 1, m + 2⟩ }, s.advanced .normal) := by
  rw [bodyStep, run_bind, run_peek, ParseState.next_at last (nextSolid?_lastBrace m)]
  dsimp only
  rw [if_pos rfl, run_bind, run_advance]
  rfl

/-- A rule with a condition and a brace at its end. -/
theorem run_ruleAfterKeyword_closed {start : Nat} {flags : RuleFlags} {b : Rule} {brace : Span}
    (head : (ruleHead flags).run s = (r, u))
    {v : ParseState} (body : (iterate bodyStep r).run u = (b, v)) (closed : b.rbrace = some brace)
    (headed : b.sections.any (·.kind == .condition) = true) :
    (ruleAfterKeyword start flags).run s = ({ b with span := ⟨start, brace.stop⟩ }, v) := by
  rw [ruleAfterKeyword, run_bind, head, run_bind, body, ruleStop]
  dsimp only
  rw [closed, headed]
  rfl

end Sections

theorem iterate_first (step : α → Parser (ForInStep α)) (a : α) (s : ParseState) :
    ((step a).run s).2.Before ((iterate step a).run s).2 := by
  rw [iterate, run_bind, run_look, iterateIn, run_bind]
  cases (step a).run s with
  | mk r t =>
    cases r with
    | done b => exact .refl t
    | yield b => exact (iterateIn step _ b).forward t

/-! ### Before the pattern -/

/-- The tokens before the sections, the latest one first. -/
def headRead : List Token :=
  [⟨.symbol .lbrace, 7, ['{']⟩, ⟨.ident, 5, ['A']⟩, ⟨.keyword .kwRule, 0, "rule".toList⟩]

/-- The tokens before the patterns. -/
def stringsRead : List Token :=
  ⟨.symbol .colon, 16, [':']⟩ :: ⟨.keyword .kwStrings, 9, "strings".toList⟩ :: headRead

/-- The tokens before the content of the pattern. -/
def patternRead : List Token :=
  ⟨.symbol .lbrace, 23, ['{']⟩ :: ⟨.symbol .equal, 21, ['=']⟩ ::
    ⟨.sigil .identity, 18, "$a".toList⟩ :: stringsRead

/-- The rule as far as it is known before its sections. -/
def patternHead : Rule where
  isPrivate := false
  isGlobal := false
  ident := ⟨"A", ⟨5, 6⟩⟩
  tags := []
  metas := []
  patterns := []
  condition := none
  sections := []
  lbrace := some ⟨7, 8⟩
  rbrace := none
  span := ⟨5, 6⟩

section Head

variable (rest : List Char)

theorem pattern_name : (⟨.normal, 4, ' ' :: (['A'] ++ (' ' :: rest))⟩ : Cursor).nextSolid? =
    some (⟨.ident, 5, ['A']⟩, ⟨.normal, 6, ' ' :: rest⟩) :=
  Cursor.nextSolid?_behindBlank (' ' :: rest) (List.cons_ne_nil _ _) rfl (by decide) 4

theorem pattern_keyword :
    (⟨.normal, 8, ' ' :: ("strings".toList ++ ([':'] ++ rest))⟩ : Cursor).nextSolid? =
    some (⟨.keyword .kwStrings, 9, "strings".toList⟩, ⟨.normal, 16, [':'] ++ rest⟩) :=
  Cursor.nextSolid?_behindBlank ([':'] ++ rest) (List.cons_ne_nil _ _) rfl (by decide) 8

theorem pattern_colon : (⟨.normal, 16, [':'] ++ (' ' :: rest)⟩ : Cursor).nextSolid? =
    some (⟨.symbol .colon, 16, [':']⟩, ⟨.normal, 17, ' ' :: rest⟩) :=
  Cursor.nextSolid?_read (' ' :: rest) (List.cons_ne_nil _ _) rfl (by decide) 16

theorem pattern_identifier :
    (⟨.normal, 17, ' ' :: ("$a".toList ++ (' ' :: rest))⟩ : Cursor).nextSolid? =
    some (⟨.sigil .identity, 18, "$a".toList⟩, ⟨.normal, 20, ' ' :: rest⟩) :=
  Cursor.nextSolid?_behindBlank (' ' :: rest) (List.cons_ne_nil _ _) rfl (by decide) 17

theorem pattern_equal : (⟨.normal, 20, ' ' :: (['='] ++ (' ' :: rest))⟩ : Cursor).nextSolid? =
    some (⟨.symbol .equal, 21, ['=']⟩, ⟨.normal, 22, ' ' :: rest⟩) :=
  Cursor.nextSolid?_behindBlank (' ' :: rest) (List.cons_ne_nil _ _) rfl (by decide) 20

theorem pattern_lbrace : (⟨.normal, 22, ' ' :: (['{'] ++ rest)⟩ : Cursor).nextSolid? =
    some (⟨.symbol .lbrace, 23, ['{']⟩, ⟨.normal, 24, rest⟩) :=
  Cursor.nextSolid?_behindBlank rest (List.cons_ne_nil _ _) rfl (by decide) 22

end Head

variable (h body : List Char)

/-- Where the content of the pattern starts. -/
def atPattern : ParseState := behind patternRead ⟨.hex, 24, h ++ '}' :: conditionText body⟩

/-- The text behind the colon of the patterns. -/
def declarationText : List Char :=
  ' ' :: ("$a".toList ++ (' ' :: (['='] ++ (' ' :: (['{'] ++ (h ++ '}' :: conditionText body))))))

/-- Where the pattern ends and the state there. -/
def afterPattern : Nat × ParseState := (hexPattern ⟨23, 24⟩).run (atPattern h body)

/-- What is done behind the value of the pattern. -/
def declared (value : Span) : Parser (ForInStep (List Pattern)) := do
  let modifiers ← modifiers
  return .yield (← keepPattern [] ⟨(⟨18, 20⟩ : Span).through (← pointHere), ⟨"$a", ⟨18, 20⟩⟩, .hex,
    value, modifiers⟩)

theorem behind_entered {read : List Token} {c after : Cursor} {t : Token}
    (next : c.nextSolid? = some (t, after)) (mode : Mode) :
    (behind read c).advanced mode = behind (t :: read) (after.enter mode) := by
  have ahead : (behind read c).input.ahead = some (t, after) := next
  rw [ParseState.advanced, ahead]
  rfl

theorem run_patternStep_pattern :
    (patternStep []).run (behind stringsRead ⟨.normal, 17, declarationText h body⟩) =
    (declared ⟨23, (afterPattern h body).1⟩).run (afterPattern h body).2 := by
  have identifier :=
    pattern_identifier (['='] ++ (' ' :: (['{'] ++ (h ++ '}' :: conditionText body))))
  have equal := pattern_equal (['{'] ++ (h ++ '}' :: conditionText body))
  have brace := pattern_lbrace (h ++ '}' :: conditionText body)
  have value : patternValue.run
      (behind (⟨.symbol .equal, 21, ['=']⟩ :: ⟨.sigil .identity, 18, "$a".toList⟩ :: stringsRead)
      ⟨.normal, 22, ' ' :: (['{'] ++ (h ++ '}' :: conditionText body))⟩) =
      (some (.hex, ⟨23, (afterPattern h body).1⟩), (afterPattern h body).2) := by
    rw [patternValue, run_bind, run_peek, behind_next? brace]
    dsimp only
    rw [run_bind, run_advanceInto, behind_entered brace]
    rfl
  rw [patternStep, run_bind, run_peek, declarationText, behind_next? identifier]
  dsimp only
  rw [if_pos rfl, declaration, run_bind, run_advance, behind_advanced identifier, run_bind,
    run_expect (behind_kindAhead? equal), behind_next? equal, behind_advanced equal]
  dsimp only
  rw [run_bind, value]
  rfl

/-- The rule behind its first section, of what is read as its patterns. -/
def patternsRule (patterns : List Pattern) (stop : Nat) : Rule :=
  { patternHead with patterns, sections := [⟨.strings, ⟨9, 17⟩, ⟨9, stop⟩⟩] }

theorem run_bodyStep_pattern : (bodyStep patternHead).run
    (behind headRead ⟨.normal, 8, ' ' :: ("strings".toList ++ ([':'] ++ declarationText h body))⟩) =
      let declarations :=
        (iterate patternStep []).run (behind stringsRead ⟨.normal, 17, declarationText h body⟩)
      let ended := sectionEnd.run declarations.2
      (.yield (patternsRule declarations.1 ended.1), ended.2) := by
  have keyword := pattern_keyword (declarationText h body)
  have colon : (⟨.normal, 16, [':'] ++ declarationText h body⟩ : Cursor).nextSolid? =
    some (⟨.symbol .colon, 16, [':']⟩, ⟨.normal, 17, declarationText h body⟩) := pattern_colon _
  generalize declarationText h body = text at keyword colon ⊢
  have advanced : (behind headRead _).advanced .normal = _ := behind_advanced keyword
  have advanced' : (behind (⟨.keyword .kwStrings, 9, "strings".toList⟩ :: headRead) _).advanced
      .normal = _ := behind_advanced colon
  have content : (sectionContent .strings false patternHead).run
      (((behind headRead ⟨.normal, 8, ' ' :: ("strings".toList ++ ([':'] ++ text))⟩).advanced
        .normal).advanced .normal) =
        ({ patternHead with
            patterns := ((iterate patternStep []).run (behind stringsRead ⟨.normal, 17, text⟩)).1 },
          ((iterate patternStep []).run (behind stringsRead ⟨.normal, 17, text⟩)).2) := by
    rw [advanced, advanced']
    rfl
  have calm : ∀ read c, ({ behind read c with panicking := false } : ParseState) = behind read c :=
    fun _ _ => rfl
  rw [run_bodyStep_section (behind_next? keyword) rfl, calm,
    run_ruleSection (behind_next? keyword) (by rw [advanced]; exact behind_kindAhead? colon)
      rfl content,
    advanced, advanced']
  rfl

theorem initial_hexRule : initial (hexRule h body) = behind
    [] (.start ("rule".toList ++ (' ' :: (['A'] ++ (' ' :: (['{'] ++
    (' ' :: ("strings".toList ++ ([':'] ++ declarationText h body))))))))) := rfl

/-- The first item of the text is the rule. -/
theorem run_itemStep_hexRule : (itemStep ⟨[], [], []⟩).run (initial (hexRule h body)) =
    let parsed :=
      (ruleAfterKeyword 0 ⟨false, false⟩).run (behind [⟨.keyword .kwRule, 0, "rule".toList⟩]
      ⟨.normal, 4, ' ' :: (['A'] ++
        (' ' :: (['{'] ++ (' ' :: ("strings".toList ++ ([':'] ++ declarationText h body))))))⟩)
    (.yield ⟨[], [], [parsed.1]⟩, parsed.2) := by
  rw [initial_hexRule]
  generalize ' ' :: ("strings".toList ++ ([':'] ++ declarationText h body)) = text
  have first := head_rule (['A'] ++ (' ' :: (['{'] ++ text)))
  have advanced : (behind [] _).advanced .normal = _ := behind_advanced first
  have calm : ∀ read c, ({ behind read c with panicking := false } : ParseState) = behind read c :=
    fun _ _ => rfl
  rw [itemStep_rule (behind_next? first) rfl, calm, advanced]
  simp only [List.nil_append]

theorem run_ruleHead_pattern (rest : List Char) : (ruleHead ⟨false, false⟩).run
    (behind [⟨.keyword .kwRule, 0, "rule".toList⟩]
      ⟨.normal, 4, ' ' :: (['A'] ++ (' ' :: (['{'] ++ rest)))⟩) =
      (patternHead, behind headRead ⟨.normal, 8, rest⟩) :=
  run_ruleHead_bare ⟨false, false⟩ (pattern_name (['{'] ++ rest)) rfl (head_lbrace rest) rfl

/-- Nothing that was reported in the pattern is taken back. -/
theorem afterPattern_before : (afterPattern h body).2.Before
    ((iterate itemStep ⟨[], [], []⟩).run (initial (hexRule h body))).2 := by
  have declaring : (afterPattern h body).2.Before ((iterate patternStep []).run
      (behind stringsRead ⟨.normal, 17, declarationText h body⟩)).2 := by
    refine .trans ?_ (iterate_first _ _ _)
    rw [run_patternStep_pattern]
    exact (declared _).forward _
  have sections : (afterPattern h body).2.Before ((bodyStep patternHead).run
      (behind headRead
        ⟨.normal, 8, ' ' :: ("strings".toList ++ ([':'] ++ declarationText h body))⟩)).2 := by
    rw [run_bodyStep_pattern]
    dsimp only
    exact declaring.trans (sectionEnd.forward _)
  refine .trans ?_ (iterate_first _ _ _)
  rw [run_itemStep_hexRule]
  dsimp only
  rw [ruleAfterKeyword, run_bind, run_ruleHead_pattern, run_bind]
  dsimp only
  exact (sections.trans (iterate_first bodyStep patternHead _)).trans (Parser.forward _ _)

/-! ### Behind the pattern -/

theorem condition_keyword (n : Nat) : (⟨.normal, n, conditionText body⟩ : Cursor).nextSolid? =
    some (⟨.keyword .kwCondition, n + 1, "condition".toList⟩,
      ⟨.normal, n + 10, [':'] ++ (' ' :: (body ++ " \x7d".toList))⟩) :=
  Cursor.nextSolid?_behindBlank ([':'] ++ (' ' :: (body ++ " \x7d".toList)))
    (List.cons_ne_nil _ _) rfl (by decide) n

theorem condition_colon (n : Nat) (rest : List Char) :
    (⟨.normal, n, [':'] ++ (' ' :: rest)⟩ : Cursor).nextSolid? =
    some (⟨.symbol .colon, n, [':']⟩, ⟨.normal, n + 1, ' ' :: rest⟩) :=
  Cursor.nextSolid?_read (' ' :: rest) (List.cons_ne_nil _ _) rfl (by decide) n

/-- The pattern, of the offset where its value ends and of the one where it ends. -/
def hexDeclaration (stop n : Nat) : Pattern :=
  ⟨(⟨18, 20⟩ : Span).through (.point n), ⟨"$a", ⟨18, 20⟩⟩, .hex, ⟨23, stop⟩, []⟩

section Behind

variable {h body} {s : ParseState} {stop n : Nat}
    (here : s.input.here = ⟨.normal, n, conditionText body⟩)

include here

theorem run_declared (stop : Nat) :
    (declared ⟨23, stop⟩).run s = (.yield [hexDeclaration stop n], s) := by
  have next := ParseState.next_at here (condition_keyword body n)
  have no_modifiers : modifiers.run s = ([], s) := by
    refine run_iterate_done ?_
    rw [modifierStep, run_bind, run_peek, next]
    dsimp only
    rw [run_bind, run_isBareModifier]
    rfl
  rw [declared, run_bind, no_modifiers, run_bind, run_bind, run_pointHere, here]
  rfl

theorem run_patternStep_ends (patterns : List Pattern) :
    (patternStep patterns).run s = (.done patterns, s) := by
  rw [patternStep, run_bind, run_peek, ParseState.next_at here (condition_keyword body n)]
  rfl

theorem run_bodyStep_patterns (ends : afterPattern h body = (stop, s)) : (bodyStep patternHead).run
    (behind headRead ⟨.normal, 8, ' ' :: ("strings".toList ++ ([':'] ++ declarationText h body))⟩) =
      (.yield (patternsRule [hexDeclaration stop n] (n + 1)), s) := by
  have declaration : (patternStep []).run (behind stringsRead
      ⟨.normal, 17, declarationText h body⟩) = (.yield [hexDeclaration stop n], s) := by
    rw [run_patternStep_pattern, ends]
    exact run_declared here stop
  have declarations := (run_iterate_yield patternStep_progress declaration).trans
    (run_iterate_done (run_patternStep_ends here _))
  have ended := run_sectionEnd_sync (ParseState.next_at here (condition_keyword body n)) rfl rfl
  rw [run_bodyStep_pattern, declarations]
  dsimp only
  rw [ended]

/-- The condition is read, and what was reported before it stays as it is. -/
theorem run_bodyStep_body {e : Nat → Expr} (reads : ReadsAs body e) (r : Rule)
    (first : r.sections.any (·.kind == .condition) = false) :
    ∃ u : ParseState, u.input.here = ⟨.normal, n + 12 + byteLength body, " \x7d".toList⟩ ∧
      u.errors = s.errors ∧
      (bodyStep r).run s =
        (.yield { r with condition := some (e (n + 12)), sections := r.sections ++
        [⟨.condition, ⟨n + 1, n + 11⟩, ⟨n + 1, n + 13 + byteLength body⟩⟩] }, u) := by
  have keyword := condition_keyword body n
  have colon := condition_colon (n + 10) (body ++ " \x7d".toList)
  have calm : ({ s with panicking := false } : ParseState).input.here = _ := here
  have behind := ParseState.advanced_at calm keyword .normal
  have behind' := ParseState.advanced_at behind colon .normal
  obtain ⟨u, run, last, errors⟩ := reads _ _ behind'
  have ended := run_sectionEnd_sync (ParseState.next_at last (nextSolid?_lastBrace _)) rfl rfl
  have content : (sectionContent .condition false r).run
      ((({ s with panicking := false } : ParseState).advanced .normal).advanced .normal) =
      ({ r with condition := some (e (n + 12)) }, u) := by
    rw [sectionContent, run_bind, run]
    rfl
  refine ⟨u, last, by rw [errors, ParseState.advanced_errors, ParseState.advanced_errors], ?_⟩
  rw [run_bodyStep_section (ParseState.next_at here keyword) rfl,
    run_ruleSection (ParseState.next_at calm keyword) (ParseState.kind_at behind colon)
      first content, ended, behind']
  have stop : n + 10 + 1 + 1 + byteLength body + 1 = n + 13 + byteLength body := by omega
  rw [stop]
  rfl

/-- Where the pattern ends in front of the condition, the rule is whole. -/
theorem parse_hexRule {e : Nat → Expr} (reads : ReadsAs body e)
    (ends : afterPattern h body = (stop, s)) :
    ∃ r : Rule, (parse (hexRule h body)).rules = [r] ∧ r.condition = some (e (n + 12)) ∧
      r.patterns = [hexDeclaration stop n] ∧ (parse (hexRule h body)).errors = s.errors := by
  obtain ⟨u, last, errors, condition⟩ :=
    run_bodyStep_body here reads (patternsRule [hexDeclaration stop n] (n + 1)) rfl
  have sections := (run_iterate_yield bodyStep_progress (run_bodyStep_patterns here ends)).trans
    ((run_iterate_yield bodyStep_progress condition).trans
      (run_iterate_done (run_bodyStep_close last _)))
  have past := ParseState.advanced_at last (nextSolid?_lastBrace _) .normal
  have nothing : (u.advanced .normal).kindAhead? = none := by
    rw [ParseState.kindAhead?, ParseState.next?, (u.advanced .normal).input.ahead_eq, past]
    rfl
  have rule :=
    @run_ruleAfterKeyword_closed _ _ _ 0 _ _ _ (run_ruleHead_pattern _) _ sections rfl rfl
  have item := run_itemStep_hexRule h body
  rw [rule] at item
  have items :=
    (run_iterate_yield itemStep_progress item).trans (run_iterate_done (t := u.advanced .normal) (by
    rw [itemStep, run_bind, run_peekKind, nothing]
    rfl))
  obtain ⟨rules, reported⟩ := parse_items (hexRule h body)
  rw [rules, reported, items]
  exact ⟨_, rfl, rfl, rfl, (ParseState.advanced_errors _ _).trans errors⟩

end Behind

end Parser

end RuleDesk
