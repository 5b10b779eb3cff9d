import RuleDesk.Proofs.Parsing.Enclosed
import RuleDesk.Proofs.Parsing.Operands

namespace RuleDesk

/-! ## A rule of one condition

What stands before the condition is always read the same, and so is the brace behind
it. So such a text meant what its condition meant. -/

/-- A rule with a condition and nothing else. -/
def oneRule (condition : List Char) : List Char :=
  "rule a \x7b condition: ".toList ++ (condition ++ " \x7d".toList)

/-- A word behind a blank. -/
theorem Cursor.nextSolid?_behindBlank {word : List Char} {k : Kind} (rest : List Char)
    (nonempty : word ≠ [])
    (read : Lexeme.normal (word ++ rest) = ⟨k, word.length⟩) (meant : ¬ k.isTrivia) (offset : Nat) :
    (⟨.normal, offset, ' ' :: (word ++ rest)⟩ : Cursor).nextSolid? =
      some (⟨k, offset + 1, word⟩, ⟨.normal, offset + 1 + byteLength word, rest⟩) := by
  rw [nextSolid?_white .normal offset rfl]
  exact nextSolid?_read rest nonempty read meant (offset + 1)

namespace ParseState

/-- A state behind some tokens, where no error has been met. -/
def behind (read : List Token) (c : Cursor) : ParseState := ⟨Input.at c, false, 0, [], read⟩

variable {read : List Token} {c after : Cursor} {t : Token} (next : c.nextSolid? = some (t, after))

include next

theorem behind_next? : (behind read c).next? = some t := by
  show (c.nextSolid?).map (·.1) = some t
  rw [next]
  rfl

theorem behind_kindAhead? : (behind read c).kindAhead? = some t.kind :=
  kindAhead?_of_next (behind_next? next)

theorem behind_advanced : (behind read c).advanced .normal = behind (t :: read) after := by
  have ahead : (behind read c).input.ahead = some (t, after) := next
  rw [advanced, ahead]
  rfl

end ParseState

/-- The tokens before the condition, the latest one first. -/
def headTokens : List Token :=
  [⟨.symbol .colon, 18, [':']⟩, ⟨.keyword .kwCondition, 9, "condition".toList⟩,
    ⟨.symbol .lbrace, 7, ['{']⟩, ⟨.ident, 5, ['a']⟩, ⟨.keyword .kwRule, 0, "rule".toList⟩]

/-- The rule as far as it is known before its condition. -/
def headRule : Rule where
  isPrivate := false
  isGlobal := false
  ident := ⟨"a", ⟨5, 6⟩⟩
  tags := []
  metas := []
  patterns := []
  condition := none
  sections := []
  lbrace := some ⟨7, 8⟩
  rbrace := none
  span := ⟨5, 6⟩

/-- The text behind the brace of the rule. -/
def sectionText (condition : List Char) : List Char :=
  ' ' :: ("condition".toList ++ ([':'] ++ (' ' :: (condition ++ " \x7d".toList))))

/-- Where the condition starts. -/
def ParseState.atCondition (condition : List Char) : ParseState :=
  behind headTokens ⟨.normal, 19, ' ' :: (condition ++ " \x7d".toList)⟩

/-- A rule with a section for its condition. -/
structure Rule.Settled (e : Expr) (r : Rule) : Prop where
  condition : r.condition = some e
  headed : r.sections.any (·.kind == .condition) = true

namespace Parser

section Head

variable (rest : List Char)

theorem head_rule : (Cursor.start ("rule".toList ++ (' ' :: rest))).nextSolid? =
    some (⟨.keyword .kwRule, 0, "rule".toList⟩, ⟨.normal, 4, ' ' :: rest⟩) :=
  Cursor.nextSolid?_read (' ' :: rest) (List.cons_ne_nil _ _) rfl (by decide) 0

theorem head_name : (⟨.normal, 4, ' ' :: (['a'] ++ (' ' :: rest))⟩ : Cursor).nextSolid? =
    some (⟨.ident, 5, ['a']⟩, ⟨.normal, 6, ' ' :: rest⟩) :=
  Cursor.nextSolid?_behindBlank (' ' :: rest) (List.cons_ne_nil _ _) rfl (by decide) 4

theorem head_lbrace : (⟨.normal, 6, ' ' :: (['{'] ++ rest)⟩ : Cursor).nextSolid? =
    some (⟨.symbol .lbrace, 7, ['{']⟩, ⟨.normal, 8, rest⟩) :=
  Cursor.nextSolid?_behindBlank rest (List.cons_ne_nil _ _) rfl (by decide) 6

theorem head_keyword :
    (⟨.normal, 8, ' ' :: ("condition".toList ++ ([':'] ++ rest))⟩ : Cursor).nextSolid? =
    some (⟨.keyword .kwCondition, 9, "condition".toList⟩, ⟨.normal, 18, [':'] ++ rest⟩) :=
  Cursor.nextSolid?_behindBlank ([':'] ++ rest) (List.cons_ne_nil _ _) rfl (by decide) 8

theorem head_colon : (⟨.normal, 18, [':'] ++ (' ' :: rest)⟩ : Cursor).nextSolid? =
    some (⟨.symbol .colon, 18, [':']⟩, ⟨.normal, 19, ' ' :: rest⟩) :=
  Cursor.nextSolid?_read (' ' :: rest) (List.cons_ne_nil _ _) rfl (by decide) 18

end Head

open ParseState (behind behind_next? behind_kindAhead? behind_advanced)

theorem atCondition_quiet (condition : List Char) :
    (ParseState.atCondition condition).QuietAt
      ⟨.normal, 19, ' ' :: (condition ++ " \x7d".toList)⟩ := ⟨rfl, rfl, rfl⟩

/-- The parse of the text comes to its condition. -/
theorem atCondition_tracked (condition : List Char) :
    (ParseState.atCondition condition).Tracked (oneRule condition) := by
  have step : ∀ {text : List Char} {read : List Token} {c after : Cursor} {t : Token},
      (behind read c).Tracked text →
      c.nextSolid? = some (t, after) → (behind (t :: read) after).Tracked text :=
        fun tracked next =>
    behind_advanced next ▸ tracked.advanced fun braced => by cases braced
  have start : (behind [] (.start (oneRule condition))).Tracked (oneRule condition) := .initial _
  exact step (step (step (step (step start (head_rule _)) (head_name _)) (head_lbrace _))
    (head_keyword _)) (head_colon _)

theorem headTokens_normal : SurelyNormal headTokens := ⟨nofun, .inl (by decide)⟩

/-- A whole expression starts at the first level. -/
theorem run_expression (s : ParseState) : expression.run s =
    let r := (orExpr (nested 127)).run { s with depth := 1 }
    (r.1, { r.2 with depth := r.2.depth - 1 }) := by
  have room : ¬ maxNesting ≤ 0 := by decide
  rw [expression, run_bind, run_setDepth]
  show (nested (127 + 1) .expression).run { s with depth := 0 } = _
  rw [nested, run_bind, run_getDepth, run_ite]
  dsimp only
  rw [if_neg room]
  rfl

/-- The state in which the parse of a condition starts. -/
theorem run_condition (condition : List Char) :
      ∃ s : ParseState, expression.run (.atCondition condition) =
      (((orExpr (nested 127)).run s).1,
        { ((orExpr (nested 127)).run s).2 with depth := ((orExpr (nested 127)).run s).2.depth - 1 })
        ∧
    s.QuietAt ⟨.normal, 19, ' ' :: (condition ++ " \x7d".toList)⟩ ∧ s.Tracked (oneRule condition) ∧
      SurelyNormal s.read ∧ s.depth = 1 :=
  ⟨_, run_expression _, (atCondition_quiet condition).withDepth 1,
    (atCondition_tracked condition).withDepth 1, headTokens_normal, rfl⟩

/-- A name and a brace with no tags between them. -/
theorem run_ruleHead_bare {read : List Token} {c d e : Cursor} {name brace : Token}
    (flags : RuleFlags)
    (named : c.nextSolid? = some (name, d)) (word : name.kind = .ident)
    (braced : d.nextSolid? = some (brace, e))
    (opens : brace.kind = .symbol .lbrace) : (ruleHead flags).run (behind read c) =
      ({ isPrivate := flags.isPrivate, isGlobal := flags.isGlobal, ident := identOf name
         tags := [], metas := [], patterns := [], condition := none, sections := []
         lbrace := some brace.span, rbrace := none, span := name.span },
        behind (brace :: name :: read) e) := by
  have naming : ruleName.run (behind read c) = (identOf name, behind (name :: read) d) := by
    rw [ruleName, run_bind, run_eat, if_pos (word ▸ behind_kindAhead? named), behind_next? named,
      behind_advanced named]
    rfl
  have ahead : (behind (name :: read) d).kindAhead? = some (.symbol .lbrace) :=
    opens ▸ behind_kindAhead? braced
  have tagless : tags.run (behind (name :: read) d) = ([], behind (name :: read) d) := by
    rw [tags, run_bind, run_eat, ahead]
    rfl
  rw [ruleHead, run_bind, naming, run_bind, tagless, run_bind, run_expect ahead,
    behind_next? braced, behind_advanced braced]
  rfl

/-- Behind the keyword of the rule. -/
theorem run_ruleHead_head (rest : List Char) : (ruleHead ⟨false, false⟩).run
    (behind [⟨.keyword .kwRule, 0, "rule".toList⟩]
      ⟨.normal, 4, ' ' :: (['a'] ++ (' ' :: (['{'] ++ rest)))⟩) =
      (headRule, behind (headTokens.drop 2) ⟨.normal, 8, rest⟩) :=
  run_ruleHead_bare ⟨false, false⟩ (head_name (['{'] ++ rest)) rfl (head_lbrace rest) rfl

/-- The condition is parsed, and then the section ends. -/
theorem run_bodyStep_head (condition : List Char) :
    (bodyStep headRule).run (behind (headTokens.drop 2) ⟨.normal, 8, sectionText condition⟩) =
      let parsed := expression.run (.atCondition condition)
      let ended := sectionEnd.run parsed.2
      (.yield { headRule with
          condition := some parsed.1
          sections := [⟨.condition, ⟨9, 19⟩, ⟨9, ended.1⟩⟩] },
        ended.2) := by
  have keyword : (⟨.normal, 8, sectionText condition⟩ : Cursor).nextSolid? =
      some (⟨.keyword .kwCondition, 9, "condition".toList⟩,
      ⟨.normal, 18, [':'] ++ (' ' :: (condition ++ " \x7d".toList))⟩) :=
        head_keyword (' ' :: (condition ++ " \x7d".toList))
  have colon := head_colon (condition ++ " \x7d".toList)
  have start : (sectionHead .condition false ⟨.keyword .kwCondition, 9, "condition".toList⟩).run
      (behind (⟨.keyword .kwCondition, 9, "condition".toList⟩ :: headTokens.drop 2)
        ⟨.normal, 18, [':'] ++ (' ' :: (condition ++ " \x7d".toList))⟩) =
        (⟨9, 19⟩, .atCondition condition) := by
    rw [sectionHead, if_neg Bool.false_ne_true, run_bind, run_expect (behind_kindAhead? colon),
      behind_advanced colon]
    rfl
  have section_run : (ruleSection .condition headRule).run (behind (headTokens.drop 2)
      ⟨.normal, 8, sectionText condition⟩) =
      let parsed := expression.run (.atCondition condition)
      let ended := sectionEnd.run parsed.2
      ({ headRule with
          condition := some parsed.1
          sections := [⟨.condition, ⟨9, 19⟩, ⟨9, ended.1⟩⟩] },
        ended.2) := by
    rw [ruleSection, run_bind, run_advance, behind_next? keyword, behind_advanced keyword]
    dsimp only
    have first : headRule.sections.any (·.kind == .condition) = false := rfl
    rw [first, run_bind, start]
    rfl
  have calm : ∀ read c, ({ behind read c with panicking := false } : ParseState) = behind read c :=
    fun _ _ => rfl
  rw [bodyStep, run_bind, run_peek, behind_next? keyword]
  dsimp only
  rw [if_neg (by decide)]
  dsimp only [sectionKindOf?]
  rw [run_bind, run_setPanicking, calm, run_bind, section_run]
  rfl

variable {e : Expr} {r : Rule}

/-- Only the first section for a condition counts. -/
theorem ruleSection_settled (kind : SectionKind) (h : r.Settled e) :
    (ruleSection kind r).Gives (·.Settled e) := by
  have content : ∀ duplicate, (kind = .condition → duplicate = true) →
      (sectionContent kind duplicate r).Gives (·.Settled e) := by
    intro duplicate second
    cases kind with
    | metas => exact .bind fun _ => .pure ⟨h.condition, h.headed⟩
    | strings => exact .bind fun _ => .pure ⟨h.condition, h.headed⟩
    | condition =>
      rw [second rfl]
      exact .bind fun _ => .pure h
  refine .bind fun o => ?_
  cases o with
  | none => exact .pure h
  | some keyword =>
    refine .bind fun _ => (content _ fun same => same ▸ h.headed).after fun q settled =>
      .bind fun _ => .pure ?_
    exact ⟨settled.condition, by rw [List.any_append, settled.headed, Bool.true_or]⟩

theorem bodyStep_settled (r : Rule) (h : r.Settled e) : (bodyStep r).Gives (·.value.Settled e) := by
  refine .bind fun o => ?_
  cases o with
  | none => exact .bind fun _ => .pure h
  | some t =>
    dsimp only
    split
    · exact .bind fun _ => .pure ⟨h.condition, h.headed⟩
    split
    · exact .bind fun _ => (ruleSection_settled _ h).after fun _ settled => .pure settled
    · refine .bind fun item => ?_
      split
      · exact .bind fun _ => .pure h
      · exact .bind fun _ => .bind fun _ => .pure h

/-- Behind its body a rule with a condition is as it is. -/
theorem run_ruleAfterKeyword {start : Nat} {flags : RuleFlags} {s t u : ParseState} {b : Rule}
    (head : (ruleHead flags).run s = (r, t))
    (body : (iterate bodyStep r).run t = (b, u)) (settled : b.Settled e) :
    ∃ q : Rule, q.Settled e ∧ (ruleAfterKeyword start flags).run s = (q, u) := by
  have looked : (ruleStop b).run u = (((ruleStop b).run u).1, u) := by
    unfold ruleStop
    cases b.rbrace <;> rfl
  refine ⟨{ b with span := ⟨start, ((ruleStop b).run u).1⟩ },
    ⟨settled.condition, settled.headed⟩, ?_⟩
  rw [ruleAfterKeyword, run_bind, head, run_bind, body, run_bind, looked]
  dsimp only
  rw [settled.headed]
  rfl

/-- The rule and the state behind the section of its condition. -/
def conditionRule (condition : List Char) : Rule × ParseState :=
  let parsed := expression.run (.atCondition condition)
  let ended := sectionEnd.run parsed.2
  ({ headRule with condition := some parsed.1, sections := [⟨.condition, ⟨9, 19⟩, ⟨9, ended.1⟩⟩] },
    ended.2)

/-- The first item of the text is the rule with its condition. -/
theorem run_oneRule (condition : List Char) :
    ∃ r : Rule, r.Settled (expression.run (.atCondition condition)).1 ∧
    (iterate itemStep ⟨[], [], []⟩).run (initial (oneRule condition)) =
      (iterate itemStep ⟨[], [], [r]⟩).run
        ((iterate bodyStep (conditionRule condition).1).run (conditionRule condition).2).2 := by
  have first := head_rule (['a'] ++ (' ' :: (['{'] ++ sectionText condition)))
  have head := run_ruleHead_head (sectionText condition)
  have settled : (conditionRule condition).1.Settled (expression.run (.atCondition condition)).1 :=
    ⟨rfl, rfl⟩
  have body := run_iterate_yield bodyStep_progress (run_bodyStep_head condition)
  have kept := Gives.iterate bodyStep_settled settled (conditionRule condition).2
  obtain ⟨r, settled', run⟩ := @run_ruleAfterKeyword _ _ 0 _ _ _ _ _ head body kept
  refine ⟨r, settled', ?_⟩
  have start : initial (oneRule condition) = behind [] (.start
      ("rule".toList ++ (' ' :: (['a'] ++ (' ' :: (['{'] ++ sectionText condition)))))) := rfl
  rw [start]
  generalize ' ' :: (['a'] ++ (' ' :: (['{'] ++ sectionText condition))) = rest at first run
  have advanced : ({ behind [] (.start ("rule".toList ++ rest)) with panicking := false } :
    ParseState).advanced .normal =
    behind [⟨.keyword .kwRule, 0, "rule".toList⟩] ⟨.normal, 4, rest⟩ := behind_advanced first
  refine run_iterate_yield itemStep_progress ?_
  rw [itemStep_rule (behind_next? first) rfl, advanced]
  dsimp only
  rw [run]
  rfl

/-- A text says what is read at its top level. -/
theorem parse_items (text : List Char) :
    (parse text).rules = ((iterate itemStep ⟨[], [], []⟩).run (initial text)).1.rules ∧
    (parse text).errors = ((iterate itemStep ⟨[], [], []⟩).run (initial text)).2.errors :=
  ⟨rfl, rfl⟩

/-- The brace behind the condition. -/
theorem nextSolid?_lastBrace (n : Nat) : (⟨.normal, n, " \x7d".toList⟩ : Cursor).nextSolid? =
    some (⟨.symbol .rbrace, n + 1, ['}']⟩, ⟨.normal, n + 2, []⟩) :=
  @Cursor.nextSolid?_behindBlank ['}'] _ [] (List.cons_ne_nil _ _) rfl (by decide) n

/-- What the text meant, of what its condition meant: nothing but the brace is behind it. -/
theorem parse_oneRule {condition : List Char} {e : Expr} {u : ParseState} {n : Nat}
    (run : expression.run (.atCondition condition) = (e, u))
    (last : u.QuietAt ⟨.normal, n, " \x7d".toList⟩) :
    (parse (oneRule condition)).errors = [] ∧ (parse (oneRule condition)).rules.map (·.condition) =
      [some e] := by
  obtain ⟨r, settled, items⟩ := run_oneRule condition
  rw [run] at settled
  have closed := last.advanced (nextSolid?_lastBrace n)
  have next : u.next? = some ⟨.symbol .rbrace, n + 1, ['}']⟩ := by
    rw [ParseState.next?, last.ahead, nextSolid?_lastBrace]
    rfl
  have ahead : u.kindAhead? = some (.symbol .rbrace) := ParseState.kindAhead?_of_next next
  have ended : sectionEnd.run u = (n + 1, u) := by
    rw [sectionEnd, run_bind, run_atSyncPoint, run_bind, Lockstep.run_atFalseTopLevelModifier,
      Lockstep.falseModifier, ahead]
    dsimp only
    rw [if_neg (by simp [isSyncKind]), run_bind, run_peek, next]
    rfl
  have body : (iterate bodyStep (conditionRule condition).1).run (conditionRule condition).2 =
      ({ (conditionRule condition).1 with rbrace := some ⟨n + 1, n + 2⟩ }, u.advanced .normal) := by
    have behind : (conditionRule condition).2 = u := by
      rw [conditionRule, run]
      exact congrArg Prod.snd ended
    rw [behind]
    refine run_iterate_done ?_
    rw [bodyStep, run_bind, run_peek, next]
    dsimp only
    rw [if_pos rfl, run_bind, run_advance]
    rfl
  rw [body] at items
  have done : (itemStep ⟨[], [], [r]⟩).run (u.advanced .normal) =
      (.done ⟨[], [], [r]⟩, u.advanced .normal) := by
    have none : (u.advanced .normal).kindAhead? = none := by
      rw [ParseState.kindAhead?, ParseState.next?, closed.ahead]
      rfl
    rw [itemStep, run_bind, run_peekKind, none]
    rfl
  rw [run_iterate_done done] at items
  obtain ⟨rules, errors⟩ := parse_items (oneRule condition)
  rw [rules, errors, items]
  exact ⟨closed.quiet, congrArg (fun c => [c]) settled.condition⟩

/-- And what the condition meant, of what the text meant. -/
theorem oneRule_parsed {condition : List Char} {e : Expr}
    (clean : (parse (oneRule condition)).errors = [])
    (meant : (parse (oneRule condition)).rules.map (·.condition) = [some e]) :
    ∃ u, expression.run (.atCondition condition) = (e, u) ∧ u.errors = [] := by
  obtain ⟨r, settled, items⟩ := run_oneRule condition
  have later : ((expression.run (.atCondition condition)).2).Before
      ((iterate itemStep ⟨[], [], []⟩).run (initial (oneRule condition))).2 := by
    rw [items]
    exact ((sectionEnd.forward _).trans ((iterate bodyStep _).forward _)).trans
      ((iterate itemStep _).forward _)
  have rules := iterate_append ⟨[], [], [r]⟩ ⟨[], [], []⟩
    ((iterate bodyStep (conditionRule condition).1).run (conditionRule condition).2).2
  have items := items.trans rules
  generalize (iterate itemStep ⟨[], [], []⟩).run ((iterate bodyStep (conditionRule condition).1).run
    (conditionRule condition).2).2 = rest at items
  obtain ⟨said, errors⟩ := parse_items (oneRule condition)
  rw [errors] at clean
  rw [said, items] at meant
  refine ⟨_, Prod.ext ?_ rfl, later.no_errors clean⟩
  have first : r.condition = some e := (List.cons.inj meant).1
  exact Option.some.inj (settled.condition.symm.trans first)

end Parser

end RuleDesk
