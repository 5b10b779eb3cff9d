import RuleDesk.Proofs.Parsing.Levels

namespace RuleDesk

/-! ## Operands in parentheses

A group is an operand of its own. Where no operator and no link follows it, all the
levels of the grammar hand it on as it is, and where the same operator joins it to
more operands, they become one node. -/

/-- The first operand, or one node for all of them. -/
def Expr.joined (op : BinaryOp) (first : Expr) : List Expr → Expr
  | [] => first
  | second :: rest =>
    .binary op (first :: second :: rest)
      ((second :: rest).foldl (fun span e => span.through e.span) first.span)

def Expr.IsGroup (e : Expr) : Prop := ∃ inner span, e = .group inner span

theorem Expr.append?_joined (op : BinaryOp) (first second : Expr) (rest : List Expr) (e : Expr) :
    (joined op first (second :: rest)).append? op e =
      some (joined op first (second :: rest ++ [e])) := by
  simp [joined, append?, List.foldl_append]

namespace Parser

/-- The kind of the next token is one of these. -/
def StopsAt (kinds : List Kind) (s : ParseState) : Prop := ∃ k ∈ kinds, s.kindAhead? = some k

/-- What is parsed around an operand that starts with a parenthesis: a group comes
out of it only as the operand itself, and as such it does where the operand stops. -/
structure Around (kinds : List Kind) (outer operand : Parser Expr) : Prop where
  unwrap : ∀ s, s.kindAhead? = some (.symbol .lparen) → (outer.run s).1.IsGroup →
      outer.run s = operand.run s
  wrap : ∀ s, s.kindAhead? = some (.symbol .lparen) → StopsAt kinds (operand.run s).2 →
      outer.run s = operand.run s

namespace Around

variable {kinds : List Kind} {p q r : Parser Expr}

/-- It is enough to know some of the kinds at which the operand stops. -/
theorem fewer {others : List Kind} (h : Around kinds p q) (among : others ⊆ kinds) :
    Around others p q where
  unwrap := h.unwrap
  wrap s paren stops :=
    have ⟨k, member, ahead⟩ := stops
    h.wrap s paren ⟨k, among member, ahead⟩

theorem trans (h : Around kinds p q) (h' : Around kinds q r) : Around kinds p r where
  unwrap s paren group := by
    have same := h.unwrap s paren group
    exact same.trans (h'.unwrap s paren (same ▸ group))
  wrap s paren stops := by
    have same := h'.wrap s paren stops
    exact (h.wrap s paren (same ▸ stops)).trans same

end Around

section Chain

variable {kinds : List Kind} {operator : Parser (Option BinaryOp)} {operand : Parser Expr}

/-- A chain is no group once it has an operator. -/
theorem chainStep_ungrouped (c : Expr × Bool) (chained : c.2 = true ∧ ¬ c.1.IsGroup) :
    (chainStep operator operand c).Gives fun r => r.value.2 = true ∧ ¬ r.value.1.IsGroup := by
  obtain ⟨lhs, _⟩ := c
  obtain ⟨rfl, ungrouped⟩ := chained
  refine .bind fun o => ?_
  cases o with
  | none => exact .pure ⟨rfl, ungrouped⟩
  | some op =>
    refine .bind fun _ => .bind fun rhs => ?_
    simp only [if_true]
    cases longer : lhs.append? op rhs with
    | some e =>
      refine .pure ⟨rfl, ?_⟩
      rintro ⟨inner, span, rfl⟩
      unfold Expr.append? at longer
      split at longer
      · split at longer <;> cases longer
      · cases longer
    | none =>
      refine .bind fun _ => ?_
      split
      · refine tooDeep_gives.after fun e error => .pure ⟨rfl, ?_⟩
        obtain ⟨span, rfl⟩ := error
        exact nofun
      · exact .bind fun _ => .bind fun _ => .pure ⟨rfl, nofun⟩

theorem chainFrom_stops {lhs : Expr} {s : ParseState} (looks : Peeks operator)
    (none : (operator.run s).1 = none) :
    (chainFrom lhs operator operand).run s = (lhs, s) := by
  have step : (chainStep operator operand (lhs, false)).run s = (.done (lhs, false), s) := by
    rw [chainStep, run_bind, none, (looks s).1]
    rfl
  rw [chainFrom, run_bind, run_iterate_done step]
  rfl

theorem chainFrom_group {lhs : Expr} {s : ParseState} (looks : Peeks operator)
    (group : ((chainFrom lhs operator operand).run s).1.IsGroup) :
    (chainFrom lhs operator operand).run s = (lhs, s) := by
  cases found : (operator.run s).1 with
  | none => exact chainFrom_stops looks found
  | some op =>
    have step : (chainStep operator operand (lhs, false)).run s =
        (.yield (.pair op lhs ((operand.run (s.advanced .normal)).1), true),
          (operand.run (s.advanced .normal)).2) := by
      rw [chainStep, run_bind, found, (looks s).1]
      simp
    have chained : (iterate (chainStep operator operand)
      (.pair op lhs (operand.run (s.advanced .normal)).1, true)).Gives
      fun c => c.2 = true ∧ ¬ c.1.IsGroup := .iterate chainStep_ungrouped ⟨rfl, nofun⟩
    have last := chained (operand.run (s.advanced .normal)).2
    rw [← run_iterate_yield (chainStep_progress looks operand) step] at last
    exact (last.2 group).elim

theorem chain_around (looks : Peeks operator)
    (silent : ∀ s, StopsAt kinds s → (operator.run s).1 = none) :
    Around kinds (chain operator operand) operand where
  unwrap _ _ group := chainFrom_group looks group
  wrap _ _ stops := chainFrom_stops looks (silent _ stops)

theorem tableChain_around {table : Kind → Option BinaryOp} (silent : ∀ k ∈ kinds, table k = none) :
    Around kinds (chain (operatorOf table) operand) operand := by
  refine chain_around (operatorOf_peeks table) fun s stops => ?_
  obtain ⟨k, member, ahead⟩ := stops
  show s.kindAhead?.bind table = none
  rw [ahead]
  exact silent k member

/-! ### Chains of one operator -/

/-- Operands behind operators of one kind. -/
inductive MoreOperands (operand : Parser Expr) (k : Kind) :
    ParseState → List Expr → ParseState → Prop
  | nothing (s : ParseState) : MoreOperands operand k s [] s
  | more {s t u : ParseState} {e : Expr} {es : List Expr} (ahead : s.kindAhead? = some k)
      (run : operand.run (s.advanced .normal) = (e, t))
      (later : MoreOperands operand k t es u) : MoreOperands operand k s (e :: es) u

variable {table : Kind → Option BinaryOp} {op : BinaryOp} {k : Kind}

theorem iterate_more (is_op : table k = some op) {s t : ParseState} {es : List Expr}
    (h : MoreOperands operand k s es t) (first : Expr) (before : List Expr) :
    (iterate (chainStep (operatorOf table) operand) (first.joined op before, !before.isEmpty)).run
      s =
      (iterate (chainStep (operatorOf table) operand)
        (first.joined op (before ++ es), !(before ++ es).isEmpty)).run t := by
  induction h generalizing before with
  | nothing => rw [List.append_nil]
  | @more s t u e es ahead run _ ih =>
    have step : (chainStep (operatorOf table) operand (first.joined op before, !before.isEmpty)).run
        s = (.yield (first.joined op (before ++ [e]), !(before ++ [e]).isEmpty), t) := by
      have found : (operatorOf table).run s = (some op, s) := by
        show (s.kindAhead?.bind table, s) = _
        rw [ahead, Option.bind_some, is_op]
      rw [chainStep, run_bind, found]
      dsimp only
      rw [run_bind, run_advance, run_bind, run]
      cases before with
      | nil => rfl
      | cons second rest =>
        dsimp only
        rw [List.isEmpty_cons, Bool.not_false, if_pos rfl, Expr.append?_joined]
        rfl
    rw [run_iterate_yield (chainStep_progress (operatorOf_peeks table) operand) step, ih,
      List.append_assoc]
    rfl

/-- Operands that one operator joins become one node, however many they are: the
levels that are left do not matter. -/
theorem chain_more (is_op : table k = some op) {s t u : ParseState} {first : Expr}
    {rest : List Expr}
    (run : operand.run s = (first, t)) (more : MoreOperands operand k t rest u)
    (last : u.kindAhead?.bind table = none) :
    (chain (operatorOf table) operand).run s = (first.joined op rest, u) := by
  have all := iterate_more is_op more first []
  have done : (chainStep (operatorOf table) operand (first.joined op rest, !rest.isEmpty)).run u =
      (.done (first.joined op rest, !rest.isEmpty), u) := by
    have none : (operatorOf table).run u = (none, u) := congrArg (·, u) last
    rw [chainStep, run_bind, none]
    rfl
  rw [List.nil_append, run_iterate_done done] at all
  have start : (iterate (chainStep (operatorOf table) operand) (first, false)).run t = _ := all
  rw [chain, run_bind, run, chainFrom, run_bind, start]
  rfl

end Chain

/-! ### The levels around an operand -/

section Layer

variable {kinds : List Kind} {sub : Level → Parser Expr}

theorem prefixed_around {table : Kind → Option UnaryOp} (none : table (.symbol .lparen) = none)
    (level : Level) (bare : Parser Expr) :
    Around kinds (prefixed sub table level bare) bare := by
  have same : ∀ s : ParseState, s.kindAhead? = some (.symbol .lparen) →
      (prefixed sub table level bare).run s = bare.run s := by
    intro s paren
    obtain ⟨t, next, kind⟩ := ParseState.kindAhead?_eq_some paren
    rw [prefixed, run_bind, run_peek, next]
    dsimp only
    rw [kind, none]
  exact ⟨fun s paren _ => same s paren, fun s paren _ => same s paren⟩

theorem applyLink_ungrouped {e : Expr} (link : Link) {s : ParseState}
    (found : Lockstep.linkOf s = some link) (n : Nat) :
    ¬ ((applyLink sub e link).run { s with depth := n }).1.IsGroup := by
  rcases Lockstep.linkOf_eq_some found with ⟨rfl, ahead, beyond⟩ | ⟨rfl, _⟩ | ⟨rfl, _⟩
  · have beyond : ({ s with depth := n } : ParseState).kindBeyond? = some .ident := beyond
    rw [← ParseState.advanced_kindAhead?] at beyond
    obtain ⟨t, next, _⟩ := ParseState.kindAhead?_eq_some beyond
    rw [applyLink, run_bind, run_advance, run_bind, run_advance, next]
    exact nofun
  · exact nofun
  · exact nofun

/-- No link makes a group, so only what has no link behind it may be one. -/
theorem linkStep_ungrouped (depth : Nat) {e : Expr} {s : ParseState}
    (plain : Lockstep.linkOf s = none → ¬ e.IsGroup) :
    ¬ ((linkStep sub depth e).run s).1.value.IsGroup := by
  rw [linkStep, run_bind, Lockstep.run_linkAhead]
  cases found : Lockstep.linkOf s with
  | none => exact plain found
  | some link =>
    dsimp only
    rw [run_bind, run_getDepth, run_ite]
    split
    · obtain ⟨span, error⟩ := tooDeep_gives { s with depth := depth }
      show ¬ (tooDeep.run { s with depth := depth }).1.IsGroup
      rw [error]
      exact nofun
    · exact applyLink_ungrouped link found _

theorem links_ungrouped (depth : Nat) {e : Expr} {s : ParseState}
    (plain : Lockstep.linkOf s = none → ¬ e.IsGroup) :
    ¬ ((iterate (linkStep sub depth) e).run s).1.IsGroup := by
  have progress := linkStep_progress sub depth
  have first : ¬ ((linkStep sub depth e).run s).1.value.IsGroup := linkStep_ungrouped depth plain
  cases step : (linkStep sub depth e).run s with
  | mk r t =>
    rw [step] at first
    cases r with
    | done b =>
      rw [run_iterate_done step]
      exact first
    | yield b =>
      rw [run_iterate_yield progress step]
      have longer : (iterate (linkStep sub depth) b).Gives fun e => ¬ e.IsGroup :=
        .iterate (fun _ ungrouped _ => linkStep_ungrouped depth fun _ => ungrouped) first
      exact longer t

/-- An operand without links. -/
theorem postfixExpr_bare {s : ParseState} (bare : Lockstep.linkOf ((primary sub).run s).2 = none) :
    (postfixExpr sub).run s = (primary sub).run s := by
  have step : (linkStep sub ((primary sub).run s).2.depth ((primary sub).run s).1).run
      ((primary sub).run s).2 = (.done ((primary sub).run s).1, ((primary sub).run s).2) := by
    rw [linkStep, run_bind, Lockstep.run_linkAhead, bare]
    rfl
  rw [postfixExpr, run_bind, run_bind, run_getDepth, run_bind, run_iterate_done step]
  rfl

theorem postfixExpr_around
    (silent : ∀ k ∈ kinds, k ∉ [.symbol .dot, .symbol .lbracket, .symbol .lparen]) :
    Around kinds (postfixExpr sub) (primary sub) where
  unwrap s _ group := by
    by_cases bare : Lockstep.linkOf ((primary sub).run s).2 = none
    · exact postfixExpr_bare bare
    · have result : ((postfixExpr sub).run s).1 =
          ((iterate (linkStep sub ((primary sub).run s).2.depth) ((primary sub).run s).1).run
            ((primary sub).run s).2).1 := rfl
      rw [result] at group
      exact (links_ungrouped _ (fun none => (bare none).elim) group).elim
  wrap s _ stops := by
    refine postfixExpr_bare ?_
    generalize ((primary sub).run s).2 = t at stops
    obtain ⟨k, member, ahead⟩ := stops
    cases found : Lockstep.linkOf t with
    | none => rfl
    | some link =>
      refine (silent k member ?_).elim
      rcases Lockstep.linkOf_eq_some found with ⟨_, link, _⟩ | ⟨_, link⟩ | ⟨_, link⟩
      all_goals
        rw [Option.some.inj (ahead.symm.trans link)]
        simp only [List.mem_cons, true_or, or_true]

theorem ofExpr_ungrouped (q : Quantifier Expr) : (ofExpr sub q).Gives fun e => ¬ e.IsGroup :=
  .bind fun _ => .bind fun _ => .bind fun _ => .bind fun _ => .pure nofun

/-- Kinds of tokens behind which a condition goes on with `and` or `or`, or ends. -/
def conditionStops : List Kind := [.keyword .kwOr, .keyword .kwAnd, .symbol .rbrace]

theorem run_comparisonExpr (s : ParseState) : (comparisonExpr sub).run s =
    let lhs := ((bitOrExpr sub).run s).1
    let t := ((bitOrExpr sub).run s).2
    if t.kindAhead? == some (.keyword .kwOf) then (ofExpr sub (.count lhs)).run t
    else if percentOf t then (ofExpr sub (.percentage lhs)).run (t.advanced .normal)
    else (chainFrom lhs (operatorOf comparisonOperator) (bitOrExpr sub)).run t := by
  rw [comparisonExpr, run_bind, run_bind, run_atKind, run_ite, run_bind, run_atPercentOf, run_ite,
    run_bind, run_advance]

theorem comparisonExpr_around : Around conditionStops (comparisonExpr sub) (bitOrExpr sub) where
  unwrap s _ group := by
    rw [run_comparisonExpr] at group ⊢
    dsimp only at group ⊢
    split at group
    · exact (ofExpr_ungrouped _ _ group).elim
    split at group
    · exact (ofExpr_ungrouped _ _ group).elim
    · rw [if_neg ‹_›, if_neg ‹_›]
      exact chainFrom_group (operatorOf_peeks _) group
  wrap s _ stops := by
    have quiet : ∀ k ∈ conditionStops, k ≠ .keyword .kwOf ∧ k ≠ .symbol .percent ∧
        comparisonOperator k = none := by decide
    obtain ⟨k, member, ahead⟩ := stops
    obtain ⟨no_of, no_percent, no_operator⟩ := quiet k member
    rw [run_comparisonExpr]
    dsimp only
    rw [percentOf, ahead, if_neg (by simp [no_of]), if_neg (by simp [no_percent])]
    refine chainFrom_stops (operatorOf_peeks _) ?_
    show ((bitOrExpr sub).run s).2.kindAhead?.bind comparisonOperator = none
    rw [ahead]
    exact no_operator

/-- A group is an operand of `and` and of `or`. -/
theorem negationExpr_around : Around conditionStops (negationExpr sub) (primary sub) := by
  have sign : Around conditionStops (signExpr sub) (primary sub) :=
    (prefixed_around rfl _ _).trans (postfixExpr_around (by decide))
  have product : Around conditionStops (productExpr sub) (primary sub) := by
    refine .trans (chain_around productOperatorAhead_peeks fun s stops => ?_) sign
    have quiet : ∀ k ∈ conditionStops, productOperator k = none := by decide
    obtain ⟨k, member, ahead⟩ := stops
    rw [run_productOperatorAhead, productAhead]
    split
    · rfl
    · rw [ahead, Option.bind_some, quiet k member]
  have sum : Around conditionStops (sumExpr sub) (primary sub) :=
    .trans (tableChain_around (by decide)) product
  have shift : Around conditionStops (shiftExpr sub) (primary sub) :=
    .trans (tableChain_around (by decide)) sum
  have bitAnd : Around conditionStops (bitAndExpr sub) (primary sub) :=
    .trans (tableChain_around (by decide)) shift
  have bitXor : Around conditionStops (bitXorExpr sub) (primary sub) :=
    .trans (tableChain_around (by decide)) bitAnd
  have bitOr : Around conditionStops (bitOrExpr sub) (primary sub) :=
    .trans (tableChain_around (by decide)) bitXor
  exact (prefixed_around rfl _ _).trans (comparisonExpr_around.trans bitOr)

end Layer

end Parser

end RuleDesk
