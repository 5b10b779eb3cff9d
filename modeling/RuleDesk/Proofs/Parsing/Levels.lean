import RuleDesk.Proofs.Parsing.Conditions
import RuleDesk.Proofs.Parsing.Spending

namespace RuleDesk

/-! ## Levels that are not given back

Where a chain of operators of one precedence goes on with another operator, it
spends a level, and the parse goes on behind the chain without this level. All other
levels are given back. So what is left spent behind an expression without such
chains is nothing. -/

/-- Neither broken nor a chain that changed its operator. -/
def Expr.Steady : Expr → Prop
  | error _ => False
  | binary op (first :: _) _ => ¬ EndsChain op first
  | _ => True

/-- Levels that an expression leaves spent only if it is not steady. -/
def Kept (k : Nat) (e : Expr) : Prop := e.Everywhere Expr.Steady → k = 0

theorem Expr.not_steady_error (span : Span) : ¬ (error span).Everywhere Steady :=
  fun steady => steady.inv.1

theorem Shared.kept {k : Nat} {es : List Expr} (h : Shared (Enclosed Kept) k es)
    (steady : ∀ e ∈ es, e.Everywhere Expr.Steady) :
    k = 0 := by
  induction h with
  | nil => rfl
  | @cons k m e es first _ ih =>
    obtain ⟨here, others⟩ := List.forall_mem_cons.mp steady
    have none : k = 0 := by
      rcases first with kept | ⟨inner, span, rfl, kept⟩
      · exact kept here
      · exact kept (here.inv.2 inner (List.mem_singleton_self inner))
    rw [none, ih others]

namespace Parser

theorem tooDeep_gives : tooDeep.Gives fun e => ∃ span, e = .error span :=
  .bind fun _ => .bind fun _ => .bind fun _ => .bind fun _ => .bind fun _ => .pure ⟨_, rfl⟩

section Layer

variable {low : Nat} {sub : Level → Parser Expr} (inner : ∀ level, Spends low (sub level) Kept)

omit inner in
/-- A link is put around what was there before. -/
theorem applyLink_around (e : Expr) (link : Link) :
    (applyLink sub e link).Gives fun e' => e' = e ∨ e ∈ e'.parts := by
  cases link with
  | field =>
    refine .bind fun _ => .bind fun o => ?_
    cases o with
    | none => exact .pure (.inl rfl)
    | some t => exact .pure (.inr (List.mem_singleton_self e))
  | lookup =>
    exact .bind fun _ => .bind fun _ => .bind fun _ => .bind fun _ =>
      .pure (.inr (List.mem_cons_self ..))
  | call =>
    exact .bind fun _ => .bind fun _ => .bind fun _ => .bind fun _ =>
      .pure (.inr (List.mem_cons_self ..))

omit inner in
theorem links_around (e : Expr) (depth : Nat) : (iterate (linkStep sub depth) e).Gives fun e' =>
    e'.Everywhere Expr.Steady → e.Everywhere Expr.Steady := by
  refine .iterate (fun e' within => .bind fun o => ?_) id
  cases o with
  | none => exact .pure within
  | some link =>
    refine .bind fun spent => ?_
    split
    · refine .bind fun _ => tooDeep_gives.after fun broken error => .pure fun steady => ?_
      obtain ⟨span, rfl⟩ := error
      exact (Expr.not_steady_error span steady).elim
    · refine .bind fun _ => .bind fun _ => (applyLink_around e' link).after fun longer around =>
        .pure fun steady => ?_
      rcases around with rfl | part
      · exact within steady
      · exact within (steady.inv.2 e' part)

include inner

theorem primary_kept : Spends low (primary sub) Kept :=
  (primary_spends inner fun _ _ _ => rfl).weaken fun _ _ held steady => held.kept steady.inv.2

/-- What the links of an operand spend is given back behind them. -/
theorem postfixExpr_kept : Spends low (postfixExpr sub) Kept := by
  refine (primary_kept inner).bind fun e k kept s _ most => ⟨0, rfl, most, fun steady => ?_⟩
  exact kept (links_around e s.depth s steady)

theorem ofExpr_kept {q : Quantifier Expr} {k : Nat} (quantified : Shared Kept k q.parts) :
    Spends low (ofExpr sub q) fun spent e => Kept (k + spent) e :=
  (ofExpr_spends inner (fun _ _ _ => rfl) quantified).weaken fun _ _ held steady =>
    (held.widen fun _ _ => .inl).kept steady.inv.2

omit inner in
theorem prefixed_kept {table : Kind → Option UnaryOp} {level : Level} {bare : Parser Expr}
    (inner : Spends low (sub level) Kept)
    (h : Spends low bare Kept) : Spends low (prefixed sub table level bare) Kept := by
  refine .still (.look run_peek) fun o => ?_
  cases o with
  | none => exact h
  | some t =>
    dsimp only
    cases table t.kind with
    | none => exact h
    | some op =>
      refine .still advance_still fun _ => inner.bind fun e k kept => .pure fun steady => ?_
      exact kept (steady.inv.2 e (List.mem_singleton_self e))

end Layer

/-- What a chain has come to: its first operand, something broken, or a node of the chain. -/
structure ChainKept (level k : Nat) (c : Expr × Bool) : Prop where
  shape : c.2 = true → (∃ span, c.1 = .error span) ∨ ∃ op first rest span,
      c.1 = .binary op (first :: rest) span ∧ op.level = level
  kept : Kept k c.1

/-- One operand more of the same operator. -/
theorem appended {level k j : Nat} {lhs rhs e : Expr} {op : BinaryOp}
    (left : ChainKept level k (lhs, true)) (right : Kept j rhs)
    (longer : lhs.append? op rhs = some e) : ChainKept level (k + j) (e, true) := by
  rcases left.shape rfl with ⟨span, same⟩ | ⟨op', first, rest, span, same, level'⟩
  · obtain rfl : lhs = .error span := same
    cases longer
  · obtain rfl : lhs = .binary op' (first :: rest) span := same
    rw [Expr.append?] at longer
    split at longer
    · obtain rfl := Option.some.inj longer
      refine ⟨fun _ => .inr ⟨op, first, rest ++ [rhs], _, rfl, ‹op' = op› ▸ level'⟩,
        fun steady => ?_⟩
      obtain ⟨here, inside⟩ := steady.inv
      have before : (Expr.binary op' (first :: rest) span).Everywhere Expr.Steady :=
        .node (‹op' = op› ▸ here) fun part member => inside part (List.mem_append_left [rhs] member)
      rw [left.kept before,
        right (inside rhs (List.mem_append_right (first :: rest) (List.mem_singleton_self rhs)))]
    · cases longer

section Chain

variable {low level : Nat} {operator : Parser (Option BinaryOp)} {operand : Parser Expr}
  (finds : Finds level operator) (inner : Spends low operand Kept)

include finds inner

theorem chainStep_kept (c : Expr × Bool) (k : Nat) (h : ChainKept level k c) :
    Spends low (chainStep operator operand c) fun spent r =>
      ChainKept level (k + spent) r.value := by
  obtain ⟨lhs, chained⟩ := c
  obtain ⟨shape, kept⟩ := h
  obtain ⟨g, run, found⟩ := finds
  have looked : Spends low operator fun k o => k = 0 ∧ ∀ op ∈ o, op.level = level :=
    fun s _ most => by
    rw [run]
    exact ⟨0, rfl, most, rfl, fun op some => (found s op some).1⟩
  refine looked.bind ?_
  rintro o _ ⟨rfl, same⟩
  simp only [Nat.zero_add]
  cases o with
  | none => exact .pure ⟨shape, kept⟩
  | some op =>
    have level_eq := same op rfl
    refine .still advance_still fun _ => inner.bind fun rhs j right => ?_
    have pair : (Expr.pair op lhs rhs).Everywhere Expr.Steady → k + j = 0 := fun steady => by
      have parts := steady.inv.2
      rw [kept (parts lhs (List.mem_cons_self ..)),
        right (parts rhs (List.mem_cons_of_mem _ (List.mem_cons_self ..)))]
    cases chained with
    | false => exact .pure ⟨fun _ => .inr ⟨op, lhs, [rhs], _, rfl, level_eq⟩, pair⟩
    | true =>
      simp only [if_true]
      cases longer : lhs.append? op rhs with
      | some e => exact .pure (appended ⟨shape, kept⟩ right longer)
      | none =>
        -- another operator: the pair that takes all so far is not steady
        have other : ¬ (Expr.pair op lhs rhs).Everywhere Expr.Steady := fun steady => by
          obtain ⟨here, inside⟩ := steady.inv
          rcases shape rfl with ⟨span, rfl⟩ | ⟨op', first, rest, span, rfl, level'⟩
          · exact Expr.not_steady_error span (inside _ (List.mem_cons_self ..))
          · refine here ⟨op', first :: rest, span, rfl, level'.trans level_eq.symm, fun eq => ?_⟩
            rw [Expr.append?, if_pos eq] at longer
            cases longer
        refine .deeper ((tooDeep_spends low).bind ?_)
          (.pure ⟨?_, fun steady => (other steady).elim⟩)
        · rintro _ _ ⟨rfl, span, rfl⟩
          exact .pure ⟨fun _ => .inl ⟨span, rfl⟩, fun steady =>
            (Expr.not_steady_error span steady).elim⟩
        · exact fun _ => .inr ⟨op, lhs, [rhs], _, rfl, level_eq⟩

theorem chainFrom_kept {lhs : Expr} {k : Nat} (left : Kept k lhs) :
    Spends low (chainFrom lhs operator operand) fun spent e => Kept (k + spent) e :=
  (Spends.iterate (chainStep_kept finds inner)
    (show ChainKept level k (lhs, false) from ⟨nofun, left⟩)).bind fun _ _ chain =>
    .pure chain.kept

theorem chain_kept : Spends low (chain operator operand) Kept :=
  inner.bind fun _ _ left => chainFrom_kept finds inner left

end Chain

section Layer

variable {low : Nat} {sub : Level → Parser Expr} (inner : ∀ level, Spends low (sub level) Kept)

include inner

omit inner in
/-- One level of binary operators above another. -/
theorem tableChain_kept {l : Nat} {table : Kind → Option BinaryOp}
    (member : (l, table) ∈
      [(0, orOperator), (1, andOperator), (3, comparisonOperator), (4, bitOrOperator),
      (5, bitXorOperator), (6, bitAndOperator), (7, shiftOperator), (8, sumOperator),
        (9, productOperator)])
    {operand : Parser Expr} (h : Spends low operand Kept) :
    Spends low (chain (operatorOf table) operand) Kept :=
  chain_kept (operatorOf_finds (tables_sound member)) h

theorem bitOrExpr_kept : Spends low (bitOrExpr sub) Kept := by
  have product : Spends low (productExpr sub) Kept :=
    chain_kept productOperatorAhead_finds (prefixed_kept (inner _) (postfixExpr_kept inner))
  have sum : Spends low (sumExpr sub) Kept :=
    tableChain_kept (l := 8) (by simp only [List.mem_cons, true_or, or_true]) product
  have shift : Spends low (shiftExpr sub) Kept :=
    tableChain_kept (l := 7) (by simp only [List.mem_cons, true_or, or_true]) sum
  have bitAnd : Spends low (bitAndExpr sub) Kept :=
    tableChain_kept (l := 6) (by simp only [List.mem_cons, true_or, or_true]) shift
  have bitXor : Spends low (bitXorExpr sub) Kept :=
    tableChain_kept (l := 5) (by simp only [List.mem_cons, true_or, or_true]) bitAnd
  exact tableChain_kept (l := 4) (by simp only [List.mem_cons, true_or, or_true]) bitXor

theorem comparisonExpr_kept : Spends low (comparisonExpr sub) Kept := by
  refine (bitOrExpr_kept inner).bind fun lhs k left => .still (.look (run_atKind · _)) fun _ => ?_
  refine .ite (fun _ => ofExpr_kept inner (q := .count lhs) (.one left)) fun _ =>
    .still (.look run_atPercentOf) fun _ => ?_
  refine .ite (fun _ => .still advance_still fun _ =>
    ofExpr_kept inner (q := .percentage lhs) (.one left)) fun _ => ?_
  have comparisons : Finds 3 (operatorOf comparisonOperator) :=
    operatorOf_finds (tables_sound (by simp only [List.mem_cons, true_or, or_true]))
  exact chainFrom_kept comparisons (bitOrExpr_kept inner) left

theorem negationExpr_kept : Spends low (negationExpr sub) Kept :=
  prefixed_kept (inner _) (comparisonExpr_kept inner)

theorem layer_kept (level : Level) : Spends low (layer sub level) Kept := by
  cases level with
  | expression =>
    have and : Spends low (andExpr sub) Kept :=
      tableChain_kept (l := 1) (by simp only [List.mem_cons, true_or, or_true])
        (negationExpr_kept inner)
    exact tableChain_kept (l := 0) (by simp only [List.mem_cons, true_or]) and
  | negation => exact negationExpr_kept inner
  | bitwise => exact bitOrExpr_kept inner
  | sign => exact prefixed_kept (inner _) (postfixExpr_kept inner)

end Layer

/-- What nests gives its level back, and keeps the levels of chains that changed
their operators. -/
theorem nested_kept (low budget : Nat) (level : Level) : Spends low (nested budget level) Kept := by
  have deep : Spends low tooDeep Kept :=
    (tooDeep_spends low).weaken fun _ _ ⟨unspent, _⟩ _ => unspent
  induction budget generalizing level with
  | zero => exact deep
  | succ budget ih =>
    intro s least most
    rw [nested, run_bind, run_getDepth, run_ite]
    split
    · exact deep s least most
    · have room : s.depth + 1 ≤ maxNesting := by omega
      obtain ⟨spent, depth, fits, kept⟩ :=
        layer_kept ih level { s with depth := s.depth + 1 } (Nat.le_succ_of_le least) room
      have depth : ((layer (nested budget) level).run { s with depth := s.depth + 1 }).2.depth =
          s.depth + 1 + spent := depth
      have fits : s.depth + 1 + spent ≤ maxNesting := fits
      refine ⟨spent, ?_, by omega, kept⟩
      show ((layer (nested budget) level).run { s with depth := s.depth + 1 }).2.depth - 1 =
        s.depth + spent
      omega

end Parser

end RuleDesk
