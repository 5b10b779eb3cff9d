import RuleDesk.Proofs.Parsing.Spending

namespace RuleDesk

/-! ## The depth of a condition

Each way in which an expression nests spends a level, and a level is only given
back where the parse leaves what it was spent for. So the levels that are left
bound the tree, whatever the text is. -/

/-- An expression in which no path downwards has more than so many nodes. -/
inductive Expr.Within : Nat → Expr → Prop
  | node {n : Nat} {e : Expr} (inside : ∀ part ∈ e.parts, part.Within n) : Within (n + 1) e

namespace Expr.Within

variable {n m : Nat} {e : Expr}

theorem mono (h : e.Within n) (le : n ≤ m) : e.Within m := by
  induction h generalizing m with
  | node _ ih =>
    obtain ⟨k, rfl⟩ : ∃ k, m = k + 1 := ⟨m - 1, by omega⟩
    exact .node fun part member => ih part member (Nat.le_of_succ_le_succ le)

theorem leaf (h : e.parts = []) (positive : 0 < n) : e.Within n := by
  obtain ⟨k, rfl⟩ := Nat.exists_eq_add_one.mpr positive
  exact .node fun part member => by rw [h] at member; cases member

/-- A path that starts at a node and goes on from each node to a part of it. -/
theorem path_le (h : e.Within n) {path : List Expr}
    (down : (e :: path).IsChain fun outer inner => inner ∈ outer.parts) :
    (e :: path).length ≤ n := by
  induction h generalizing path with
  | node _ ih =>
    cases path with
    | nil => exact Nat.le_add_left _ _
    | cons part path =>
      obtain ⟨member, later⟩ := List.isChain_cons_cons.mp down
      exact Nat.succ_le_succ (ih part member later)

/-- The node that is made of a chain so far and its next operand. -/
theorem pair {lhs rhs : Expr} {op : BinaryOp} (left : lhs.Within n) (right : rhs.Within n) :
    (Expr.pair op lhs rhs).Within (n + 1) := by
  refine .node fun part member => ?_
  rcases List.mem_cons.mp member with rfl | last
  · exact left
  · obtain rfl := List.mem_singleton.mp last
    exact right

/-- One more operand does not make a node deeper. -/
theorem append? {lhs rhs : Expr} {op : BinaryOp} (left : lhs.Within (n + 1)) (right : rhs.Within n)
    (h : lhs.append? op rhs = some e) :
    e.Within (n + 1) := by
  unfold Expr.append? at h
  split at h
  · split at h
    · obtain rfl := Option.some.inj h
      cases left with
      | node inside =>
        refine .node fun part member => ?_
        rcases List.mem_append.mp member with old | last
        · exact inside part old
        · obtain rfl := List.mem_singleton.mp last
          exact right
    · cases h
  · cases h

end Expr.Within

/-- A node is deeper by one than its parts, and what is in parentheses by one more. -/
theorem Shared.within {n k : Nat} {e : Expr}
    (h : Shared (Enclosed fun _ e => e.Within n) k e.parts) : e.Within (n + 2) := by
  refine .node (h.forall_mem fun _ part held => ?_)
  rcases held with within | ⟨inner, span, rfl, within⟩
  · exact within.mono (Nat.le_succ n)
  · exact .node (List.forall_mem_singleton.mpr within)

namespace Parser

theorem tooDeep_within (low : Nat) (n : Nat) (positive : 0 < n) :
    Spends low tooDeep fun k e => k = 0 ∧ e.Within n :=
  (tooDeep_spends low).weaken fun _ _ ⟨unspent, _, error⟩ => ⟨unspent, error ▸ .leaf rfl positive⟩

section Layer

variable {low n : Nat} {sub : Level → Parser Expr}
    (inner : ∀ level, Spends low (sub level) fun _ e => e.Within n)

include inner

theorem primary_within (positive : 0 < n) : Spends low (primary sub) fun _ e => e.Within (n + 2) :=
  (primary_spends inner fun _ none => .leaf none positive).weaken fun _ _ held => held.within

theorem ofExpr_within (positive : 0 < n) {q : Quantifier Expr}
    (quantified : ∀ e ∈ q.parts, e.Within n) :
    Spends low (ofExpr sub q) fun _ e => e.Within (n + 1) :=
  (ofExpr_spends inner (fun _ none => .leaf none positive) (.of_forall quantified)).weaken
    fun _ _ held =>
    .node (held.forall_mem fun _ _ within => within)

theorem applyLink_within (link : Link) {m : Nat} (wide : n ≤ m) {e : Expr} (within : e.Within m) :
    Spends low (applyLink sub e link) fun _ e => e.Within (m + 1) := by
  cases link with
  | field =>
    refine .still advance_still fun _ => .still advance_still fun o => ?_
    cases o with
    | none => exact .pure (within.mono (Nat.le_succ m))
    | some t => exact .pure (.node (List.forall_mem_singleton.mpr within))
  | lookup =>
    refine .still advance_still fun _ => (inner _).bind fun index _ inside =>
      .still (expect_still _) fun _ => .last pointHere_still fun _ => .node ?_
    exact List.forall_mem_cons.mpr ⟨within, List.forall_mem_singleton.mpr (inside.mono wide)⟩
  | call =>
    refine .still advance_still fun _ => (arguments_spends inner).bind fun es _ inside =>
      .still (expect_still _) fun _ => ?_
    refine .last pointHere_still fun _ => .node (List.forall_mem_cons.mpr ⟨within, ?_⟩)
    exact inside.forall_mem fun _ arg inner => inner.mono wide

omit inner in
/-- A chain of links that started at a depth: each link makes the tree one node
deeper, and it spends a level. -/
structure Linked (depth n : Nat) (e : Expr) (s : ParseState) : Prop where
  least : depth ≤ s.depth
  most : s.depth ≤ maxNesting
  within : e.Within (n + (s.depth - depth))

theorem linkStep_linked {depth m : Nat} (deep : low ≤ depth) (positive : 0 < n) (wide : n ≤ m)
    (e : Expr) :
    Ensures (Linked depth m e) (linkStep sub depth e)
      (Ensures.round (Linked depth m) (Linked depth m)) := by
  intro s start
  rw [linkStep, run_bind, Lockstep.run_linkAhead]
  cases Lockstep.linkOf s with
  | none => exact start
  | some link =>
    have least := start.least
    dsimp only
    rw [run_bind, run_getDepth, run_ite]
    split
    · have most : depth ≤ maxNesting := Nat.le_trans least start.most
      obtain ⟨_, same, _, rfl, leaf⟩ :=
        tooDeep_within depth m (Nat.lt_of_lt_of_le positive wide) { s with depth := depth }
          (Nat.le_refl _) most
      exact ⟨Nat.le_of_eq same.symm, same ▸ most, leaf.mono (Nat.le_add_right _ _)⟩
    · have room : s.depth + 1 ≤ maxNesting := by omega
      have lower : low ≤ s.depth + 1 := by omega
      obtain ⟨spent, same, within, longer⟩ :=
        applyLink_within inner link (Nat.le_trans wide (Nat.le_add_right m _)) start.within
        { s with depth := s.depth + 1 } lower room
      have now : ((applyLink sub e link).run { s with depth := s.depth + 1 }).2.depth =
          s.depth + 1 + spent := same
      have counted : m + (s.depth - depth) + 1 ≤ m + (s.depth + 1 + spent - depth) := by omega
      refine ⟨?_, ?_, ?_⟩
      · exact now ▸ by omega
      · exact now ▸ within
      · exact longer.mono (now ▸ counted)

/-- What the links spend is given back behind the last one. -/
theorem postfixExpr_within (positive : 0 < n) :
    Spends low (postfixExpr sub) fun _ e => e.Within (n + 2 + (maxNesting - low)) := by
  refine (primary_within inner positive).bind fun e k within s least most => ⟨0, rfl, most, ?_⟩
  have begun : Linked s.depth (n + 2) e s :=
    ⟨Nat.le_refl _, most, within.mono (Nat.le_add_right _ _)⟩
  have linked := Ensures.iterate (linkStep_progress sub s.depth)
    (linkStep_linked inner least positive (Nat.le_add_right n 2)) e s begun
  have le : ((iterate (linkStep sub s.depth) e).run s).2.depth - s.depth ≤ maxNesting - low := by
    have := linked.most
    omega
  exact linked.within.mono (Nat.add_le_add_left le _)

omit inner in
theorem prefixed_within {m : Nat} (wide : n + 1 ≤ m) {table : Kind → Option UnaryOp} {level : Level}
    {bare : Parser Expr}
    (inner : Spends low (sub level) fun _ e => e.Within n)
    (h : Spends low bare fun k e => e.Within (m + k)) :
    Spends low (prefixed sub table level bare) fun k e => e.Within (m + k) := by
  refine .still (.look run_peek) fun o => ?_
  cases o with
  | none => exact h
  | some t =>
    dsimp only
    cases table t.kind with
    | none => exact h
    | some op =>
      refine .still advance_still fun _ => inner.bind fun e k within => .pure ?_
      have node : (Expr.unary op e (t.span.through e.span)).Within (n + 1) :=
        .node (List.forall_mem_singleton.mpr within)
      exact node.mono (Nat.le_trans wide (Nat.le_add_right _ _))

end Layer

/-- What a chain has come to after so many levels were spent: its first operand,
or a node of the chain. -/
def ChainWithin (n k : Nat) (c : Expr × Bool) : Prop := c.1.Within (n + c.2.toNat + k)

section Chain

variable {low n : Nat} {operator : Parser (Option BinaryOp)} {operand : Parser Expr}
  (looks : Peeks operator) (inner : Spends low operand fun k e => e.Within (n + k))

include looks inner

/-- An operand more spends no level unless the operator is another one. -/
theorem chainStep_within (positive : 0 < n) (c : Expr × Bool) (k : Nat) (h : ChainWithin n k c) :
    Spends low (chainStep operator operand c) fun spent r => ChainWithin n (k + spent) r.value := by
  obtain ⟨lhs, chained⟩ := c
  have look : Still operator := fun s => by rw [(looks s).1]; exact ⟨rfl, rfl⟩
  refine .still look fun o => ?_
  cases o with
  | none => exact .pure h
  | some op =>
    refine .still advance_still fun _ => inner.bind fun rhs j right => ?_
    cases chained with
    | false =>
      have left : lhs.Within (n + (k + j)) := h.mono (Nat.add_le_add_left (Nat.le_add_right k j) n)
      exact .pure ((left.pair (right.mono (by omega))).mono
        (by simp only [ForInStep.value, Bool.toNat_true]; omega))
    | true =>
      have left : lhs.Within (n + (k + j) + 1) := h.mono (by simp only [Bool.toNat_true]; omega)
      have raised : rhs.Within (n + (k + j)) := right.mono (by omega)
      simp only [if_true]
      cases longer : lhs.append? op rhs with
      | some e =>
        exact .pure ((left.append? raised longer).mono
          (by simp only [ForInStep.value, Bool.toNat_true]; omega))
      | none =>
        refine .deeper ((tooDeep_within low 1 Nat.one_pos).bind ?_) (.pure ?_)
        · rintro e _ ⟨rfl, leaf⟩
          exact .pure (leaf.mono (by simp only [ForInStep.value, Bool.toNat_true]; omega))
        · exact (left.pair (raised.mono (Nat.le_succ _))).mono
            (by simp only [ForInStep.value, Bool.toNat_true]; omega)

theorem chainFrom_within (positive : 0 < n) {lhs : Expr} {k : Nat} (left : lhs.Within (n + k)) :
    Spends low (chainFrom lhs operator operand) fun spent e => e.Within (n + 1 + (k + spent)) := by
  refine (Spends.iterate (chainStep_within looks inner positive)
    (show ChainWithin n k (lhs, false) from left)).bind fun c j chain => ?_
  have most : c.2.toNat ≤ 1 := c.2.toNat_le
  exact .pure (chain.mono (by omega))

theorem chain_within (positive : 0 < n) :
    Spends low (chain operator operand) fun k e => e.Within (n + 1 + k) :=
  inner.bind fun _ _ left => chainFrom_within looks inner positive left

end Chain

section Layer

variable {low n : Nat} {sub : Level → Parser Expr}
    (inner : ∀ level, Spends low (sub level) fun _ e => e.Within n) (positive : 0 < n)

include inner positive

theorem signExpr_within :
    Spends low (signExpr sub) fun k e => e.Within (n + (maxNesting - low) + 2 + k) :=
  prefixed_within (by omega) (inner _) ((postfixExpr_within inner positive).weaken fun _ _ within =>
    within.mono (by omega))

theorem bitOrExpr_within :
    Spends low (bitOrExpr sub) fun k e => e.Within (n + (maxNesting - low) + 8 + k) := by
  have chain : ∀ {m : Nat} {table : Kind → Option BinaryOp} {operand : Parser Expr},
      (Spends low operand fun k e => e.Within (n + (maxNesting - low) + m + k)) →
      Spends low (chain (operatorOf table) operand) fun k e =>
        e.Within (n + (maxNesting - low) + (m + 1) + k) :=
    fun h => (chain_within (operatorOf_peeks _) h (by omega)).weaken fun _ _ within => within
  have product :=
    chain_within productOperatorAhead_peeks (signExpr_within inner positive) (by omega)
  exact chain (chain (chain (chain (chain product))))

theorem comparisonExpr_within :
    Spends low (comparisonExpr sub) fun k e => e.Within (n + (maxNesting - low) + 9 + k) := by
  refine (bitOrExpr_within inner positive).bind fun lhs k left => ?_
  have counted : ∀ q : Quantifier Expr, q.parts = [lhs] →
      Spends low (ofExpr sub q) fun spent e =>
        e.Within (n + (maxNesting - low) + 9 + (k + spent)) := by
    intro q parts
    have raised : ∀ level, Spends low (sub level) fun _ e =>
      e.Within (n + (maxNesting - low) + 8 + k) :=
      fun level => (inner level).weaken fun _ _ within => within.mono (by omega)
    refine (ofExpr_within raised (by omega) (q := q) ?_).weaken fun _ _ within =>
      within.mono (by omega)
    rw [parts]
    exact List.forall_mem_singleton.mpr left
  refine .still (.look (run_atKind · _)) fun _ => .ite (fun _ => counted _ rfl) fun _ => ?_
  refine .still (.look run_atPercentOf) fun _ =>
    .ite (fun _ => .still advance_still fun _ => counted _ rfl) fun _ => ?_
  exact chainFrom_within (operatorOf_peeks _) (bitOrExpr_within inner positive) (by omega) left

theorem negationExpr_within :
    Spends low (negationExpr sub) fun k e => e.Within (n + (maxNesting - low) + 9 + k) :=
  prefixed_within (by omega) (inner _) (comparisonExpr_within inner positive)

theorem layer_within (level : Level) :
    Spends low (layer sub level) fun k e => e.Within (n + (maxNesting - low) + 11 + k) := by
  cases level with
  | expression =>
    have and := chain_within (operatorOf_peeks andOperator) (negationExpr_within inner positive)
      (by omega)
    exact chain_within (operatorOf_peeks _) and (by omega)
  | negation =>
    exact (negationExpr_within inner positive).weaken fun _ _ within => within.mono (by omega)
  | bitwise =>
    exact (bitOrExpr_within inner positive).weaken fun _ _ within => within.mono (by omega)
  | sign => exact (signExpr_within inner positive).weaken fun _ _ within => within.mono (by omega)

end Layer

/-- So many nodes are on a path through what is parsed with a budget. -/
def pathBound (budget : Nat) : Nat := budget * budget + 10 * budget + 1

/-- In each level there are eleven constructs around what is nested in it, and
each level that is left may be spent once on links and once on changes of an
operator. -/
theorem pathBound_succ (budget : Nat) :
    pathBound (budget + 1) = pathBound budget + 11 + 2 * budget := by
  simp only [pathBound, Nat.mul_succ, Nat.succ_mul]
  omega

theorem pathBound_positive (budget : Nat) : 0 < pathBound budget := Nat.succ_pos _

theorem nested_within {low budget : Nat} (enough : maxNesting ≤ low + budget) (level : Level) :
    Spends low (nested budget level) fun _ e => e.Within (pathBound budget) := by
  have deep : ∀ {low budget : Nat}, Spends low tooDeep fun _ e => e.Within (pathBound budget) :=
    (tooDeep_within _ _ (pathBound_positive _)).weaken fun _ _ leaf => leaf.2
  induction budget generalizing low level with
  | zero => exact deep
  | succ budget ih =>
    intro s least most
    rw [nested, run_bind, run_getDepth, run_ite]
    split
    · exact deep s least most
    · have room : s.depth + 1 ≤ maxNesting := by omega
      obtain ⟨spent, depth, fits, within⟩ :=
        @layer_within (s.depth + 1) _ _ (fun level => ih (by omega) level)
        (pathBound_positive budget) level { s with depth := s.depth + 1 } (Nat.le_refl _) room
      have depth : ((layer (nested budget) level).run { s with depth := s.depth + 1 }).2.depth =
          s.depth + 1 + spent := depth
      have fits : s.depth + 1 + spent ≤ maxNesting := fits
      refine ⟨spent, ?_, by omega, within.mono ?_⟩
      · show ((layer (nested budget) level).run { s with depth := s.depth + 1 }).2.depth - 1 =
          s.depth + spent
        omega
      · rw [pathBound_succ]
        omega

/-- A whole expression has a bounded depth, wherever it is parsed. -/
theorem expression_within : expression.Gives (·.Within (pathBound maxNesting)) := by
  intro s
  obtain ⟨_, _, _, within⟩ := nested_within (Nat.le_add_left maxNesting 0) .expression
    { s with depth := 0 } (Nat.le_refl _) (Nat.zero_le _)
  exact within

/-- The condition of a rule has a bounded depth. -/
def Shallow (r : Rule) : Prop := ∀ e ∈ r.condition, e.Within (pathBound maxNesting)

theorem sectionContent_shallow (kind : SectionKind) (duplicate : Bool) (r : Rule) (h : Shallow r) :
    (sectionContent kind duplicate r).Gives Shallow := by
  cases kind with
  | metas | strings => exact .bind fun _ => .pure h
  | condition =>
    refine expression_within.after fun e within => .pure ?_
    cases duplicate with
    | true => exact h
    | false => exact fun c same => Option.some.inj same ▸ within

theorem ruleAfterKeyword_shallow (start : Nat) (flags : RuleFlags) :
    (ruleAfterKeyword start flags).Gives Shallow :=
  .ofContents sectionContent_shallow (fun _ _ none _ some => nomatch none.symm.trans some)
    (fun _ _ _ same h e condition => h e (same ▸ condition)) start flags

end Parser

/-- A path down a tree, from each node to a part of it. -/
def Expr.Path (nodes : List Expr) : Prop := nodes.IsChain fun outer inner => inner ∈ outer.parts

/-- No path down a condition has more nodes than this, however long or malformed
the text is. -/
theorem condition_depth (text : List Char) (r : Rule) (member : r ∈ (parse text).rules) (e : Expr)
    (condition : r.condition = some e)
    (nodes : List Expr) (path : Expr.Path (e :: nodes)) : (e :: nodes).length ≤ 17665 := by
  have within : e.Within (Parser.pathBound maxNesting) :=
    parse_rules_give Parser.ruleAfterKeyword_shallow text r member e condition
  exact within.path_le path

def negatedGroup : List Char := "rule a \x7b condition: not (true".toList

set_option maxRecDepth 4000 in
/-- A path of three nodes in a condition that breaks off. -/
theorem condition_depth_negatedGroup : ∃ r ∈ (parse negatedGroup).rules, ∃ e, r.condition = some e ∧
    ∃ nodes, Expr.Path (e :: nodes) ∧ nodes.length = 2 ∧ (e :: nodes).length ≤ 17665 := by
  let atom : Expr := .atom .true ⟨25, 29⟩
  let group : Expr := .group atom ⟨24, 29⟩
  let whole : Expr := .unary .not group ⟨20, 29⟩
  have conditions : (parse negatedGroup).rules.map (·.condition) = [some whole] := by rfl
  obtain ⟨r, member, condition⟩ :=
    List.mem_map.mp (conditions ▸ List.mem_singleton_self (some whole))
  have path : Expr.Path [whole, group, atom] :=
    .cons_cons (List.mem_singleton_self _) (.cons_cons (List.mem_singleton_self _) (.singleton _))
  exact ⟨r, member, whole, condition, _, path, rfl,
    condition_depth negatedGroup r member whole condition _ path⟩

end RuleDesk
