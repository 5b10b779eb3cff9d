import RuleDesk.Proofs.Parsing.Expressions
import RuleDesk.Proofs.Parsing.Laying

namespace RuleDesk

/-! ## The spans of a condition -/

namespace Laid

variable {text : List Char} {clean : Prop} {low mid high : Nat} {lhs rhs e : Expr}

theorem pair (h : Laid text clean low mid [lhs.tree]) (h' : Laid text clean mid high [rhs.tree])
    (op : BinaryOp) :
    Laid text clean low high [(Expr.pair op lhs rhs).tree] := by
  have both := h.joined h'
  rwa [Expr.tree_span, Expr.tree_span] at both

/-- One operand more of a chain. -/
theorem operand {op : BinaryOp} (appended : lhs.append? op rhs = some e)
    (h : Laid text clean low mid [lhs.tree])
    (h' : Laid text clean mid high [rhs.tree]) : Laid text clean low high [e.tree] := by
  unfold Expr.append? at appended
  split at appended
  · split at appended
    · obtain rfl := Option.some.inj appended
      rw [Expr.tree] at h ⊢
      have longer := h.longer h'
      rw [Expr.tree_span] at longer
      rw [Expr.treesOfEach_append]
      exact longer
    · cases appended
  · cases appended

end Laid

namespace Parser

open Lays (around)

section Grammar

variable {text : List Char} {clean : Prop} {n : Nat} {pre : ParseState → Prop}

/-! ### Chains of operators -/

section Chain

variable {operator : Parser (Option BinaryOp)} {operand : Parser Expr} (peeks : Peeks operator)
  (inner : ∀ n, Lays text clean n anywhere operand fun m e => Laid text clean n m [e.tree])

include peeks inner

theorem chainStep_lays (c : Expr × Bool) (m : Nat) (h : Laid text clean n m [c.1.tree]) :
    Lays text clean m anywhere (chainStep operator operand c)
      (around (fun k c => Laid text clean n k [c.1.tree]) fun k c =>
        Laid text clean n k [c.1.tree]) := by
  obtain ⟨lhs, chained⟩ := c
  refine .glance (g := fun s => (operator.run s).1) (fun s => Prod.ext rfl (peeks s).1) fun o => ?_
  cases o with
  | none => exact .pure h
  | some op =>
    refine .pass fun start behind => (inner start).then fun rhs k _ right => ?_
    have right : Laid text clean m k [rhs.tree] := right.widen fun _ => ⟨behind, Nat.le_refl k⟩
    dsimp only
    split
    · rename_i e appended
      split at appended
      · exact .pure (.operand appended h right)
      · cases appended
    · have pair : Lays text clean k anywhere (pure (.yield (Expr.pair op lhs rhs, true)))
          (around (fun k c => Laid text clean n k [c.1.tree]) fun k c =>
            Laid text clean n k [c.1.tree]) :=
        .pure (h.pair right op)
      split
      · refine .glance run_getDepth fun spent => ?_
        split
        · refine Lays.tooDeep.then fun e k' between error => .pure ?_
          exact error.widen fun yes =>
            ⟨Nat.le_trans (h.row yes).le (right.row yes).le, Nat.le_refl _⟩
        · exact .glance run_getDepth fun _ => (Lays.setDepth _).still fun _ _ => pair
      · exact pair

theorem chainFrom_lays {m : Nat} {lhs : Expr} (h : Laid text clean n m [lhs.tree]) :
    Lays text clean m pre (chainFrom lhs operator operand) fun k e => Laid text clean n k
      [e.tree] := by
  refine Lays.then
    (.iterate _ (fun k c => Laid text clean n k [c.1.tree]) (chainStep_progress peeks operand)
    (chainStep_lays peeks inner) h) fun c k _ laid => ?_
  exact .pure laid

theorem chain_lays :
    Lays text clean n pre (chain operator operand) fun m e => Laid text clean n m [e.tree] :=
  (inner n).at.then fun _ _ _ laid => chainFrom_lays peeks inner laid

end Chain

/-! ### Lists and ranges -/

theorem integerValue_lays {t : Token} (fits : t.span.Fits text) :
    Lays text clean n pre (integerValue t) fun m _ => m = n ∧ True := by
  unfold integerValue
  cases literalValue? t.text with
  | some _ => exact .pure ⟨rfl, trivial⟩
  | none => exact (Lays.reportAt rfl fits).still fun _ _ => .pure ⟨rfl, trivial⟩

theorem rangeDots_lays : Lays text clean n pre rangeDots fun m _ => n ≤ m := by
  have missing : ∀ {k pre}, n ≤ k → Lays text clean k pre (unexpected .rangeDots) fun m _ =>
      n ≤ m := fun le =>
    (Lays.unexpected _).weaken fun _ _ still => still.1 ▸ le
  refine .eat (missing (Nat.le_refl n)) fun t found =>
    .glance (run_nextAdjacent · _) fun adjacent => ?_
  split
  · exact .pass fun m le => .pure (Nat.le_trans found.stop le)
  · exact missing found.stop

/-- One item more of a list. -/
theorem listStep_lays {item : Parser Expr}
    (inner : ∀ n, Lays text clean n anywhere item fun m e => Laid text clean n m [e.tree])
    (es : List Expr) (m : Nat) (h : Laid text clean n m (Expr.treesOfEach es)) :
    Lays text clean m anywhere (listStep item es)
      (around (fun k es => Laid text clean n k (Expr.treesOfEach es)) fun k es =>
        Laid text clean n k (Expr.treesOfEach es)) := by
  refine (inner m).then fun e k _ one => ?_
  have longer : Laid text clean n k (Expr.treesOfEach (es ++ [e])) := by
    rw [Expr.treesOfEach_append]
    exact h.append one
  refine .eat (.pure longer) fun t found => .pure ?_
  exact longer.widen fun _ => ⟨Nat.le_refl n, found.stop⟩

theorem list_lays {item : Parser Expr}
    (inner : ∀ n, Lays text clean n anywhere item fun m e => Laid text clean n m [e.tree])
    {es : List Expr} {m : Nat} (h : Laid text clean n m (Expr.treesOfEach es)) :
    Lays text clean m pre (iterate (listStep item) es) fun k es =>
      Laid text clean n k (Expr.treesOfEach es) :=
  .iterate _ _ (listStep_progress item) (listStep_lays inner) h

theorem list_lays_first {item : Parser Expr}
    (inner : ∀ n, Lays text clean n anywhere item fun m e => Laid text clean n m [e.tree]) :
    Lays text clean n pre (iterate (listStep item) []) fun m es =>
      Laid text clean n m (Expr.treesOfEach es) :=
  list_lays inner (.nil (Nat.le_refl n))

theorem setItemStep_lays (items : List SetItem) (m : Nat)
    (h : Laid text clean n m (items.map SetItem.tree)) :
    Lays text clean m anywhere (setItemStep items)
      (around (fun k items => Laid text clean n k (items.map SetItem.tree)) fun k items =>
        Laid text clean n k (items.map SetItem.tree)) := by
  refine .expect (fun _ => .pure h) fun t found => .glance (run_nextAdjacent · _) fun wildcard => ?_
  -- An item with an asterisk goes on to the end of the asterisk.
  have finish : ∀ k, (Span.mk t.start k).Fits text → (clean → t.stop ≤ k) →
      Lays text clean k anywhere (do
        let items := items ++ [⟨⟨t.start, ← lastStop⟩, identOf t, wildcard⟩]
        if (← eat (.symbol .comma)).isSome then return .yield items
        return .done items)
      (around (fun k items => Laid text clean n k (items.map SetItem.tree)) fun k items =>
        Laid text clean n k (items.map SetItem.tree)) := by
    refine fun k fits stop => .lastStop fun _ => ?_
    have name : Laid text clean t.start t.stop [.name (identOf t)] := (Laid.name found).alone
    have item : Laid text clean m k [(SetItem.mk ⟨t.start, k⟩ (identOf t) wildcard).tree] :=
      name.node fits (fun yes => ⟨Nat.le_refl _, stop yes⟩) fun _ => ⟨found.start, Nat.le_refl _⟩
    have longer := h.append item
    rw [← List.map_singleton, ← List.map_append] at longer
    exact .eat (.pure longer) fun u found' =>
      .pure (longer.widen fun _ => ⟨Nat.le_refl n, found'.stop⟩)
  have own := found.stands.fits
  split
  · refine .advance (finish _ own fun _ => Nat.le_refl _) fun star found' =>
      finish _ (own.extend ?_) fun _ => found'.stop
    exact .mk_of found'.stop own.stop found'.stands.fits.stop
  · exact finish _ own fun _ => Nat.le_refl _

theorem patternSet_lays :
    Lays text clean n pre patternSet fun m set => Laid text clean n m set.trees := by
  refine .eat (.expect (fun _ => .pure (.nil (Nat.le_refl n))) fun t found => ?_) fun t found =>
    .pure (.token found)
  refine Lays.then (.iterate _ (fun k items => Laid text clean t.stop k (items.map SetItem.tree))
    setItemStep_progress
    setItemStep_lays (.nil (Nat.le_refl _))) fun items k _ laid => .demand fun m behind => .pure ?_
  exact laid.widen fun _ => ⟨found.stop, behind⟩

theorem variableStep_lays (vars : List Ident) (m : Nat) (h : Laid text clean n m (vars.map .name)) :
    Lays text clean m anywhere (variableStep vars)
      (around (fun k vars => Laid text clean n k (vars.map .name)) fun k vars =>
        Laid text clean n k (vars.map .name)) := by
  refine .expect (fun _ => .pure h) fun t found => ?_
  have longer := h.append (.name found)
  rw [← List.map_singleton, ← List.map_append] at longer
  exact .eat (.pure longer) fun u found' =>
    .pure (longer.widen fun _ => ⟨Nat.le_refl n, found'.stop⟩)

theorem quantifierWord?_tree {k : Kind} {make : Span → Quantifier Expr}
    (h : quantifierWord? k = some make) (s : Span) :
    Expr.treeOfQuantifier (make s) = .node s [] := by
  unfold quantifierWord? at h
  split at h <;> cases h <;> rfl

section Layer

variable {sub : Level → Parser Expr}
  (inner : ∀ n level, Lays text clean n anywhere (sub level) fun m e =>
  Laid text clean n m [e.tree])

include inner

theorem range_lays :
    Lays text clean n pre (range sub) fun m b => Laid text clean n m [Expr.treeOfBounds b] := by
  refine .opening fun start m fits place => (inner m _).then fun lower m₁ _ low => ?_
  refine rangeDots_lays.then fun _ m₂ _ dots => (inner m₂ _).then fun upper m₃ _ high => ?_
  refine .demand fun m₄ paren => .pointHere fun here => .pure ?_
  have both :=
    (low.widen fun _ => ⟨Nat.le_refl m, dots⟩).append (high.widen fun _ => ⟨Nat.le_refl m₂, paren⟩)
  exact both.enclosed fits here place

theorem anchor_lays :
    Lays text clean n pre (anchor sub) fun m a => Laid text clean n m (Expr.treesOfAnchor a) := by
  refine .eat (.eat (.pure (.nil (Nat.le_refl n))) fun t found => ?_) fun t found => ?_
  · refine (range_lays inner).then fun b m _ laid => .pure ?_
    exact laid.widen fun _ => ⟨found.stop, Nat.le_refl m⟩
  · refine (inner _ _).then fun e m _ laid => .pure ?_
    exact laid.widen fun _ => ⟨found.stop, Nat.le_refl m⟩

theorem arguments_lays : Lays text clean n pre (arguments sub) fun m es =>
    Laid text clean n m (Expr.treesOfEach es) := by
  refine .glance (run_atKind · _) fun closed => ?_
  split
  · exact .pure (.nil (Nat.le_refl n))
  · exact list_lays_first fun n => inner n _

theorem ofItem_lays :
    Lays text clean n anywhere (ofItem sub) fun m e => Laid text clean n m [e.tree] := by
  refine .look Lockstep.run_wildcardAhead fun o => ?_
  cases o with
  | none => exact (inner n _).at
  | some t =>
    rintro s sane rfl ⟨_, wild⟩
    have next : s.next? = some t := by
      unfold Lockstep.wildcardOf at wild
      split at wild
      · exact wild
      · cases wild
    have read : Lays text clean s.input.here.offset (·.next? = some t)
        (do let _ ← advance; let _ ← advance; return Expr.ruleWildcard (identOf t)) fun m e =>
          Laid text clean _ m [e.tree] :=
      .readNext (.pass fun m behind =>
        .pure ((Laid.name (sane.found next)).widen fun _ => ⟨Nat.le_refl _, behind⟩))
    exact read s sane rfl next

theorem ofItems_lays : Lays text clean n pre (ofItems sub) fun m items =>
    Laid text clean n m (Expr.treesOfItems items) := by
  refine .glance run_atTuple fun tuple => ?_
  split
  · refine .pass fun m₁ opened => (list_lays_first fun n => ofItem_lays inner).then
      fun es m₂ _ laid => ?_
    exact .demand fun m₃ closed => .pure (laid.widen fun _ => ⟨opened, closed⟩)
  · exact patternSet_lays.then fun set m _ laid => .pure laid

theorem ofExpr_lays {m : Nat} {q : Quantifier Expr}
    (h : Laid text clean n m [Expr.treeOfQuantifier q]) :
    Lays text clean m pre (ofExpr sub q) fun k e => Laid text clean n k [e.tree] := by
  refine .demand fun m₁ keyword => (ofItems_lays inner).then fun items m₂ _ counted => ?_
  refine (anchor_lays inner).then fun a m₃ _ anchored => .pointHere fun here => .pure ?_
  have whole := h.behind ((counted.append anchored).widen fun _ => ⟨keyword, Nat.le_refl m₃⟩) here
  rwa [Expr.treeOfQuantifier_span] at whole

theorem quantifier_lays : Lays text clean n pre (quantifier sub) fun m q => Laid text clean n m
    [Expr.treeOfQuantifier q] := by
  refine .peek ?_ fun t found => ?_
  · refine (Lays.unexpected _).still fun _ dirty => .pointHere fun here => .pure ?_
    exact .leaf (.point here) fun yes => absurd yes dirty
  · dsimp only
    split
    · rename_i make word
      refine .readNext (.pure ?_)
      rw [quantifierWord?_tree word]
      exact .token found
    · refine (inner n _).at.then fun e m _ laid => .eat (.pure laid) fun u percent => .pure ?_
      exact laid.widen fun _ => ⟨Nat.le_refl n, percent.stop⟩

theorem loopBody_lays :
    Lays text clean n pre (loopBody sub) fun m e => Laid text clean n m [e.tree] := by
  refine .demand fun m₁ colon => .opening fun start m₂ fits place =>
    (inner m₂ _).then fun e m₃ _ laid => ?_
  refine .demand fun m₄ paren => .pointHere fun here => .pure ?_
  have within : Laid text clean m₂ m₄ [e.tree] := laid.widen fun _ => ⟨Nat.le_refl m₂, paren⟩
  exact within.enclosed fits here fun yes => ⟨Nat.le_trans colon (place yes).1, (place yes).2⟩

theorem iterable_lays : Lays text clean n pre (iterable sub) fun m i =>
    Laid text clean n m (Expr.treesOfIterable i) := by
  refine .eat ((inner n _).at.then fun e m _ laid => .pure laid) fun t found => ?_
  refine (inner _ _).then fun first m₁ _ one => .glance (run_atKind · _) fun dot => ?_
  split
  · refine rangeDots_lays.then fun _ m₂ _ dots => (inner m₂ _).then fun upper m₃ _ high => ?_
    refine .demand fun m₄ paren => .pointHere fun here => .pure ?_
    have both := (one.widen fun _ => ⟨Nat.le_refl _, dots⟩).append
      (high.widen fun _ => ⟨Nat.le_refl m₂, paren⟩)
    exact both.enclosed found.stands.fits here fun _ => ⟨found.start, Nat.le_refl _⟩
  · have finish : ∀ (es : List Expr) (m : Nat), Laid text clean t.stop m (Expr.treesOfEach es) →
        Lays text clean m anywhere (do let _ ← expect (.symbol .rparen); return .tuple es)
          fun k i => Laid text clean n k (Expr.treesOfIterable i) := fun es m laid =>
      .demand fun k paren => .pure (laid.widen fun _ => ⟨found.stop, paren⟩)
    refine .eat (finish [first] m₁ one) fun u comma => ?_
    exact (list_lays (fun n => inner n _) (one.widen fun _ => ⟨Nat.le_refl _, comma.stop⟩)).then
      fun es m _ laid =>
      finish es m laid

theorem forExpr_lays {start : Span} (fits : start.Fits text) (place : clean → n ≤ start.start) :
    Lays text clean start.stop pre (forExpr sub start) fun m e => Laid text clean n m [e.tree] := by
  have before : clean → n ≤ start.start ∧ start.stop ≤ start.stop :=
    fun yes => ⟨place yes, Nat.le_refl _⟩
  refine (quantifier_lays inner).then fun q m₁ _ quantified => .eat ?_ fun t found => ?_
  · refine Lays.then (.iterate _ (fun k vars => Laid text clean m₁ k (vars.map .name))
      variableStep_progress variableStep_lays
      (.nil (Nat.le_refl m₁))) fun vars m₂ _ named => .demand fun m₃ keyword => ?_
    refine (iterable_lays inner).then fun i m₄ _ values =>
      (loopBody_lays inner).then fun body m₅ _ inside => ?_
    refine .pointHere fun here => .pure ?_
    have parts := quantified.append
      ((named.widen fun _ => ⟨Nat.le_refl m₁, keyword⟩).append (values.append inside))
    exact parts.enclosed fits here before
  · refine patternSet_lays.then fun set m₂ _ counted =>
      (loopBody_lays inner).then fun body m₃ _ inside => ?_
    refine .pointHere fun here => .pure ?_
    have parts :=
      quantified.append ((counted.append inside).widen fun _ => ⟨found.stop, Nat.le_refl m₃⟩)
    exact parts.enclosed fits here before

theorem index?_lays :
    Lays text clean n pre (index? sub) fun m o => Laid text clean n m (Expr.treesOfIndex o) := by
  refine .eat (.pure (.nil (Nat.le_refl n))) fun t found => (inner _ _).then fun e m₁ _ laid => ?_
  exact .demand fun m₂ bracket => .pure (laid.widen fun _ => ⟨found.stop, bracket⟩)

/-- A reference to a pattern, behind its name. -/
theorem patternExpr_lays (k : Sigil) {t : Token} (found : t.FoundAt text n) :
    Lays text clean t.stop pre (patternExpr sub k t) fun m e => Laid text clean n m [e.tree] := by
  have name : Laid text clean n t.stop [.name (identOf t)] := .name found
  cases k with
  | identity =>
    refine (anchor_lays inner).then fun a m _ laid => .pure ?_
    cases a with
    | anywhere =>
      exact (name.alone.node found.stands.fits (fun _ => ⟨Nat.le_refl _, Nat.le_refl _⟩) fun yes =>
        ⟨found.start, (laid.row yes).le⟩)
    | «at» e =>
      have both := name.joined laid
      rwa [Expr.tree_span] at both
    | within b =>
      have both := name.joined laid
      rwa [Expr.treeOfBounds_span] at both
  | count =>
    have finish : ∀ (range : Option (Bounds Expr)) (m : Nat),
        Laid text clean t.stop m (Expr.treesOfRange range) →
        Lays text clean m anywhere
          (do return Expr.count (identOf t) range (t.span.through (← pointHere)))
          fun m e => Laid text clean n m [e.tree] :=
            fun range m laid => .pointHere fun here => .pure (name.behind laid here)
    refine .eat (finish none _ (.nil (Nat.le_refl _))).at fun u keyword =>
      (range_lays inner).then fun b m _ laid => ?_
    exact finish (some b) m (laid.widen fun _ => ⟨keyword.stop, Nat.le_refl m⟩)
  | offset =>
    exact (index?_lays inner).then fun o m _ laid => .pointHere fun here =>
      .pure (name.behind laid here)
  | length =>
    exact (index?_lays inner).then fun o m _ laid => .pointHere fun here =>
      .pure (name.behind laid here)

omit inner in
/-- A literal without its closing delimiter is reported. -/
theorem reportOpen_lays {t : Token} (fits : t.span.Fits text) :
    Lays text clean n pre (reportOpen t) fun m _ => m = n ∧ True := by
  have reported : ∀ fault, SyntaxError.spans ⟨fault, t.span⟩ = [t.span] →
      Lays text clean n pre (report fault t.span) fun m _ => m = n ∧ True := fun fault plain =>
    (Lays.reportAt plain fits).weaken fun _ _ still => ⟨still.1, trivial⟩
  unfold reportOpen
  split
  · exact reported _ rfl
  · exact reported _ rfl
  · exact .pure ⟨rfl, trivial⟩

theorem primary_lays :
    Lays text clean n pre (primary sub) fun m e => Laid text clean n m [e.tree] := by
  refine .peek ?_ fun t found => ?_
  · refine (Lays.unexpected _).still fun _ dirty => .pointHere fun here => .pure ?_
    exact .leaf (.point here) fun yes => absurd yes dirty
  have fits := found.stands.fits
  dsimp only
  split
  · exact .readNext ((reportOpen_lays fits).still fun _ _ => .pure (.token found))
  split
  · exact .readNext ((integerValue_lays fits).still fun _ _ => .pure (.token found))
  · exact .readNext (.pure (.name found))
  · exact .readNext (patternExpr_lays inner _ found)
  · refine .readNext ((inner _ _).then fun e m₁ _ laid => .demand fun m₂ paren =>
      .pointHere fun here => .pure ?_)
    have within : Laid text clean t.stop m₂ [e.tree] := laid.widen fun _ => ⟨Nat.le_refl _, paren⟩
    exact within.enclosed fits here fun _ => ⟨found.start, Nat.le_refl _⟩
  · exact .readNext (forExpr_lays inner fits fun _ => found.start)
  · split
    · rename_i make word
      refine .readNext (ofExpr_lays inner ?_)
      rw [quantifierWord?_tree word]
      exact .token found
    · refine ((Lays.unexpected _).still fun _ dirty => .pure ?_).at
      exact .leaf (.point fits.start) fun yes => absurd yes dirty

theorem applyLink_lays (e : Expr) (link : Link) {m : Nat} (h : Laid text clean n m [e.tree]) :
    Lays text clean m pre (applyLink sub e link) fun k e => Laid text clean n k [e.tree] := by
  cases link with
  | field =>
    refine .pass fun m₁ dot => .advance (.pure (h.widen fun _ => ⟨Nat.le_refl n, dot⟩))
      fun t found => .pure ?_
    have both := h.joined ((Laid.name found).widen fun _ => ⟨dot, Nat.le_refl _⟩)
    rwa [Expr.tree_span] at both
  | lookup =>
    refine .pass fun m₁ bracket => (inner m₁ _).then fun index m₂ _ laid => .demand fun m₃ closed =>
      .pointHere fun here => ?_
    have whole := h.behind (laid.widen fun _ => ⟨bracket, closed⟩) here
    rw [Expr.tree_span] at whole
    exact .pure whole
  | call =>
    refine .pass fun m₁ paren => (arguments_lays inner).then fun args m₂ _ laid =>
      .demand fun m₃ closed => ?_
    refine .pointHere fun here => ?_
    have whole := h.behind (laid.widen fun _ => ⟨paren, closed⟩) here
    rw [Expr.tree_span] at whole
    exact .pure whole

theorem linkStep_lays (depth : Nat) (e : Expr) (m : Nat) (h : Laid text clean n m [e.tree]) :
    Lays text clean m anywhere (linkStep sub depth e)
      (around (fun k e => Laid text clean n k [e.tree]) fun k e =>
        Laid text clean n k [e.tree]) := by
  refine .glance Lockstep.run_linkAhead fun o => ?_
  cases o with
  | none => exact .pure h
  | some link =>
    refine .glance run_getDepth fun spent => ?_
    split
    · refine (Lays.setDepth _).still fun _ _ => Lays.tooDeep.then fun e k _ error => .pure ?_
      exact error.widen fun yes => ⟨(h.row yes).le, Nat.le_refl k⟩
    · refine .glance run_getDepth fun _ => (Lays.setDepth _).still fun _ _ => ?_
      exact (applyLink_lays inner e link h).then fun e k _ laid => .pure laid

theorem postfixExpr_lays :
    Lays text clean n pre (postfixExpr sub) fun m e => Laid text clean n m [e.tree] := by
  refine (primary_lays inner).then fun e m _ laid => .glance run_getDepth fun depth => ?_
  refine Lays.then
    (.iterate _ (fun k e => Laid text clean n k [e.tree]) (linkStep_progress sub depth)
    (linkStep_lays inner depth) laid) fun e k _ laid => ?_
  exact (Lays.setDepth _).still fun _ _ => .pure laid

/-! ### The levels of an expression -/

theorem prefixed_lays (table : Kind → Option UnaryOp) (level : Level) {bare : Parser Expr}
    (operand : Lays text clean n anywhere bare fun m e => Laid text clean n m [e.tree]) :
    Lays text clean n pre (prefixed sub table level bare) fun m e => Laid text clean n m
      [e.tree] := by
  refine .peek operand fun t found => ?_
  dsimp only
  split
  · exact operand.at
  · refine .readNext ((inner _ _).then fun e m _ laid => .pure ?_)
    have whole := Laid.led found laid
    rwa [Expr.tree_span] at whole

theorem signExpr_lays :
    Lays text clean n pre (signExpr sub) fun m e => Laid text clean n m [e.tree] :=
  prefixed_lays inner _ _ (postfixExpr_lays inner)

/-- The binary operators that bind tighter than the comparisons. -/
theorem bitOrExpr_lays :
    Lays text clean n pre (bitOrExpr sub) fun m e => Laid text clean n m [e.tree] :=
  chain_lays (operatorOf_peeks _) fun _ => chain_lays (operatorOf_peeks _) fun _ =>
    chain_lays (operatorOf_peeks _) fun _ =>
    chain_lays (operatorOf_peeks _) fun _ => chain_lays (operatorOf_peeks _) fun _ =>
      chain_lays productOperatorAhead_peeks fun _ => signExpr_lays inner

theorem comparisonExpr_lays :
    Lays text clean n pre (comparisonExpr sub) fun m e => Laid text clean n m [e.tree] := by
  refine (bitOrExpr_lays inner).then fun lhs m _ laid => .glance (run_atKind · _) fun of => ?_
  split
  · exact ofExpr_lays inner laid
  refine .glance run_atPercentOf fun percent => ?_
  split
  · exact .pass fun k behind => ofExpr_lays inner (laid.widen fun _ => ⟨Nat.le_refl n, behind⟩)
  · exact chainFrom_lays (operatorOf_peeks _) (fun _ => bitOrExpr_lays inner) laid

theorem negationExpr_lays :
    Lays text clean n pre (negationExpr sub) fun m e => Laid text clean n m [e.tree] :=
  prefixed_lays inner _ _ (comparisonExpr_lays inner)

theorem layer_lays (level : Level) :
    Lays text clean n pre (layer sub level) fun m e => Laid text clean n m [e.tree] := by
  cases level with
  | expression =>
    exact chain_lays (operatorOf_peeks _) fun _ => chain_lays (operatorOf_peeks _) fun _ =>
      negationExpr_lays inner
  | negation => exact negationExpr_lays inner
  | bitwise => exact bitOrExpr_lays inner
  | sign => exact signExpr_lays inner

end Layer

theorem nested_lays (budget n : Nat) (level : Level) :
    Lays text clean n anywhere (nested budget level) fun m e => Laid text clean n m [e.tree] := by
  induction budget generalizing n level with
  | zero => exact Lays.tooDeep
  | succ budget ih =>
    refine .glance run_getDepth fun spent => ?_
    split
    · exact Lays.tooDeep
    refine .glance run_getDepth fun _ => (Lays.setDepth _).still fun _ _ => ?_
    refine (layer_lays ih level).then fun e m _ laid => .glance run_getDepth fun _ => ?_
    exact (Lays.setDepth _).still fun _ _ => .pure laid

/-- The spans of a condition fit into the text. Where the parse is clean they are
nested, and between the places where the condition starts and stops. -/
theorem expression_lays :
    Lays text clean n pre expression fun m e => Laid text clean n m [e.tree] :=
  (Lays.setDepth 0).still fun _ _ => nested_lays _ _ _

end Grammar

end Parser

end RuleDesk
