import RuleDesk.Proofs.Parsing.Basics

namespace RuleDesk

namespace Lockstep

open RuleDesk.Parser

variable {L : Lockstep} {pre : ParseState → Prop}

/-! ### Parts of expressions that are alike -/

section Alike

variable (L : Lockstep)

def exprLists (es es' : List Expr) : Prop := Expr.rebaseAll L.left es = Expr.rebaseAll L.right es'

def boundsOf (b b' : Bounds Expr) : Prop :=
  Expr.rebaseBounds L.left b = Expr.rebaseBounds L.right b'

def anchors (a a' : Anchor Expr) : Prop := Expr.rebaseAnchor L.left a = Expr.rebaseAnchor L.right a'

def quantifiers (q q' : Quantifier Expr) : Prop :=
  Expr.rebaseQuantifier L.left q = Expr.rebaseQuantifier L.right q'

def itemsOf (i i' : OfItems Expr) : Prop := Expr.rebaseItems L.left i = Expr.rebaseItems L.right i'

def iterables (i i' : Iterable Expr) : Prop :=
  Expr.rebaseIterable L.left i = Expr.rebaseIterable L.right i'

def indexes (o o' : Option Expr) : Prop := Expr.rebaseIndex L.left o = Expr.rebaseIndex L.right o'

def sets (s s' : PatternSet) : Prop := s.rebase L.left = s'.rebase L.right

def identLists (is is' : List Ident) : Prop := is.map (·.rebase L.left) = is'.map (·.rebase L.right)

def setItems (is is' : List SetItem) : Prop := is.map (·.rebase L.left) = is'.map (·.rebase L.right)

/-- The state of a chain of operands: they are alike and both are nodes of
the chain, or none of them is. -/
def chains (c c' : Expr × Bool) : Prop := L.exprs c.1 c'.1 ∧ c.2 = c'.2

end Alike

theorem exprs.eq {e e' : Expr} (h : L.exprs e e') : e.rebase L.left = e'.rebase L.right := h

theorem exprLists.nil : L.exprLists [] [] := rfl

theorem exprLists.append {es es' : List Expr} {e e' : Expr} (h : L.exprLists es es')
    (h' : L.exprs e e') :
    L.exprLists (es ++ [e]) (es' ++ [e']) := by
  rw [exprLists, Expr.rebaseAll_append, Expr.rebaseAll_append, show _ = _ from h]
  simp only [Expr.rebaseAll, h'.eq]

theorem identLists.nil : L.identLists [] [] := rfl

theorem identLists.append {is is' : List Ident} {i i' : Ident} (h : L.identLists is is')
    (h' : L.idents i i') :
    L.identLists (is ++ [i]) (is' ++ [i']) := by
  rw [identLists, List.map_append, List.map_append, show _ = _ from h]
  simp only [List.map_cons, List.map_nil, h'.eq]

theorem quantifiers.span {q q' : Quantifier Expr} (h : L.quantifiers q q') :
    L.spans q.span q'.span := by
  have same := congrArg Quantifier.span h
  rwa [rebaseQuantifier_span, rebaseQuantifier_span] at same

theorem exprs.pair {lhs lhs' rhs rhs' : Expr} (op : BinaryOp) (h : L.exprs lhs lhs')
    (h' : L.exprs rhs rhs') :
    L.exprs (.pair op lhs rhs) (.pair op lhs' rhs') := by
  have span := h.span.through h'.span
  simp only [exprs, Expr.pair, Expr.rebase, Expr.rebaseAll, h.eq, h'.eq, span.eq]

/-- One more operand finds its place in two alike chains, or in none of them. -/
theorem exprs.append? {lhs lhs' rhs rhs' : Expr} (op : BinaryOp) (h : L.exprs lhs lhs')
    (h' : L.exprs rhs rhs') :
    (lhs.append? op rhs = none ∧ lhs'.append? op rhs' = none) ∨
      ∃ e e', lhs.append? op rhs = some e ∧ lhs'.append? op rhs' = some e' ∧ L.exprs e e' := by
  have span := h.span.through h'.span
  have operands := congrArg Expr.operands? h
  rw [Expr.rebase_operands?, Expr.rebase_operands?] at operands
  rw [Expr.append?_eq, Expr.append?_eq]
  cases found : lhs.operands? with
  | none =>
    rw [found] at operands
    rw [Option.map_eq_none_iff.mp operands.symm]
    exact .inl ⟨rfl, rfl⟩
  | some chain =>
    obtain ⟨op', es⟩ := chain
    rw [found] at operands
    obtain ⟨⟨_, es'⟩, found', eq⟩ := Option.map_eq_some_iff.mp operands.symm
    cases congrArg Prod.fst eq
    have lists : L.exprLists es es' := (congrArg Prod.snd eq).symm
    rw [found']
    simp only [Option.bind_some]
    split
    · refine .inr ⟨_, _, rfl, rfl, ?_⟩
      have all := lists.append h'
      simp only [exprs, Expr.rebase, span.eq, show Expr.rebaseAll L.left (es ++ [rhs]) = _ from all]
    · exact .inl ⟨rfl, rfl⟩

/-! ### Operators -/

/-- An operator that is looked for is the same in both parses. -/
def SameOperator (L : Lockstep) (operator : Parser (Option BinaryOp)) : Prop :=
  ∃ g : ParseState → Option BinaryOp, (∀ s, operator.run s = (g s, s)) ∧
    (∀ s s', L.rel s s' → g s = g s') ∧ ∀ s op, g s = some op → Act.read.Allowed L.exact s

/-- A table of kinds that are operators. All of these may be read. -/
theorem operatorOf_same {table : Kind → Option BinaryOp}
    (plain : ∀ k op, table k = some op → k.isPlain) :
    SameOperator L (operatorOf table) := by
  refine ⟨fun s => s.kindAhead?.bind table, fun _ => rfl, fun s s' related => ?_, ?_⟩
  · exact congrArg (·.bind table) (kindAhead? related)
  intro s op found
  obtain ⟨k, ahead, is_op⟩ := Option.bind_eq_some_iff.mp found
  exact ⟨k, ahead, .inl (plain k op is_op)⟩

theorem percentOf_same {s s' : ParseState} (h : L.rel s s') : percentOf s = percentOf s' := by
  rw [percentOf, percentOf, ← kindAhead? h]
  by_cases percent : s.kindAhead? = some (.symbol .percent)
  · rw [L.beyond h percent rfl]
  · rw [beq_eq_false_iff_ne.mpr percent, Bool.false_and, Bool.false_and]

theorem productOperatorAhead_same : SameOperator L productOperatorAhead := by
  refine ⟨productAhead, run_productOperatorAhead, fun s s' related => ?_, fun s op found => ?_⟩
  · rw [productAhead, productAhead, percentOf_same related, kindAhead? related]
  · rw [productAhead] at found
    split at found
    · cases found
    · obtain ⟨k, ahead, is_op⟩ := Option.bind_eq_some_iff.mp found
      refine ⟨k, ahead, .inl ?_⟩
      unfold productOperator at is_op
      split at is_op <;> first | rfl | cases is_op

theorem When.getDepth {f f' : Nat → Parser β} {alike : β → β → Prop}
    (deep : ∀ {s s'}, L.rel s s' → s.depth = s'.depth) (rest : ∀ n, L.When pre (f n) (f' n) alike) :
    L.When pre (getDepth >>= f) (getDepth >>= f') alike := by
  refine .look Eq run_getDepth run_getDepth (fun s s' related _ => deep related) ?_
  rintro n _ rfl
  exact (rest n).restrict fun _ start => start.1

section Chain

variable (deep : ∀ {s s'}, L.rel s s' → s.depth = s'.depth) {operator : Parser (Option BinaryOp)}
  {operand : Parser Expr} (known : L.SameOperator operator)
  (inner : L.Always operand operand L.exprs)

include deep known inner

theorem chainStep_always (c c' : Expr × Bool) (h : L.chains c c') :
    L.Always (chainStep operator operand c) (chainStep operator operand c') (Steps L.chains) := by
  obtain ⟨lhs, chained⟩ := c
  obtain ⟨lhs', _⟩ := c'
  obtain ⟨left, rfl⟩ := h
  obtain ⟨g, run, same, allowed⟩ := known
  refine .look Eq run run (fun s s' related _ => same s s' related) ?_
  rintro o _ rfl
  cases o with
  | none => exact .pure (.done ⟨left, rfl⟩)
  | some op =>
    refine (advance_when.restrict fun s start => allowed s op start.2).then fun _ _ _ => ?_
    refine inner.then fun rhs rhs' right => ?_
    cases chained with
    | false => exact .pure (.yield ⟨left.pair op right, rfl⟩)
    | true =>
      rcases left.append? op right with ⟨none, none'⟩ | ⟨e, e', some, some', longer⟩
      · simp only [if_true, none, none']
        refine .getDepth deep fun n => ?_
        split
        · exact tooDeep_always.then fun e e' same => .pure (.done ⟨same, rfl⟩)
        · exact .getDepth deep fun _ => (setDepth_always _).then fun _ _ _ =>
            .pure (.yield ⟨left.pair op right, rfl⟩)
      · simp only [if_true, some, some']
        exact .pure (.yield ⟨longer, rfl⟩)

theorem chainFrom_always (peeks : Peeks operator) {lhs lhs' : Expr} (h : L.exprs lhs lhs') :
    L.Always (chainFrom lhs operator operand) (chainFrom lhs' operator operand) L.exprs := by
  have progress := chainStep_progress peeks operand
  have loop := Always.iterate progress progress (chainStep_always deep known inner)
    (show L.chains (lhs, false) (lhs', false) from ⟨h, rfl⟩)
  exact loop.then fun c c' same => .pure same.1

theorem chain_always (peeks : Peeks operator) :
    L.Always (chain operator operand) (chain operator operand) L.exprs :=
  inner.then fun _ _ same => chainFrom_always deep known inner peeks same

end Chain

/-! ### Literals and ranges -/

theorem integerValue_always {t t' : Token} (h : L.token t t') (number : t.kind = .integer) :
    L.Always (integerValue t) (integerValue t') Eq := by
  unfold integerValue
  rw [← h.text (number ▸ rfl) (number ▸ nofun)]
  cases literalValue? t.text with
  | some n => exact .pure rfl
  | none =>
    refine (report_always (fun exact => ?_) h.span).then fun _ _ _ => .pure rfl
    rw [h.name exact]
    rfl

theorem rangeDots_always : L.Always rangeDots rangeDots whatever := by
  refine .eat rfl (unexpected_always _) fun t t' token => ?_
  refine .nextAdjacent (fun s s' related read ahead => L.adjacentDots related read ahead) ?_
    (unexpected_always _).at
  exact (When.read rfl fun _ _ _ => .pure trivial).restrict fun s start => start.2

theorem listStep_always {item : Parser Expr} (h : L.Always item item L.exprs) (es es' : List Expr)
    (same : L.exprLists es es') :
    L.Always (listStep item es) (listStep item es') (Steps L.exprLists) := by
  refine h.then fun e e' one => .eat rfl (.pure (.done (same.append one))) fun _ _ _ => ?_
  exact .pure (.yield (same.append one))

theorem list_always {item : Parser Expr} (h : L.Always item item L.exprs) {es es' : List Expr}
    (same : L.exprLists es es') :
    L.Always (iterate (listStep item) es) (iterate (listStep item) es') L.exprLists :=
  Always.iterate (listStep_progress item) (listStep_progress item) (listStep_always h) same

section Layer

variable {sub : Level → Parser Expr} (inner : ∀ level, L.Always (sub level) (sub level) L.exprs)

include inner

theorem range_always : L.Always (range sub) (range sub) L.boundsOf := by
  refine .spanAhead fun start start' from_start => .demand rfl ?_
  refine (inner _).then fun lower lower' low => rangeDots_always.then fun _ _ _ => ?_
  refine (inner _).then fun upper upper' high =>
    .demand rfl (.pointHere fun stop stop' to_stop => .pure ?_)
  have span := from_start.through to_stop
  simp only [boundsOf, Expr.rebaseBounds, low.eq, high.eq, span.eq]

theorem anchor_always : L.Always (anchor sub) (anchor sub) L.anchors := by
  refine .eat rfl ?_ fun t t' _ => ?_
  · refine .eat rfl (.pure rfl) fun t t' _ => ?_
    exact (range_always inner).at.then fun b b' same => .pure (congrArg Anchor.within same)
  · exact (inner _).at.then fun e e' same => .pure (congrArg Anchor.at same)

theorem arguments_always : L.Always (arguments sub) (arguments sub) L.exprLists :=
  .atKind _ (.pure rfl) (list_always (inner _) .nil).at

end Layer

/-! ### Sets, quantifiers and loops -/

theorem setItems.append {is is' : List SetItem} {a a' : Span} {t t' : Token} (wildcard : Bool)
    (h : L.setItems is is') (span : L.spans a a') (token : L.token t t') (sound : t.kind.isSound) :
    L.setItems (is ++ [⟨a, identOf t, wildcard⟩]) (is' ++ [⟨a', identOf t', wildcard⟩]) := by
  rw [setItems, List.map_append, List.map_append, show _ = _ from h]
  simp only [List.map_cons, List.map_nil, SetItem.rebase, span.eq, (token.ident sound).eq]

theorem setItemStep_always (is is' : List SetItem) (h : L.setItems is is') :
    L.Always (setItemStep is) (setItemStep is') (Steps L.setItems) := by
  have finish : ∀ (wildcard : Bool) (t t' : Token), L.token t t' → t.kind.isSound → L.Always
      (do
        let items := is ++ [⟨⟨t.start, ← Parser.lastStop⟩, identOf t, wildcard⟩]
        if (← Parser.eat (.symbol .comma)).isSome then return .yield items
        return .done items)
      (do
        let items := is' ++ [⟨⟨t'.start, ← Parser.lastStop⟩, identOf t', wildcard⟩]
        if (← Parser.eat (.symbol .comma)).isSome then return .yield items
        return .done items)
      (Steps L.setItems) := by
    refine fun wildcard t t' token sound => .lastStop fun n n' stop => ?_
    have more := h.append wildcard (.mk token.span.start stop) token sound
    exact .eat rfl (.pure (.done more)) fun _ _ _ => .pure (.yield more)
  refine .expectKind rfl (.pure (.done h)) fun t t' token kind => ?_
  have sound : t.kind.isSound := kind ▸ rfl
  refine .nextAdjacent (fun s s' related read ahead => L.adjacentAsterisk related read ahead) ?_ ?_
  · exact (When.read rfl fun _ _ _ => (finish true t t' token sound).at).restrict
      fun s start => start.2
  · exact (finish false t t' token sound).at

theorem patternSet_always : L.Always patternSet patternSet L.sets := by
  refine .eat rfl (.expect rfl (.pure rfl) fun _ _ _ => ?_) fun t t' token => .pure ?_
  · have loop := Always.iterate setItemStep_progress setItemStep_progress setItemStep_always
      (show L.setItems [] [] from rfl)
    exact loop.at.then fun is is' same => .demand rfl (.pure (congrArg PatternSet.items same))
  · exact congrArg PatternSet.them token.span

/-- The wildcard name at the next token, as it is looked for. -/
def wildcardOf (s : ParseState) : Option Token :=
  if s.kindAhead? = some .ident ∧ s.kindBeyond? = some (.symbol .asterisk) ∧
    s.joined then s.next? else none

theorem run_wildcardAhead (s : ParseState) : wildcardAhead.run s = (wildcardOf s, s) := by
  rw [wildcardAhead, run_bind, run_peek]
  unfold wildcardOf ParseState.kindAhead? ParseState.kindBeyond? ParseState.joined
  dsimp only
  cases s.next? with
  | none => rfl
  | some t =>
    dsimp only
    rw [run_ite, run_bind, run_peekSecond]
    cases s.second? with
    | none => simp
    | some next =>
      simp only [Option.map_some, Option.some.injEq, Option.any_some, run_pure, Bool.and_eq_true,
        beq_iff_eq]
      by_cases ident : t.kind = .ident
      · rw [if_pos ident]
        simp only [ident, true_and]
      · rw [if_neg ident, if_neg fun all => ident all.1]

theorem wildcardOf_kind (s : ParseState) (t : Token) (h : t ∈ wildcardOf s) : t.kind = .ident := by
  unfold wildcardOf at h
  split at h
  · rename_i all
    exact Option.some.inj ((ParseState.kindAhead?_of_next h).symm.trans all.1)
  · cases h

theorem wildcardOf_same {s s' : ParseState} (h : L.rel s s') :
    L.tokens (wildcardOf s) (wildcardOf s') := by
  rw [wildcardOf, wildcardOf, ← kindAhead? h]
  by_cases ident : s.kindAhead? = some .ident
  · rw [← L.beyond h ident rfl]
    by_cases asterisk : s.kindBeyond? = some (.symbol .asterisk)
    · rw [← L.joined h ident asterisk]
      split
      · exact L.next h
      · exact .none
    · rw [if_neg fun all => asterisk all.2.1, if_neg fun all => asterisk all.2.1]
      exact .none
  · rw [if_neg fun all => ident all.1, if_neg fun all => ident all.1]
    exact .none

section Layer

variable {sub : Level → Parser Expr} (inner : ∀ level, L.Always (sub level) (sub level) L.exprs)

include inner

theorem ofItem_always : L.Always (ofItem sub) (ofItem sub) L.exprs := by
  refine .look (fun o o' => L.tokens o o' ∧ ∀ t ∈ o, t.kind = .ident) run_wildcardAhead
    run_wildcardAhead (fun s s' related _ => ⟨wildcardOf_same related, wildcardOf_kind s⟩) ?_
  rintro o o' ⟨same, kind⟩
  cases same with
  | none => exact (inner _).at
  | @some t t' token =>
    have same : L.exprs (.ruleWildcard (identOf t)) (.ruleWildcard (identOf t')) :=
      congrArg Expr.ruleWildcard (token.ident (kind t rfl ▸ rfl))
    refine (When.readTwo (k := .ident) (l := .symbol .asterisk) rfl rfl fun _ _ _ _ _ _ _ =>
      .pure same).restrict fun s start => ?_
    have found := start.2
    rw [wildcardOf] at found
    split at found
    · rename_i all
      exact ⟨all.1, all.2.1⟩
    · cases found

theorem ofItems_when : L.When (fun s => L.exact ∨ s.justRead (.keyword .kwOf)) (ofItems sub)
    (ofItems sub) L.itemsOf := by
  intro s s' related behind _
  have list : L.Always (iterate (listStep (ofItem sub)) []) (iterate (listStep (ofItem sub)) [])
    L.exprLists :=
    list_always (ofItem_always inner) .nil
  have tuple : L.When (atKind (.symbol .lparen)) (ofTuple sub) (ofTuple sub) L.itemsOf := by
    refine .read rfl fun _ _ _ => list.at.then fun _ _ same => .demand rfl (.pure ?_)
    exact show L.itemsOf (.tuple _) (.tuple _) from congrArg OfItems.tuple same
  have set : L.Always (do return .patterns (← patternSet)) (do return .patterns (← patternSet))
    L.itemsOf :=
    patternSet_always.then fun _ _ same => .pure (congrArg OfItems.patterns same)
  have run : ∀ s, (ofItems sub).run s =
      (if s.kindAhead? == some (.symbol .lparen) && s.kindBeyond? != some (.sigil .identity)
        then ofTuple sub
        else do return .patterns (← patternSet)).run s := fun s => by
          rw [ofItems, run_bind, run_atTuple]
  refine .congr (run s) (run s') ?_
  rw [← kindAhead? related]
  by_cases paren : s.kindAhead? = some (.symbol .lparen)
  · rw [← L.beyondParen related behind paren]
    split
    · exact tuple s s' related paren trivial
    · exact set s s' related trivial trivial
  · rw [beq_eq_false_iff_ne.mpr paren, Bool.false_and, Bool.false_and]
    exact set s s' related trivial trivial

theorem ofExpr_always {q r : Quantifier Expr} (h : L.quantifiers q r) :
    L.Always (ofExpr sub q) (ofExpr sub r) L.exprs := by
  refine .demandRead rfl ((ofItems_when inner).then fun items items' same => ?_)
  refine (anchor_always inner).then fun a a' anchored =>
    .pointHere fun stop stop' to_stop => .pure ?_
  have span := h.span.through to_stop
  simp only [exprs, Expr.rebase, show _ = _ from h, show _ = _ from same,
    show _ = _ from anchored, span.eq]

omit inner in
theorem quantifierWord?_plain {k : Kind} {make : Span → Quantifier Expr}
    (h : quantifierWord? k = some make) :
    k.isPlain ∧ ∀ a a', L.spans a a' → L.quantifiers (make a) (make a') := by
  unfold quantifierWord? at h
  split at h
  all_goals first
    | cases h
      refine ⟨rfl, fun a a' same => ?_⟩
      simp only [quantifiers, Expr.rebaseQuantifier, same.eq]
    | cases h

theorem quantifier_always : L.Always (quantifier sub) (quantifier sub) L.quantifiers := by
  refine .peek ?_ fun t t' token => ?_
  · refine (unexpected_always _).at.then fun _ _ _ => .pointHere fun a a' same => .pure ?_
    exact congrArg (Quantifier.count ∘ Expr.error) same
  · dsimp only
    rw [← token.kind]
    cases word : quantifierWord? t.kind with
    | some make =>
      obtain ⟨plain, made⟩ := quantifierWord?_plain (L := L) word
      exact .readNext plain fun _ _ _ => .pure (made _ _ token.span)
    | none =>
      refine (inner _).at.then fun e e' same => .eat rfl (.pure ?_) fun _ _ _ => .pure ?_
      · exact congrArg Quantifier.count same
      · exact congrArg Quantifier.percentage same

theorem loopBody_always : L.Always (loopBody sub) (loopBody sub) L.exprs := by
  refine .demand rfl (.spanAhead fun start start' from_start => .demand rfl ?_)
  refine (inner _).then fun e e' same => .demand rfl (.pointHere fun stop stop' to_stop => .pure ?_)
  have span := from_start.through to_stop
  simp only [exprs, Expr.rebase, same.eq, span.eq]

theorem iterable_always : L.Always (iterable sub) (iterable sub) L.iterables := by
  refine .eat rfl ((inner _).then fun e e' same => .pure (congrArg Iterable.value same))
    fun t t' token => ?_
  refine (inner _).at.then fun first first' same => .atKind _ ?_ ?_
  · refine Always.at (rangeDots_always.then fun _ _ _ => (inner _).then fun upper upper' high => ?_)
    refine .demand rfl (.pointHere fun stop stop' to_stop => .pure ?_)
    have span := token.span.through to_stop
    simp only [iterables, Expr.rebaseIterable, Expr.rebaseBounds, same.eq, high.eq, span.eq]
  · have one : L.exprLists [first] [first'] := exprLists.nil.append same
    have finish : ∀ es es', L.exprLists es es' →
        L.Always (do let _ ← Parser.expect (.symbol .rparen); return .tuple es)
          (do let _ ← Parser.expect (.symbol .rparen); return .tuple es') L.iterables :=
      fun es es' same => .demand rfl (.pure (congrArg Iterable.tuple same))
    exact .eat rfl (finish _ _ one) fun _ _ _ => Always.at ((list_always (inner _) one).then finish)

omit inner in
theorem variableStep_always (vars vars' : List Ident) (h : L.identLists vars vars') :
    L.Always (variableStep vars) (variableStep vars') (Steps L.identLists) := by
  refine .expectKind rfl (.pure (.done h)) fun t t' token kind => ?_
  have more := h.append (token.ident (kind ▸ rfl))
  exact .eat rfl (.pure (.done more)) fun _ _ _ => .pure (.yield more)

theorem forExpr_always {start start' : Span} (h : L.spans start start') :
    L.Always (forExpr sub start) (forExpr sub start') L.exprs := by
  refine (quantifier_always inner).then fun q q' quantified => .eat rfl ?_ fun _ _ _ => ?_
  · have loop := Always.iterate variableStep_progress variableStep_progress variableStep_always
      (identLists.nil (L := L))
    refine loop.then fun vars vars' named =>
      .demand rfl ((iterable_always inner).then fun i i' same => ?_)
    refine (loopBody_always inner).then fun body body' inside =>
      .pointHere fun stop stop' to_stop => .pure ?_
    have span := h.through to_stop
    simp only [exprs, Expr.rebase, show _ = _ from quantified, show _ = _ from named,
      show _ = _ from same,
      inside.eq, span.eq]
  · refine patternSet_always.at.then fun set set' same =>
      (loopBody_always inner).then fun body body' inside => ?_
    refine .pointHere fun stop stop' to_stop => .pure ?_
    have span := h.through to_stop
    simp only [exprs, Expr.rebase, show _ = _ from quantified, show _ = _ from same,
      inside.eq, span.eq]

/-! ### Operands -/

theorem index?_always : L.Always (index? sub) (index? sub) L.indexes := by
  refine .eat rfl (.pure rfl) fun t t' _ => ?_
  exact (inner _).at.then fun e e' same => .demand rfl (.pure (congrArg some same))

omit inner in
theorem boundsOf.span {b b' : Bounds Expr} (h : L.boundsOf b b') : L.spans b.span b'.span := by
  obtain ⟨a, lower, upper⟩ := b
  obtain ⟨a', lower', upper'⟩ := b'
  exact congrArg Bounds.span h

omit inner in
theorem anchors.span {a a' : Span} {o o' : Anchor Expr} (h : L.anchors o o')
    (start : L.spans a a') :
    L.spans (anchoredSpan a o) (anchoredSpan a' o') := by
  cases o with
  | anywhere =>
    cases o' with
    | anywhere => exact start
    | «at» e | within b => exact nomatch h
  | «at» e =>
    cases o' with
    | «at» e' => exact start.through (exprs.span (Anchor.at.inj h))
    | anywhere | within b => exact nomatch h
  | within b =>
    cases o' with
    | within b' => exact start.through (boundsOf.span (Anchor.within.inj h))
    | anywhere | «at» e => exact nomatch h

theorem patternExpr_always (k : Sigil) {t t' : Token} (token : L.token t t')
    (sound : t.kind.isSound) :
    L.Always (patternExpr sub k t) (patternExpr sub k t') L.exprs := by
  have ident := token.ident sound
  cases k with
  | identity =>
    refine (anchor_always inner).then fun a a' same => .pure ?_
    have span := same.span token.span
    simp only [exprs, Expr.rebase, ident.eq, show _ = _ from same, span.eq]
  | count =>
    have finish : ∀ o o', Expr.rebaseRange L.left o = Expr.rebaseRange L.right o' →
        L.Always (do return .count (identOf t) o (t.span.through (← Parser.pointHere)))
          (do return .count (identOf t') o' (t'.span.through (← Parser.pointHere))) L.exprs := by
      refine fun o o' same => .pointHere fun stop stop' to_stop => .pure ?_
      have span := token.span.through to_stop
      simp only [exprs, Expr.rebase, ident.eq, same, span.eq]
    refine .eat rfl (finish none none rfl) fun _ _ _ => ?_
    exact Always.at
      ((range_always inner).then fun b b' same => finish (some b) (some b') (congrArg some same))
  | offset | length =>
    refine (index?_always inner).then fun o o' same => .pointHere fun stop stop' to_stop => .pure ?_
    have span := token.span.through to_stop
    simp only [exprs, Expr.rebase, ident.eq, show _ = _ from same, span.eq]

omit inner in
/-- A literal in an expression is taken, and reported if it is an open one. -/
theorem atom_when {t t' : Token} (token : L.token t t') {a : Atom}
    (atom : atomOf? t.kind = some a) :
    L.When (atNext t) (do let _ ← advance; reportOpen t; return .atom a t.span)
      (do let _ ← advance; reportOpen t'; return .atom a t'.span) L.exprs := by
  have same : L.exprs (.atom a t.span) (.atom a t'.span) := congrArg (Expr.atom a) token.span
  unfold atomOf? at atom
  unfold reportOpen
  rw [← token.kind]
  split at atom <;> cases atom
  all_goals
    rename_i kind
    rw [kind]
    first
      | exact (When.read rfl fun _ _ _ => .pure same).restrict fun s start => kind ▸ start.kind
      | exact openLiteral_when token (kind ▸ nofun) (fun _ => rfl) same

theorem primary_always : L.Always (primary sub) (primary sub) L.exprs := by
  refine .peek ?_ fun t t' token => ?_
  · exact (unexpected_always _).at.then fun _ _ _ => .pointHere fun a a' same =>
      .pure (congrArg Expr.error same)
  dsimp only
  rw [← token.kind]
  cases atom : atomOf? t.kind with
  | some a => exact (atom_when token atom).restrict fun s start => start.2
  | none =>
    dsimp only
    split
    · rename_i kind
      refine .readNext (kind ▸ rfl) fun _ _ _ => (integerValue_always token kind).at.then ?_
      rintro n _ rfl
      exact .pure (congrArg (Expr.integer n) token.span)
    · rename_i kind
      exact .readNext (kind ▸ rfl) fun _ _ _ =>
        .pure (congrArg Expr.ident (token.ident (kind ▸ rfl)))
    · rename_i sigil kind
      exact .readNext (kind ▸ rfl) fun _ _ _ =>
        (patternExpr_always inner sigil token (kind ▸ rfl)).at
    · rename_i kind
      refine .readNext (kind ▸ rfl) fun _ _ _ => (inner _).at.then fun e e' same => .demand rfl ?_
      refine .pointHere fun stop stop' to_stop => .pure ?_
      have span := token.span.through to_stop
      simp only [exprs, Expr.rebase, same.eq, span.eq]
    · rename_i kind
      exact .readNext (kind ▸ rfl) fun _ _ _ => (forExpr_always inner token.span).at
    · cases word : quantifierWord? t.kind with
      | some make =>
        obtain ⟨plain, made⟩ := quantifierWord?_plain (L := L) word
        exact .readNext plain fun _ _ _ => (ofExpr_always inner (made _ _ token.span)).at
      | none =>
        refine (unexpected_always _).at.then fun _ _ _ => .pure ?_
        exact congrArg Expr.error (spans.point token.span.start)

/-! ### Chains of links -/

/-- What `linkAhead` finds. -/
def linkOf (s : ParseState) : Option Link :=
  match s.kindAhead? with
  | some (.symbol .dot) => if s.kindBeyond? == some .ident then some .field else none
  | some (.symbol .lbracket) => some .lookup
  | some (.symbol .lparen) => some .call
  | _ => none

omit inner in
theorem run_linkAhead (s : ParseState) : linkAhead.run s = (linkOf s, s) := by
  rw [linkAhead, run_bind, run_peekKind]
  unfold linkOf
  dsimp only
  cases s.kindAhead? with
  | none => rfl
  | some k =>
    cases k with
    | symbol symbol => cases symbol <;> rfl
    | _ => rfl

omit inner in
theorem linkOf_same {s s' : ParseState} (h : L.rel s s') : linkOf s = linkOf s' := by
  rw [linkOf, linkOf, ← kindAhead? h]
  split
  · rename_i dot
    rw [L.beyond h dot rfl]
  all_goals rfl

omit inner in
theorem linkOf_eq_some {s : ParseState} {link : Link} (h : linkOf s = some link) :
    (link = .field ∧ s.kindAhead? = some (.symbol .dot) ∧ s.kindBeyond? = some .ident) ∨
      (link = .lookup ∧ s.kindAhead? = some (.symbol .lbracket)) ∨
      (link = .call ∧ s.kindAhead? = some (.symbol .lparen)) := by
  unfold linkOf at h
  split at h
  · rename_i dot
    split at h
    · rename_i ident
      cases h
      exact .inl ⟨rfl, dot, beq_iff_eq.mp ident⟩
    · cases h
  · rename_i lbracket
    cases h
    exact .inr (.inl ⟨rfl, lbracket⟩)
  · rename_i lparen
    cases h
    exact .inr (.inr ⟨rfl, lparen⟩)
  · cases h

theorem applyLink_when (link : Link) {e e' : Expr} (h : L.exprs e e') :
    L.When (linkOf · = some link) (applyLink sub e link) (applyLink sub e' link) L.exprs := by
  cases link with
  | field =>
    refine (When.readTwo (k := .symbol .dot) (l := .ident) rfl rfl fun _ _ o o' _ same kind =>
      ?_).restrict fun s start => ?_
    · cases same with
      | none => exact .pure h
      | some token =>
        have span := h.span.through token.span
        refine .pure ?_
        simp only [exprs, Expr.rebase, h.eq, (token.ident (kind _ rfl ▸ rfl)).eq, span.eq]
    · rcases linkOf_eq_some start with ⟨_, ahead⟩ | ⟨other, _⟩ | ⟨other, _⟩
      · exact ahead
      all_goals cases other
  | lookup =>
    refine (When.read (k := .symbol .lbracket) rfl fun _ _ _ => ?_).restrict fun s start => ?_
    · refine (inner _).at.then fun index index' same =>
        .demand rfl (.pointHere fun stop stop' to_stop => .pure ?_)
      have span := h.span.through to_stop
      simp only [exprs, Expr.rebase, h.eq, same.eq, span.eq]
    · rcases linkOf_eq_some start with ⟨other, _⟩ | ⟨_, ahead⟩ | ⟨other, _⟩
      · cases other
      · exact ahead
      · cases other
  | call =>
    refine (When.read (k := .symbol .lparen) rfl fun _ _ _ => ?_).restrict fun s start => ?_
    · refine (arguments_always inner).at.then fun es es' same => .demand rfl ?_
      refine .pointHere fun stop stop' to_stop => .pure ?_
      have span := h.span.through to_stop
      simp only [exprs, Expr.rebase, h.eq, show _ = _ from same, span.eq]
    · rcases linkOf_eq_some start with ⟨other, _⟩ | ⟨other, _⟩ | ⟨_, ahead⟩
      · cases other
      · cases other
      · exact ahead

end Layer

/-! ### The levels of an expression -/

section Levels

variable {sub : Level → Parser Expr} (deep : ∀ {s s'}, L.rel s s' → s.depth = s'.depth)
  (inner : ∀ level, L.Always (sub level) (sub level) L.exprs)

include deep inner

theorem linkStep_always (depth : Nat) (e e' : Expr) (h : L.exprs e e') :
    L.Always (linkStep sub depth e) (linkStep sub depth e') (Steps L.exprs) := by
  refine .look Eq run_linkAhead run_linkAhead (fun s s' related _ => linkOf_same related) ?_
  rintro o _ rfl
  cases o with
  | none => exact .pure (.done h)
  | some link =>
    refine .getDepth deep fun spent => ?_
    split
    · exact (setDepth_always _).at.then fun _ _ _ => tooDeep_always.then fun _ _ same =>
        .pure (.done same)
    · refine .getDepth deep fun _ => ?_
      refine When.bind (m := fun _ s => linkOf s = some link) (setDepth_always _).at
        (fun s start => start.2) fun _ _ _ => ?_
      exact (applyLink_when inner link h).then fun _ _ same => .pure (.yield same)

theorem postfixExpr_always : L.Always (postfixExpr sub) (postfixExpr sub) L.exprs := by
  refine (primary_always inner).then fun e e' same => .getDepth deep fun depth => ?_
  have progress := linkStep_progress sub depth
  refine Always.at
    ((Always.iterate progress progress (linkStep_always deep inner depth) same).then ?_)
  exact fun _ _ same => (setDepth_always _).then fun _ _ _ => .pure same

omit deep in
theorem prefixed_always {table : Kind → Option UnaryOp}
    (plain : ∀ k op, table k = some op → k.isPlain)
    (level : Level) {bare : Parser Expr} (h : L.Always bare bare L.exprs) :
    L.Always (prefixed sub table level bare) (prefixed sub table level bare) L.exprs := by
  refine .peek h.at fun t t' token => ?_
  dsimp only
  rw [← token.kind]
  cases found : table t.kind with
  | none => exact h.at
  | some op =>
    refine .readNext (plain _ _ found) fun _ _ _ => (inner _).at.then fun e e' same => .pure ?_
    have span := token.span.through same.span
    simp only [exprs, Expr.rebase, same.eq, span.eq]

theorem signExpr_always : L.Always (signExpr sub) (signExpr sub) L.exprs := by
  refine prefixed_always inner (fun k op found => ?_) .sign (postfixExpr_always deep inner)
  unfold signOperator? at found
  split at found <;> first | rfl | cases found

theorem productExpr_always : L.Always (productExpr sub) (productExpr sub) L.exprs :=
  chain_always deep productOperatorAhead_same (signExpr_always deep inner)
    productOperatorAhead_peeks

omit deep inner in
/-- No table has an operator that a construct may not take. -/
theorem tables_plain {table : Kind → Option BinaryOp}
    (member : table ∈ [orOperator, andOperator, comparisonOperator, bitOrOperator, bitXorOperator,
      bitAndOperator,
      shiftOperator, sumOperator]) (k : Kind) (op : BinaryOp) (found : table k = some op) :
        k.isPlain := by
  simp only [List.mem_cons, List.not_mem_nil, or_false] at member
  rcases member with rfl | rfl | rfl | rfl | rfl | rfl | rfl | rfl
  · unfold orOperator at found
    split at found <;> first | rfl | cases found
  · unfold andOperator at found
    split at found <;> first | rfl | cases found
  · unfold comparisonOperator at found
    split at found <;> first | rfl | cases found
  · unfold bitOrOperator at found
    split at found <;> first | rfl | cases found
  · unfold bitXorOperator at found
    split at found <;> first | rfl | cases found
  · unfold bitAndOperator at found
    split at found <;> first | rfl | cases found
  · unfold shiftOperator at found
    split at found <;> first | rfl | cases found
  · unfold sumOperator at found
    split at found <;> first | rfl | cases found

omit inner in
/-- One level of binary operators above another. -/
theorem tableChain_always {table : Kind → Option BinaryOp}
    (member : table ∈ [orOperator, andOperator, comparisonOperator, bitOrOperator, bitXorOperator,
      bitAndOperator,
      shiftOperator, sumOperator]) {operand : Parser Expr} (h : L.Always operand operand L.exprs) :
    L.Always (chain (operatorOf table) operand) (chain (operatorOf table) operand) L.exprs :=
  chain_always deep (operatorOf_same (tables_plain member)) h (operatorOf_peeks table)

theorem bitOrExpr_always : L.Always (bitOrExpr sub) (bitOrExpr sub) L.exprs := by
  have sum : L.Always (sumExpr sub) (sumExpr sub) L.exprs :=
    tableChain_always deep (by simp only [List.mem_cons, true_or, or_true])
      (productExpr_always deep inner)
  have shift : L.Always (shiftExpr sub) (shiftExpr sub) L.exprs :=
    tableChain_always deep (by simp only [List.mem_cons, true_or, or_true]) sum
  have bitAnd : L.Always (bitAndExpr sub) (bitAndExpr sub) L.exprs :=
    tableChain_always deep (by simp only [List.mem_cons, true_or, or_true]) shift
  have bitXor : L.Always (bitXorExpr sub) (bitXorExpr sub) L.exprs :=
    tableChain_always deep (by simp only [List.mem_cons, true_or, or_true]) bitAnd
  exact tableChain_always deep (by simp only [List.mem_cons, true_or, or_true]) bitXor

theorem comparisonExpr_always : L.Always (comparisonExpr sub) (comparisonExpr sub) L.exprs := by
  refine (bitOrExpr_always deep inner).then fun lhs lhs' same => .atKind _ ?_ ?_
  · exact (ofExpr_always inner (q := .count lhs) (r := .count lhs')
      (congrArg Quantifier.count same)).at
  refine .look Eq run_atPercentOf run_atPercentOf (fun s s' related _ => percentOf_same related) ?_
  rintro b _ rfl
  cases b with
  | true =>
    refine (When.read (k := .symbol .percent) rfl fun _ _ _ => ?_).restrict fun s start => ?_
    · exact (ofExpr_always inner (q := .percentage lhs) (r := .percentage lhs')
        (congrArg Quantifier.percentage same)).at
    · exact beq_iff_eq.mp (Bool.and_eq_true_iff.mp start.2).1
  | false =>
    have plain : ∀ k op, comparisonOperator k = some op → k.isPlain :=
      tables_plain (by simp only [List.mem_cons, true_or, or_true])
    exact Always.at (chainFrom_always deep (operatorOf_same plain) (bitOrExpr_always deep inner)
      (operatorOf_peeks _) same)

theorem negationExpr_always : L.Always (negationExpr sub) (negationExpr sub) L.exprs := by
  refine prefixed_always inner (fun k op found => ?_) .negation (comparisonExpr_always deep inner)
  unfold negationOperator? at found
  split at found <;> first | rfl | cases found

theorem orExpr_always : L.Always (orExpr sub) (orExpr sub) L.exprs := by
  have and : L.Always (andExpr sub) (andExpr sub) L.exprs :=
    tableChain_always deep (by simp only [List.mem_cons, true_or, or_true])
      (negationExpr_always deep inner)
  exact tableChain_always deep (by simp only [List.mem_cons, true_or]) and

theorem layer_always (level : Level) : L.Always (layer sub level) (layer sub level) L.exprs := by
  cases level with
  | expression => exact orExpr_always deep inner
  | negation => exact negationExpr_always deep inner
  | bitwise => exact bitOrExpr_always deep inner
  | sign => exact signExpr_always deep inner

omit inner in
theorem nested_always (budget : Nat) (level : Level) :
    L.Always (nested budget level) (nested budget level) L.exprs := by
  induction budget generalizing level with
  | zero => exact tooDeep_always
  | succ budget ih =>
    refine .getDepth deep fun spent => ?_
    split
    · exact tooDeep_always.at
    refine .getDepth deep fun _ => (setDepth_always _).at.then fun _ _ _ => ?_
    refine (layer_always deep ih level).then fun e e' same => .getDepth deep fun _ => ?_
    exact (setDepth_always _).at.then fun _ _ _ => .pure same

end Levels

/-! ### The depth of nesting -/

/-- The depth of nesting that an act leaves behind. -/
def depthAfter : Act → Nat → Nat
  | .depth n, _ => n
  | _, n => n

theorem apply_depth (a : Act) (s : ParseState) : (a.apply s).depth = depthAfter a s.depth := by
  cases a with
  | report | panic | calm | depth => rfl
  | read => exact s.advanced_depth .normal
  | enter mode => exact s.advanced_depth mode

theorem depthAfter_alike {exact : Prop} {left right : View} {a a' : Act}
    (h : a.Alike exact left right a') :
    depthAfter a = depthAfter a' := by
  cases h <;> rfl

/-- The same lockstep where the depth of nesting has to agree, too. -/
def withDepth (L : Lockstep) : Lockstep where
  rel s s' := L.rel s s' ∧ s.depth = s'.depth
  parted := L.parted
  exact := L.exact
  left := L.left
  right := L.right
  ends := L.ends
  exact_keeps := L.exact_keeps
  keeps := L.keeps
  unnamed := L.unnamed
  parted_later := L.parted_later
  flawless e h := L.flawless e h.1
  calm h := L.calm h.1
  panicking h := L.panicking h.1
  here h := L.here h.1
  textStop h := L.textStop h.1
  next h := L.next h.1
  beyond h := L.beyond h.1
  beyondParen h := L.beyondParen h.1
  joined h := L.joined h.1
  adjacentDots h := L.adjacentDots h.1
  adjacentAsterisk h := L.adjacentAsterisk h.1
  act {s s' a a'} h same allowed := by
    refine (L.act h.1 same allowed).imp_right fun rel => ⟨rel, ?_⟩
    rw [apply_depth, apply_depth, h.2, depthAfter_alike same]

/-- A whole expression starts at no depth, whatever the depth was before. -/
theorem expression_always : L.Always expression expression L.exprs := by
  intro s s' related _ _
  refine (setDepth_always 0 s s' related trivial trivial).bind fun _ rel => ?_
  have inner := nested_always (L := L.withDepth) (fun h => h.2) maxNesting .expression _ _
    ⟨rel, rfl⟩ trivial trivial
  exact inner.imp_right fun ⟨same, rel⟩ => ⟨same, rel.1⟩

end Lockstep

end RuleDesk
