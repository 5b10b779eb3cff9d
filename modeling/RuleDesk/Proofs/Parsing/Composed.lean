import RuleDesk.Proofs.Parsing.DeepReports

namespace RuleDesk

/-- The text and the depth of nesting of a state, with all else forgotten. -/
def ParseState.bare (s : ParseState) : ParseState := ⟨s.input, false, s.depth, [], []⟩

namespace Parser

/-- A look at the next token, or at the one after it where the next one is of a kind that
decides nothing by itself. In a `plain` part, which is far from any hex pattern, this is
so at a parenthesis too. -/
inductive Shows (plain : Bool) (s : ParseState) : Call → Prop
  | next : Shows plain s ⟨.peek 0, s.next?⟩
  | second {k : Kind} (ahead : s.kindAhead? = some k)
    (undecided : k.looksBeyond ∨ plain = true ∧ k = .symbol .lparen) :
    Shows plain s ⟨.peek 1, s.second?⟩

/-- In a state a part does nothing but look at the tokens ahead. -/
structure Glances (plain : Bool) (p : Parser α) (s : ParseState) : Prop where
  state : (p.run s).2 = s
  shows : ∀ call ∈ p.calls s, Shows plain s call

namespace Glances

variable {plain : Bool} {s : ParseState} {p : Parser α} {f : α → Parser β}

theorem silent (state : (p.run s).2 = s) (calls : p.calls s = []) : Glances plain p s :=
  ⟨state, fun _ member => nomatch calls ▸ member⟩

theorem pure (a : α) : Glances plain (pure a : Parser α) s := .silent rfl rfl

theorem bind (h : Glances plain p s) (rest : Glances plain (f (p.run s).1) s) :
    Glances plain (p >>= f) s := by
  refine ⟨?_, fun call member => ?_⟩
  · rw [run_bind, h.state, rest.state]
  · rw [calls_bind, h.state] at member
    exact (List.mem_append.mp member).elim (h.shows call) (rest.shows call)

theorem ite {c : Prop} [Decidable c] {p q : Parser α} (h : c → Glances plain p s)
    (h' : ¬ c → Glances plain q s) :
    Glances plain (if c then p else q) s := by
  split
  · exact h ‹_›
  · exact h' ‹_›

theorem peek : Glances plain peek s := ⟨rfl, fun _ member => List.mem_singleton.mp member ▸ .next⟩

theorem peekKind : Glances plain peekKind s := peek.bind (.pure _)

theorem atKind (k : Kind) : Glances plain (atKind k) s := peekKind.bind (.pure _)

theorem peekSecond {k : Kind} (ahead : s.kindAhead? = some k)
    (undecided : k.looksBeyond ∨ plain = true ∧ k = .symbol .lparen) :
    Glances plain peekSecond s :=
  ⟨rfl, fun _ member => List.mem_singleton.mp member ▸ .second ahead undecided⟩

theorem peekSecondKind {k : Kind} (ahead : s.kindAhead? = some k)
    (undecided : k.looksBeyond ∨ plain = true ∧ k = .symbol .lparen) :
    Glances plain peekSecondKind s := (peekSecond ahead undecided).bind (.pure _)

theorem lastStop : Glances plain lastStop s := .silent rfl rfl

theorem spanAhead : Glances plain spanAhead s := by
  refine peek.bind ?_
  split
  · exact .pure _
  · exact .silent rfl rfl

theorem nextAdjacent (k : Kind) : Glances plain (nextAdjacent k) s := by
  refine peek.bind ?_
  split
  · exact lastStop.bind (.pure _)
  · exact .pure _

theorem atSyncPoint : Glances plain atSyncPoint s := peekKind.bind (.pure _)

theorem atTopLevelItem : Glances plain atTopLevelItem s := by
  refine peekKind.bind ?_
  split
  · rename_i w ahead
    refine .ite (fun _ => .pure _) fun _ => .ite (fun modifier => ?_) fun _ => .pure _
    have undecided : (Kind.keyword w).looksBeyond := by
      rcases Bool.or_eq_true_iff.mp modifier with same | same <;> rw [beq_iff_eq.mp same] <;> rfl
    refine (peekSecondKind ahead (.inl undecided)).bind ?_
    split <;> exact .pure _
  · exact .pure _

theorem atFalseTopLevelModifier : Glances plain atFalseTopLevelModifier s :=
  peekKind.bind (.ite (fun _ => atTopLevelItem.bind (.pure _)) fun _ => .pure _)

theorem atArgumentsEnd : Glances plain atArgumentsEnd s :=
  (atKind _).bind (.ite (fun _ => .pure _) fun _ => atSyncPoint)

theorem isBareModifier (k : Kind) : Glances plain (isBareModifier k) s :=
  .ite (fun _ => atTopLevelItem.bind (.pure _)) fun _ => .pure _

theorem declaresMisnamed {k : Kind} (ahead : s.kindAhead? = some k) :
    Glances plain (declaresMisnamed k) s :=
  .ite (fun misnamed => (peekSecondKind ahead (.inl (Lockstep.misnamed_plain misnamed).2)).bind
    (.pure _)) fun _ => .pure _

theorem wildcardAhead : Glances plain wildcardAhead s := by
  refine peek.bind ?_
  split
  · rename_i t next
    refine .ite (fun name => ?_) fun _ => .pure _
    have ahead := ParseState.kindAhead?_of_next next
    rw [beq_iff_eq.mp name] at ahead
    refine (peekSecond ahead (.inl rfl)).bind ?_
    split <;> exact .pure _
  · exact .pure _

theorem linkAhead : Glances plain linkAhead s := by
  refine peekKind.bind ?_
  split
  · rename_i ahead
    exact (peekSecondKind ahead (.inl rfl)).bind (.pure _)
  · exact .pure _
  · exact .pure _
  · exact .pure _

theorem atPercentOf : Glances plain atPercentOf s := by
  refine (atKind _).bind (.ite (fun ahead => ?_) fun _ => .pure _)
  exact (peekSecondKind (beq_iff_eq.mp ahead) (.inl rfl)).bind (.pure _)

theorem productOperatorAhead : Glances plain productOperatorAhead s :=
  atPercentOf.bind (.ite (fun _ => .pure _) fun _ => peekKind.bind (.pure _))

theorem atTuple : Glances true atTuple s := by
  refine (atKind _).bind (.ite (fun ahead => ?_) fun _ => .pure _)
  exact (peekSecondKind (beq_iff_eq.mp ahead) (.inr ⟨rfl, rfl⟩)).bind (.pure _)

theorem stopAhead : Glances plain stopAhead s := by
  refine peek.bind ?_
  split
  · exact .pure _
  · exact .silent rfl rfl

end Glances

/-! ### Putting parts together -/

/-- Parts of the parser that are put together from a few steps, for states where the
next token is of the kind in `front`, if there is one. They look at the text and at the
depth of nesting only, they start panic mode with an error, and they never end it. A mode
of the tokenizer is gone into at the bracket that opens it, and not in a `plain` part. -/
inductive Composed : Bool → Option Kind → {α : Type} → Parser α → Prop
  | pure {plain : Bool} {α : Type} (a : α) : Composed plain none (pure a : Parser α)
  | bind {plain : Bool} {front : Option Kind} {α β : Type} {p : Parser α} {f : α → Parser β}
    (first : Composed plain front p)
    (rest : ∀ a, Composed plain none (f a)) : Composed plain front (p >>= f)
  | facing {plain : Bool} {α : Type} {f : Option Token → Parser α}
    (nothing : Composed plain none (f none))
    (token : ∀ t, Composed plain (some t.kind) (f (some t))) : Composed plain none (peek >>= f)
  | any {plain : Bool} {k : Kind} {α : Type} {p : Parser α} (h : Composed plain none p) :
      Composed plain (some k) p
  | sees {plain : Bool} {front : Option Kind} {α : Type} {p : Parser α} (g : ParseState → α)
    (run : ∀ s, p.run s = (g s.bare, s))
    (glances : ∀ s, (∀ k ∈ front, s.kindAhead? = some k) → Glances plain p s) :
    Composed plain front p
  | advance {plain : Bool} : Composed plain none advance
  | opens {k : Kind} (mode : Mode) (opener : mode.opener? = some k) :
      Composed false (some k) (advanceInto mode)
  | report {plain : Bool} (fault : SyntaxFault) (span : Span) :
      Composed plain none (report fault span)
  | unexpected {plain : Bool} (expected : Expectation) : Composed plain none (unexpected expected)
  | setDepth {plain : Bool} (n : Nat) : Composed plain none (setDepth n)
  | iterate {plain : Bool} {α : Type} {step : α → Parser (ForInStep α)}
    (steps : ∀ a, Composed plain none (step a)) (a : α) :
    Composed plain none (iterate step a)
  | tooDeep {plain : Bool} : Composed plain none tooDeep

namespace Composed

variable {plain : Bool} {front : Option Kind}

theorem ite {α : Type} {c : Prop} [Decidable c] {p q : Parser α} (h : Composed plain front p)
    (h' : Composed plain front q) :
    Composed plain front (if c then p else q) := by
  split
  · exact h
  · exact h'

/-! ### Steps -/

/-- A look ahead that needs to know nothing of the next token. -/
theorem glance {α : Type} {p : Parser α} (g : ParseState → α) (run : ∀ s, p.run s = (g s.bare, s))
    (glances : ∀ s, Glances plain p s) : Composed plain none p := .sees g run fun s _ => glances s

theorem peek : Composed plain none Parser.peek := .glance ParseState.next? run_peek fun _ => .peek

theorem peekKind : Composed plain none peekKind :=
  .glance ParseState.kindAhead? run_peekKind fun _ => .peekKind

theorem atKind (k : Kind) : Composed plain none (atKind k) :=
  .glance (·.kindAhead? == some k) (run_atKind · k) fun _ => .atKind k

theorem lastStop : Composed plain none lastStop :=
  .glance (·.input.here.offset) run_lastStop fun _ => .lastStop

theorem pointHere : Composed plain none pointHere :=
  .glance (.point ·.input.here.offset) run_pointHere fun _ => .silent rfl rfl

theorem getDepth : Composed plain none getDepth :=
  .glance ParseState.depth run_getDepth fun _ => .silent rfl rfl

theorem spanAhead : Composed plain none spanAhead :=
  .glance (fun s => (s.next?.map (·.span)).getD (.point s.input.here.offset)) run_spanAhead fun _ =>
    .spanAhead

theorem atSyncPoint : Composed plain none atSyncPoint :=
  .glance (·.kindAhead?.all isSyncKind) run_atSyncPoint fun _ => .atSyncPoint

theorem nextAdjacent (k : Kind) : Composed plain none (nextAdjacent k) :=
  .glance (fun s => s.kindAhead? == some k && s.adjacent) (run_nextAdjacent · k) fun _ =>
    .nextAdjacent k

theorem operatorOf (table : Kind → Option BinaryOp) : Composed plain none (operatorOf table) :=
  peekKind.bind fun _ => .pure _

theorem eat (k : Kind) : Composed plain none (eat k) :=
  (atKind k).bind fun _ => .ite advance (.pure _)

theorem expect (k : Kind) : Composed plain none (expect k) := by
  refine (eat k).bind fun o => ?_
  cases o with
  | some t => exact .pure _
  | none => exact (unexpected _).bind fun _ => .pure _

theorem skipToSyncPoint : Composed plain none skipToSyncPoint :=
  .iterate (fun _ => atSyncPoint.bind fun _ => .ite (.pure _) (advance.bind fun _ => .pure _)) ()

/-! ### Expressions -/

theorem integerValue (t : Token) : Composed plain none (integerValue t) := by
  unfold Parser.integerValue
  split
  · exact .pure _
  · exact (report _ _).bind fun _ => .pure _

theorem reportOpen (t : Token) : Composed plain none (reportOpen t) := by
  unfold Parser.reportOpen
  split
  · exact report _ _
  · exact report _ _
  · exact .pure _

theorem rangeDots : Composed plain none rangeDots := by
  refine (eat _).bind fun o => ?_
  cases o with
  | none => exact unexpected _
  | some _ =>
    exact (nextAdjacent _).bind fun _ => .ite (advance.bind fun _ => .pure _) (unexpected _)

theorem setItemStep (items : List SetItem) : Composed plain none (setItemStep items) := by
  refine (expect _).bind fun o => ?_
  cases o with
  | none => exact .pure _
  | some t =>
    have finish : ∀ wildcard : Bool, Composed plain none (do
        let items := items ++ [⟨⟨t.start, ← Parser.lastStop⟩, identOf t, wildcard⟩]
        if (← Parser.eat (.symbol .comma)).isSome then return .yield items
        return ForInStep.done items) := fun _ => lastStop.bind fun _ => (eat _).bind fun _ =>
          .ite (.pure _) (.pure _)
    exact (nextAdjacent _).bind fun _ => .ite (advance.bind fun _ => finish _) (finish _)

theorem patternSet : Composed true none patternSet := by
  refine (eat _).bind fun o => ?_
  cases o with
  | some t => exact .pure _
  | none =>
    refine (expect _).bind fun o => ?_
    cases o with
    | none => exact .pure _
    | some _ => exact (iterate setItemStep []).bind fun _ => (expect _).bind fun _ => .pure _

theorem variableStep (vars : List Ident) : Composed true none (variableStep vars) := by
  refine (expect _).bind fun o => ?_
  cases o with
  | none => exact .pure _
  | some t => exact (eat _).bind fun _ => .ite (.pure _) (.pure _)

theorem chainStep {operator : Parser (Option BinaryOp)} {operand : Parser Expr}
    (h : Composed true none operator) (h' : Composed true none operand)
    (lhs : Expr × Bool) : Composed true none (chainStep operator operand lhs) := by
  obtain ⟨lhs, chained⟩ := lhs
  refine h.bind fun o => ?_
  cases o with
  | none => exact .pure _
  | some op =>
    refine advance.bind fun _ => h'.bind fun rhs => ?_
    split
    · exact .pure _
    refine .ite (getDepth.bind fun _ => .ite (tooDeep.bind fun _ => .pure _) ?_) (.pure _)
    exact getDepth.bind fun _ => (setDepth _).bind fun _ => .pure _

theorem chainFrom {operator : Parser (Option BinaryOp)} {operand : Parser Expr}
    (h : Composed true none operator) (h' : Composed true none operand)
    (lhs : Expr) : Composed true none (chainFrom lhs operator operand) :=
  (iterate (chainStep h h') _).bind fun _ => .pure _

theorem chain {operator : Parser (Option BinaryOp)} {operand : Parser Expr}
    (h : Composed true none operator) (h' : Composed true none operand) :
    Composed true none (chain operator operand) := h'.bind fun lhs => chainFrom h h' lhs

theorem prefixed {sub : Level → Parser Expr} (inner : ∀ level, Composed true none (sub level))
    (table : Kind → Option UnaryOp) (level : Level)
    {bare : Parser Expr} (h : Composed true none bare) :
    Composed true none (prefixed sub table level bare) := by
  refine peek.bind fun o => ?_
  cases o with
  | none => exact h
  | some t =>
    dsimp only
    split
    · exact h
    · exact advance.bind fun _ => (inner _).bind fun _ => .pure _

section Layer

variable {sub : Level → Parser Expr} (inner : ∀ level, Composed true none (sub level))

include inner

theorem range : Composed true none (range sub) := by
  refine spanAhead.bind fun _ => (expect _).bind fun _ => (inner _).bind fun _ =>
    rangeDots.bind fun _ => ?_
  exact (inner _).bind fun _ => (expect _).bind fun _ => pointHere.bind fun _ => .pure _

theorem anchor : Composed true none (anchor sub) := by
  refine (eat _).bind fun _ => .ite ((inner _).bind fun _ => .pure _) ?_
  exact (eat _).bind fun _ => .ite ((range inner).bind fun _ => .pure _) (.pure _)

omit inner in
theorem list {item : Parser Expr} (h : Composed true none item) (items : List Expr) :
    Composed true none (Parser.iterate (listStep item) items) :=
  iterate (fun _ => h.bind fun _ => (eat _).bind fun _ => .ite (.pure _) (.pure _)) items

theorem arguments : Composed true none (arguments sub) :=
  (atKind _).bind fun _ => .ite (.pure _) (list (inner _) [])

theorem ofItem : Composed true none (ofItem sub) := by
  refine (glance Lockstep.wildcardOf Lockstep.run_wildcardAhead fun _ => .wildcardAhead).bind
    fun o => ?_
  cases o with
  | some t => exact advance.bind fun _ => advance.bind fun _ => .pure _
  | none => exact inner _

theorem ofItems : Composed true none (ofItems sub) := by
  refine (glance (fun s =>
    s.kindAhead? == some (.symbol .lparen) && s.kindBeyond? != some (.sigil .identity)) run_atTuple
    fun _ => .atTuple).bind fun _ => .ite ?_ (patternSet.bind fun _ => .pure _)
  exact advance.bind fun _ => (list (ofItem inner) []).bind fun _ =>
    (expect _).bind fun _ => .pure _

theorem ofExpr (q : Quantifier Expr) : Composed true none (ofExpr sub q) := by
  refine (expect _).bind fun _ => (ofItems inner).bind fun _ => (anchor inner).bind fun _ => ?_
  exact pointHere.bind fun _ => .pure _

theorem quantifier : Composed true none (quantifier sub) := by
  refine peek.bind fun o => ?_
  cases o with
  | none => exact (unexpected _).bind fun _ => pointHere.bind fun _ => .pure _
  | some t =>
    dsimp only
    split
    · exact advance.bind fun _ => .pure _
    · exact (inner _).bind fun _ => (eat _).bind fun _ => .ite (.pure _) (.pure _)

theorem loopBody : Composed true none (loopBody sub) := by
  refine (expect _).bind fun _ => spanAhead.bind fun _ => (expect _).bind fun _ =>
    (inner _).bind fun _ => ?_
  exact (expect _).bind fun _ => pointHere.bind fun _ => .pure _

theorem iterable : Composed true none (iterable sub) := by
  refine (eat _).bind fun o => ?_
  cases o with
  | none => exact (inner _).bind fun _ => .pure _
  | some t =>
    have finish : ∀ items : List Expr, Composed true none
      (do let _ ← Parser.expect (.symbol .rparen); return Iterable.tuple items) :=
      fun _ => (expect _).bind fun _ => .pure _
    refine (inner _).bind fun first => (atKind _).bind fun _ => .ite ?_ ?_
    · exact rangeDots.bind fun _ => (inner _).bind fun _ => (expect _).bind fun _ =>
        pointHere.bind fun _ => .pure _
    · exact (eat _).bind fun _ =>
        .ite ((list (inner _) _).bind finish) ((Composed.pure _).bind finish)

theorem forExpr (start : Span) : Composed true none (forExpr sub start) := by
  refine (quantifier inner).bind fun _ => (eat _).bind fun _ => .ite ?_ ?_
  · exact patternSet.bind fun _ => (loopBody inner).bind fun _ => pointHere.bind fun _ => .pure _
  · refine (iterate variableStep []).bind fun _ => (expect _).bind fun _ =>
      (iterable inner).bind fun _ => ?_
    exact (loopBody inner).bind fun _ => pointHere.bind fun _ => .pure _

theorem index? : Composed true none (index? sub) := by
  refine (eat _).bind fun o => ?_
  cases o with
  | none => exact .pure _
  | some _ => exact (inner _).bind fun _ => (expect _).bind fun _ => .pure _

theorem patternExpr (s : Sigil) (t : Token) : Composed true none (patternExpr sub s t) := by
  cases s with
  | identity => exact (anchor inner).bind fun _ => .pure _
  | count =>
    have finish : ∀ o : Option (Bounds Expr), Composed true none
      (do return Expr.count (identOf t) o (t.span.through (← Parser.pointHere))) :=
      fun _ => pointHere.bind fun _ => .pure _
    refine (eat _).bind fun o => ?_
    cases o with
    | none => exact (Composed.pure _).bind finish
    | some _ => exact (range inner).bind fun _ => (Composed.pure _).bind finish
  | offset | length => exact (index? inner).bind fun _ => pointHere.bind fun _ => .pure _

theorem primary : Composed true none (primary sub) := by
  refine peek.bind fun o => ?_
  cases o with
  | none => exact (unexpected _).bind fun _ => pointHere.bind fun _ => .pure _
  | some t =>
    dsimp only
    split
    · exact advance.bind fun _ => (reportOpen t).bind fun _ => .pure _
    split
    · exact advance.bind fun _ => (integerValue t).bind fun _ => .pure _
    · exact advance.bind fun _ => .pure _
    · exact advance.bind fun _ => patternExpr inner _ t
    · exact advance.bind fun _ => (inner _).bind fun _ => (expect _).bind fun _ =>
        pointHere.bind fun _ => .pure _
    · exact advance.bind fun _ => forExpr inner _
    · split
      · exact advance.bind fun _ => ofExpr inner _
      · exact (unexpected _).bind fun _ => .pure _

theorem applyLink (e : Expr) (link : Link) : Composed true none (applyLink sub e link) := by
  cases link with
  | field =>
    refine advance.bind fun _ => advance.bind fun o => ?_
    cases o with
    | none => exact .pure _
    | some t => exact .pure _
  | lookup =>
    exact advance.bind fun _ => (inner _).bind fun _ => (expect _).bind fun _ =>
      pointHere.bind fun _ => .pure _
  | call =>
    exact advance.bind fun _ => (arguments inner).bind fun _ => (expect _).bind fun _ =>
      pointHere.bind fun _ => .pure _

theorem linkStep (depth : Nat) (e : Expr) : Composed true none (linkStep sub depth e) := by
  refine (glance Lockstep.linkOf Lockstep.run_linkAhead fun _ => .linkAhead).bind fun o => ?_
  cases o with
  | none => exact .pure _
  | some link =>
    refine getDepth.bind fun _ => .ite ((setDepth _).bind fun _ => tooDeep.bind fun _ => .pure _) ?_
    exact getDepth.bind fun _ => (setDepth _).bind fun _ =>
      (applyLink inner e link).bind fun _ => .pure _

theorem postfixExpr : Composed true none (postfixExpr sub) := by
  refine (primary inner).bind fun e => getDepth.bind fun depth =>
    (iterate (linkStep inner depth) e).bind fun _ => ?_
  exact (setDepth _).bind fun _ => .pure _

theorem signExpr : Composed true none (signExpr sub) := prefixed inner _ _ (postfixExpr inner)

theorem bitOrExpr : Composed true none (bitOrExpr sub) := by
  have product := chain (glance productAhead run_productOperatorAhead fun _ =>
    .productOperatorAhead) (signExpr inner)
  have shift := chain (operatorOf shiftOperator) (chain (operatorOf sumOperator) product)
  exact chain (operatorOf bitOrOperator)
    (chain (operatorOf bitXorOperator) (chain (operatorOf bitAndOperator) shift))

theorem comparisonExpr : Composed true none (comparisonExpr sub) := by
  refine (bitOrExpr inner).bind fun lhs => (atKind _).bind fun _ => .ite (ofExpr inner _) ?_
  refine (glance percentOf run_atPercentOf fun _ => .atPercentOf).bind fun _ =>
    .ite (advance.bind fun _ => ofExpr inner _) ?_
  exact chainFrom (operatorOf comparisonOperator) (bitOrExpr inner) lhs

theorem negationExpr : Composed true none (negationExpr sub) :=
  prefixed inner _ _ (comparisonExpr inner)

theorem layer (level : Level) : Composed true none (layer sub level) := by
  cases level with
  | expression =>
    exact chain (operatorOf orOperator) (chain (operatorOf andOperator) (negationExpr inner))
  | negation => exact negationExpr inner
  | bitwise => exact bitOrExpr inner
  | sign => exact signExpr inner

end Layer

theorem nested (budget : Nat) (level : Level) : Composed true none (nested budget level) := by
  induction budget generalizing level with
  | zero => exact tooDeep
  | succ budget ih =>
    refine getDepth.bind fun _ =>
      .ite tooDeep (getDepth.bind fun _ => (setDepth _).bind fun _ => ?_)
    exact (layer ih level).bind fun _ => getDepth.bind fun _ => (setDepth _).bind fun _ => .pure _

theorem expression : Composed true none expression :=
  (setDepth 0).bind fun _ => nested maxNesting .expression

/-! ### Sections -/

theorem negativeMeta : Composed plain none negativeMeta := by
  refine peek.bind fun o => ?_
  cases o with
  | none => exact (unexpected _).bind fun _ => .pure _
  | some t =>
    dsimp only
    split
    · exact advance.bind fun _ => (integerValue t).bind fun _ => .pure _
    · exact advance.bind fun _ => .pure _
    · exact (unexpected _).bind fun _ => .pure _

theorem metaValue : Composed plain none metaValue := by
  refine peek.bind fun o => ?_
  cases o with
  | none => exact (unexpected _).bind fun _ => .pure _
  | some t =>
    dsimp only
    split
    · exact advance.bind fun _ => .pure _
    · exact advance.bind fun _ => .pure _
    · exact advance.bind fun _ => .pure _
    · exact (report _ _).bind fun _ => advance.bind fun _ => .pure _
    · exact advance.bind fun _ => .pure _
    · exact (integerValue t).bind fun _ => advance.bind fun _ => .pure _
    · exact advance.bind fun _ => negativeMeta
    · exact (unexpected _).bind fun _ => .pure _

theorem metaStep (entries : List MetaEntry) : Composed plain none (metaStep entries) := by
  refine (eat _).bind fun o => ?_
  cases o with
  | none => exact .pure _
  | some t =>
    refine (expect _).bind fun o => ?_
    cases o with
    | none => exact .pure _
    | some _ =>
      refine metaValue.bind fun o => ?_
      cases o with
      | none => exact .pure _
      | some value => exact pointHere.bind fun _ => .pure _

theorem hexJump : Composed plain none hexJump := by
  have close : Composed plain none (do let _ ← Parser.expect (.symbol .rbracket)) :=
    (expect _).bind fun _ => .pure _
  exact (eat _).bind fun _ => (eat _).bind fun _ => .ite ((eat _).bind fun _ => close) close

theorem hexStep (lbrace : Span) (progress : HexProgress) :
    Composed false none (hexStep lbrace progress) := by
  cases progress with
  | ended stop => exact .pure _
  | within parens =>
    have unbalanced : Composed false none (do
        Parser.report .unbalancedBraces lbrace
        return ForInStep.done (HexProgress.ended (← Parser.lastStop))) :=
      (report _ _).bind fun _ => lastStop.bind fun _ => .pure _
    refine .facing unbalanced fun t => ?_
    have bracket (kind : t.kind = .symbol .lbracket) : Composed false (some t.kind)
        (do
          let _ ← Parser.advanceInto .jump
          Parser.hexJump
          return ForInStep.yield (HexProgress.within parens)) :=
      (opens .jump (kind ▸ rfl)).bind fun _ => hexJump.bind fun _ => .pure _
    dsimp only
    split
    · exact .any (advance.bind fun _ => .pure _)
    split
    · exact bracket ‹_›
    refine .any <| .ite (advance.bind fun _ => .pure _) <| .ite (advance.bind fun _ => .pure _) <|
      .ite (advance.bind fun _ => .pure _) <| .ite (advance.bind fun _ => .pure _) ?_
    refine atSyncPoint.bind fun _ => .ite unbalanced ?_
    refine (unexpected _).bind fun _ => skipToSyncPoint.bind fun _ => (eat _).bind fun o => ?_
    cases o with
    | some rbrace => exact .pure _
    | none => exact lastStop.bind fun _ => .pure _

theorem hexPattern (lbrace : Span) : Composed false none (hexPattern lbrace) := by
  refine (iterate (hexStep lbrace) _).bind fun progress => ?_
  cases progress with
  | ended stop => exact .pure _
  | within _ => exact lastStop

theorem patternValue : Composed false none patternValue := by
  refine .facing ((unexpected _).bind fun _ => .pure _) fun t => ?_
  dsimp only
  split
  · exact .any (advance.bind fun _ => .pure _)
  · exact .any (advance.bind fun _ => .pure _)
  · exact .any (advance.bind fun _ => (report _ _).bind fun _ => .pure _)
  · exact .any (advance.bind fun _ => (report _ _).bind fun _ => .pure _)
  · rename_i kind
    exact (opens .hex (kind ▸ rfl)).bind fun _ => (hexPattern _).bind fun _ => .pure _
  · exact .any ((unexpected _).bind fun _ => .pure _)

theorem skipArguments : Composed plain none skipArguments := by
  have step : ∀ u, Composed plain none (argumentStep u) := fun _ =>
    (glance (fun s => s.kindAhead? == some (.symbol .rparen) || s.kindAhead?.all isSyncKind)
      run_atArgumentsEnd
      fun _ => .atArgumentsEnd).bind fun _ => .ite (.pure _) (advance.bind fun _ => .pure _)
  exact (eat _).bind fun _ =>
    .ite ((iterate step ()).bind fun _ => (expect _).bind fun _ => .pure _) (.pure _)

theorem modifiers : Composed plain none modifiers := by
  refine iterate (fun known => peek.bind fun o => ?_) []
  cases o with
  | none => exact .pure _
  | some t =>
    have keep : Composed plain none
      (do return ForInStep.yield (known ++ [⟨⟨t.start, ← Parser.lastStop⟩, t.name⟩])) :=
      lastStop.bind fun _ => .pure _
    refine (glance (fun s => isPlainModifier t.kind ||
      (t.kind == .keyword .kwPrivate && !startsItem s.kindAhead? s.kindBeyond?))
      (run_isBareModifier · _) fun _ => .isBareModifier _).bind fun _ =>
        .ite (advance.bind fun _ => keep) (.ite ?_ (.pure _))
    exact advance.bind fun _ => skipArguments.bind fun _ => keep

theorem keepPattern (patterns : List Pattern) (p : Pattern) :
    Composed plain none (keepPattern patterns p) := by
  refine .ite (.pure _) ?_
  split
  · exact (report _ _).bind fun _ => .pure _
  · exact .pure _

theorem dropDeclaration (t : Token) (patterns : List Pattern) :
    Composed false none (dropDeclaration t patterns) := by
  refine (report _ _).bind fun _ => advance.bind fun _ => advance.bind fun _ =>
    patternValue.bind fun o => ?_
  cases o with
  | none => exact .pure _
  | some _ => exact modifiers.bind fun _ => .pure _

theorem declaration (t : Token) (patterns : List Pattern) :
    Composed false none (declaration t patterns) := by
  refine advance.bind fun _ => (expect _).bind fun o => ?_
  cases o with
  | none => exact .pure _
  | some _ =>
    refine patternValue.bind fun o => ?_
    cases o with
    | none => exact .pure _
    | some value =>
      exact modifiers.bind fun _ => pointHere.bind fun _ => (keepPattern _ _).bind fun _ => .pure _

theorem patternStep (patterns : List Pattern) : Composed false none (patternStep patterns) := by
  refine .facing (.pure _) fun t => .ite (.any (declaration t patterns)) ?_
  have misnamed : Composed false (some t.kind) (declaresMisnamed t.kind) :=
    .sees (fun s => isMisnamed t.kind && s.kindBeyond? == some (.symbol .equal))
      (run_declaresMisnamed · _) fun _ ahead => .declaresMisnamed (ahead _ rfl)
  exact misnamed.bind fun _ => .ite (dropDeclaration t patterns) (.pure _)

theorem sectionHead (kind : SectionKind) (duplicate : Bool) (keyword : Token) :
    Composed plain none (sectionHead kind duplicate keyword) := by
  have head : Composed plain none
    (do let _ ← Parser.expect (.symbol .colon); return Span.mk keyword.start (← Parser.lastStop)) :=
    (expect _).bind fun _ => lastStop.bind fun _ => .pure _
  exact .ite ((report _ _).bind fun _ => head) head

theorem sectionContent (kind : SectionKind) (duplicate : Bool) (r : Rule) :
    Composed (kind == .condition) none (sectionContent kind duplicate r) := by
  cases kind with
  | metas => exact (iterate metaStep _).bind fun _ => .pure _
  | strings => exact (iterate patternStep _).bind fun _ => .pure _
  | condition => exact expression.bind fun _ => .pure _

theorem sectionEnd : Composed plain none sectionEnd := by
  have stop : Composed plain none stopAhead := .glance sectionStop run_stopAhead fun _ => .stopAhead
  refine atSyncPoint.bind fun _ =>
    (glance Lockstep.falseModifier Lockstep.run_atFalseTopLevelModifier
    fun _ => .atFalseTopLevelModifier).bind fun _ => .ite ?_ stop
  exact (unexpected _).bind fun _ => skipToSyncPoint.bind fun _ => stop

theorem ruleSection (kind : SectionKind) (r : Rule) :
    Composed (kind == .condition) none (ruleSection kind r) := by
  refine advance.bind fun o => ?_
  cases o with
  | none => exact .pure _
  | some keyword =>
    refine (sectionHead kind _ keyword).bind fun _ => (sectionContent kind _ r).bind fun _ => ?_
    exact sectionEnd.bind fun _ => .pure _

/-! ### Items -/

theorem importItem : Composed plain none importItem := by
  refine advance.bind fun o => ?_
  cases o with
  | none => exact .pure _
  | some start =>
    refine (expect _).bind fun o => ?_
    cases o <;> exact .pure _

theorem includeItem : Composed plain none includeItem := by
  refine advance.bind fun o => ?_
  cases o with
  | none => exact .pure _
  | some start =>
    refine (expect _).bind fun o => ?_
    cases o <;> exact .pure _

theorem flagStep (flags : RuleFlags) : Composed plain none (flagStep flags) := by
  refine peek.bind fun o => ?_
  cases o with
  | none => exact .pure _
  | some t =>
    refine .ite (advance.bind fun _ => .ite ?_ (.pure _))
      (.ite (advance.bind fun _ => .ite ?_ (.pure _)) (.pure _))
    · exact (report _ _).bind fun _ => .pure _
    · exact (report _ _).bind fun _ => .pure _

theorem ruleName : Composed plain none ruleName := by
  refine (eat _).bind fun o => ?_
  cases o with
  | some t => exact .pure _
  | none => exact (unexpected _).bind fun _ => pointHere.bind fun _ => .pure _

theorem tags : Composed plain none tags := by
  refine (eat _).bind fun _ => .ite (iterate (fun known => (eat _).bind fun o => ?_) []) (.pure _)
  cases o with
  | none => exact .pure _
  | some t => exact .ite ((report _ _).bind fun _ => .pure _) (.pure _)

theorem ruleHead (flags : RuleFlags) : Composed plain none (ruleHead flags) :=
  ruleName.bind fun _ => tags.bind fun _ => (expect _).bind fun _ => .pure _

end Composed

/-! ### What cannot be seen -/

/-- A part whose result, and what it reads and how deep it nests, does not depend on
panic mode, on the errors so far and on the tokens that were read before. -/
def Blind (p : Parser α) : Prop := ∀ s, (p.run s).1 = (p.run s.bare).1 ∧
  (p.run s).2.bare = (p.run s.bare).2.bare

namespace Blind

variable {p : Parser α} {f : α → Parser β}

theorem pure (a : α) : Blind (pure a : Parser α) := fun _ => ⟨rfl, rfl⟩

theorem bind (h : Blind p) (rest : ∀ a, Blind (f a)) : Blind (p >>= f) := by
  intro s
  obtain ⟨result, state⟩ := h s
  obtain ⟨result', state'⟩ := rest (p.run s.bare).1 (p.run s.bare).2
  obtain ⟨first, first'⟩ := rest (p.run s.bare).1 (p.run s).2
  rw [run_bind, run_bind, result]
  rw [state] at first first'
  exact ⟨first.trans result'.symm, first'.trans state'.symm⟩

theorem sees {g : ParseState → α} (run : ∀ s, p.run s = (g s.bare, s)) : Blind p := fun s => by
  rw [run, run]
  exact ⟨rfl, rfl⟩

theorem advanceInto (mode : Mode) : Blind (advanceInto mode) := by
  intro s
  rw [run_advanceInto, run_advanceInto]
  refine ⟨rfl, ?_⟩
  show (s.advanced mode).bare = (ParseState.advanced ⟨s.input, false, s.depth, [], []⟩ mode).bare
  unfold ParseState.advanced
  cases s.input.ahead <;> rfl

theorem unexpected (expected : Expectation) : Blind (unexpected expected) := by
  intro s
  rw [run_unexpected, run_unexpected]
  refine ⟨rfl, ?_⟩
  show (if s.panicking then s else s.panicked (s.unexpectedError expected)).bare = s.bare
  split <;> rfl

theorem iterate {step : α → Parser (ForInStep α)} (steps : ∀ a, Blind (step a)) (a : α) :
    Blind (iterate step a) := by
  have fueled : ∀ fuel a, Blind (iterateIn step fuel a) := by
    intro fuel
    induction fuel with
    | zero => exact .pure
    | succ fuel ih =>
      refine fun a => (steps a).bind fun r => ?_
      cases r with
      | done b => exact .pure b
      | yield b => exact ih b
  exact fun s => fueled (s.input.here.rest.length + 1) a s

theorem tooDeep : Blind tooDeep := by
  have skip : Blind skipToSyncPoint := by
    refine .iterate (fun _ => .bind (.sees (g := (·.kindAhead?.all isSyncKind)) run_atSyncPoint)
      fun sync => ?_) ()
    cases sync with
    | true => exact .pure _
    | false => exact (advanceInto _).bind fun _ => .pure _
  refine .bind (.sees (g := fun s => (s.next?.map (·.span)).getD (.point s.input.here.offset))
    run_spanAhead) fun _ => skip.bind fun _ => ?_
  exact .bind (.sees (g := (·.input.here.offset)) run_lastStop) fun _ _ => ⟨rfl, rfl⟩

end Blind

theorem Composed.blind {plain : Bool} {front : Option Kind} {α : Type} {p : Parser α}
    (h : Composed plain front p) : Blind p := by
  induction h with
  | pure a => exact .pure a
  | bind _ _ first rest => exact first.bind rest
  | facing _ _ nothing token =>
    refine .bind (.sees (g := ParseState.next?) run_peek) fun o => ?_
    cases o with
    | none => exact nothing
    | some t => exact token t
  | any _ h => exact h
  | sees g run => exact .sees run
  | advance => exact .advanceInto .normal
  | opens mode => exact .advanceInto mode
  | report fault span => exact fun _ => ⟨rfl, rfl⟩
  | unexpected expected => exact .unexpected expected
  | setDepth n => exact fun _ => ⟨rfl, rfl⟩
  | iterate _ a steps => exact .iterate steps a
  | tooDeep => exact .tooDeep

end Parser

end RuleDesk
