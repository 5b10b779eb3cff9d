import RuleDesk.Proofs.Parsing.Leaves
import RuleDesk.Proofs.Parsing.Expressions

namespace RuleDesk

/-! ## The levels of nesting that are spent

Each way in which an expression nests spends a level. What a part of the parser
comes to is related to the levels that it leaves spent, and for a node of a tree
these are the levels that its parts have left. -/

/-- The errors of a parse that say that an expression is nested too deeply. -/
def ParseState.tooDeep (s : ParseState) : List SyntaxError :=
  s.errors.filter (·.fault == .nestingTooDeep)

namespace Parser

/-- A part of the parser with no expressions in it: it spends no level of nesting
and gives none back, and it does not report that there are too many of them. -/
def Still (p : Parser α) : Prop := ∀ s, (p.run s).2.depth = s.depth ∧
  (p.run s).2.tooDeep = s.tooDeep

namespace Still

variable {p : Parser α} {f : α → Parser β}

theorem pure (a : α) : Still (pure a) := fun _ => ⟨rfl, rfl⟩

theorem bind (h : Still p) (rest : ∀ a, Still (f a)) : Still (p >>= f) := fun s =>
  ⟨(rest _ _).1.trans (h s).1, (rest _ _).2.trans (h s).2⟩

theorem ite {c : Prop} [Decidable c] {p q : Parser α} (h : Still p) (h' : Still q) :
    Still (if c then p else q) := by
  split
  · exact h
  · exact h'

/-- What only looks at the state. -/
theorem look {g : ParseState → α} (run : ∀ s, p.run s = (g s, s)) : Still p := fun s => by
  rw [run]
  exact ⟨rfl, rfl⟩

theorem iterateIn {step : α → Parser (ForInStep α)} (steps : ∀ a, Still (step a)) (fuel : Nat)
    (a : α) : Still (iterateIn step fuel a) := by
  induction fuel generalizing a with
  | zero => exact .pure a
  | succ fuel ih =>
    refine (steps a).bind fun r => ?_
    cases r with
    | done b => exact .pure b
    | yield b => exact ih b

theorem iterate {step : α → Parser (ForInStep α)} (steps : ∀ a, Still (step a)) (a : α) :
    Still (iterate step a) :=
  (look run_look).bind fun _ => iterateIn steps _ a

end Still

theorem report_still (fault : SyntaxFault) (span : Span) (other : fault ≠ .nestingTooDeep) :
    Still (report fault span) := by
  intro s
  rw [run_report, ParseState.tooDeep, ParseState.reported, List.filter_append]
  simp [other, ParseState.tooDeep]

theorem advanceInto_still (mode : Mode) : Still (advanceInto mode) := by
  intro s
  rw [run_advanceInto, ParseState.tooDeep, ParseState.advanced_errors]
  exact ⟨s.advanced_depth mode, rfl⟩

theorem advance_still : Still advance := advanceInto_still .normal

theorem setPanicking_still (b : Bool) : Still (setPanicking b) := fun _ => ⟨rfl, rfl⟩

theorem faultOf_ne_nestingTooDeep (t : Token) (expected : Expectation) :
    faultOf t expected ≠ .nestingTooDeep := by
  unfold faultOf
  split <;> nofun

theorem unexpected_still (expected : Expectation) : Still (unexpected expected) := by
  refine (Still.look run_look).bind fun s =>
    .ite (.pure _) ((setPanicking_still true).bind fun _ => (Still.look run_peek).bind fun o => ?_)
  cases o with
  | none => exact (Still.look run_textStop).bind fun _ => report_still _ _ (by nofun)
  | some t => exact report_still _ _ (faultOf_ne_nestingTooDeep t expected)

theorem eat_still (k : Kind) : Still (eat k) :=
  (Still.look (run_atKind · k)).bind fun _ => .ite advance_still (.pure _)

theorem expect_still (k : Kind) : Still (expect k) := by
  refine (eat_still k).bind fun o => ?_
  cases o with
  | some t => exact .pure _
  | none => exact (unexpected_still _).bind fun _ => .pure _

theorem skipToSyncPoint_still : Still skipToSyncPoint :=
  .iterate (fun _ => (Still.look run_atSyncPoint).bind fun _ =>
    .ite (.pure _) (advance_still.bind fun _ => .pure _)) ()

theorem rangeDots_still : Still rangeDots := by
  refine (eat_still _).bind fun o => ?_
  cases o with
  | none => exact unexpected_still _
  | some _ =>
    exact (Still.look (run_nextAdjacent · _)).bind fun _ =>
      .ite (advance_still.bind fun _ => .pure _) (unexpected_still _)

theorem integerValue_still (t : Token) : Still (integerValue t) := by
  unfold integerValue
  split
  · exact .pure _
  · exact (report_still _ _ (by nofun)).bind fun _ => .pure _

theorem reportOpen_still (t : Token) : Still (reportOpen t) := by
  unfold reportOpen
  split
  · exact report_still _ _ (by nofun)
  · exact report_still _ _ (by nofun)
  · exact .pure _

theorem setItemStep_still (items : List SetItem) : Still (setItemStep items) := by
  refine (expect_still _).bind fun o => ?_
  cases o with
  | none => exact .pure _
  | some t =>
    have finish : ∀ wildcard : Bool, Still (do
        let items := items ++ [⟨⟨t.start, ← lastStop⟩, identOf t, wildcard⟩]
        if (← eat (.symbol .comma)).isSome then return .yield items
        return ForInStep.done items) := fun wildcard =>
      (Still.look run_lastStop).bind fun _ => (eat_still _).bind fun _ => .ite (.pure _) (.pure _)
    refine (Still.look (run_nextAdjacent · _)).bind fun wildcard =>
      .ite (advance_still.bind fun _ => finish _) (finish _)

theorem patternSet_still : Still patternSet := by
  refine (eat_still _).bind fun o => ?_
  cases o with
  | some t => exact .pure _
  | none =>
    refine (expect_still _).bind fun o => ?_
    cases o with
    | none => exact .pure _
    | some _ =>
      exact (Still.iterate setItemStep_still []).bind fun _ =>
        (expect_still _).bind fun _ => .pure _

theorem variableStep_still (vars : List Ident) : Still (variableStep vars) := by
  refine (expect_still _).bind fun o => ?_
  cases o with
  | none => exact .pure _
  | some t => exact (eat_still _).bind fun _ => .ite (.pure _) (.pure _)

/-! ### The levels that are spent -/

/-- A part of the parser that starts at the depth `low` or deeper. It gives no
level back that was spent before it, it goes no deeper than it may, and what it
comes to holds with the number of levels that it leaves spent. -/
def Spends (low : Nat) (p : Parser α) (holds : Nat → α → Prop) : Prop :=
  ∀ s, low ≤ s.depth → s.depth ≤ maxNesting → ∃ spent, (p.run s).2.depth = s.depth + spent ∧
    s.depth + spent ≤ maxNesting ∧ holds spent (p.run s).1

namespace Spends

variable {low : Nat} {p : Parser α} {f : α → Parser β} {holds : Nat → α → Prop}
    {post : Nat → β → Prop}

theorem pure {b : β} (h : post 0 b) : Spends low (pure b) post := fun _ _ most => ⟨0, rfl, most, h⟩

theorem bind (h : Spends low p holds)
    (rest : ∀ a k, holds k a → Spends low (f a) fun spent b => post (k + spent) b) :
    Spends low (p >>= f) post := by
  intro s least most
  obtain ⟨k, depth, within, held⟩ := h s least most
  obtain ⟨k', depth', within', held'⟩ := rest _ k held (p.run s).2 (by omega) (by omega)
  exact ⟨k + k', by rw [run_bind, depth', depth, Nat.add_assoc], by omega, held'⟩

theorem still (h : Still p) (rest : ∀ a, Spends low (f a) post) : Spends low (p >>= f) post := by
  have unspent : Spends low p fun k _ => k = 0 := fun s _ most => ⟨0, (h s).1, most, rfl⟩
  refine unspent.bind ?_
  rintro a _ rfl
  simpa only [Nat.zero_add] using rest a

theorem weaken {holds' : Nat → α → Prop} (h : Spends low p holds)
    (weaker : ∀ k a, holds k a → holds' k a) : Spends low p holds' :=
  fun s least most => (h s least most).imp fun _ fact => ⟨fact.1, fact.2.1, weaker _ _ fact.2.2⟩

theorem ite {c : Prop} [Decidable c] {p q : Parser α} (h : c → Spends low p holds)
    (h' : ¬ c → Spends low q holds) :
    Spends low (if c then p else q) holds := by
  split
  · exact h ‹_›
  · exact h' ‹_›

/-- What does not nest, and then a result. -/
theorem last {b : α → β} (h : Still p) (held : ∀ a, post 0 (b a)) :
    Spends low (p >>= fun a => Pure.pure (b a)) post :=
  still h fun a => pure (held a)

theorem iterateIn {step : α → Parser (ForInStep α)}
    (steps : ∀ a k, holds k a → Spends low (step a) fun spent r => holds (k + spent) r.value)
    (fuel : Nat) {a : α} {k : Nat} (start : holds k a) :
    Spends low (iterateIn step fuel a) fun spent b => holds (k + spent) b := by
  induction fuel generalizing a k with
  | zero => exact pure start
  | succ fuel ih =>
    refine (steps a k start).bind fun r spent held => ?_
    simp only [← Nat.add_assoc]
    cases r with
    | done b => exact pure held
    | yield b => exact ih held

theorem iterate {step : α → Parser (ForInStep α)}
    (steps : ∀ a k, holds k a → Spends low (step a) fun spent r => holds (k + spent) r.value)
    {a : α} {k : Nat} (start : holds k a) :
    Spends low (iterate step a) fun spent b => holds (k + spent) b :=
  still (.look run_look) fun _ => iterateIn steps _ start

/-- One level is spent where there is one left. -/
theorem deeper {p q : Parser α} (beyond : Spends low p holds)
    (rest : Spends low q fun spent a => holds (1 + spent) a) :
    Spends low (do if maxNesting ≤ (← getDepth) then p else setDepth ((← getDepth) + 1); q)
      holds := by
  intro s least most
  rw [run_bind, run_getDepth, run_ite]
  split
  · exact beyond s least most
  · have room : s.depth + 1 ≤ maxNesting := by omega
    obtain ⟨spent, depth, within, held⟩ :=
      rest { s with depth := s.depth + 1 } (Nat.le_succ_of_le least) room
    exact ⟨1 + spent, depth.trans (Nat.add_assoc ..), Nat.add_assoc .. ▸ within, held⟩

end Spends

theorem pointHere_still : Still pointHere := .look run_pointHere

theorem tooDeep_spends (low : Nat) :
    Spends low tooDeep fun k e => k = 0 ∧ ∃ span, e = .error span := by
  refine .still (.look run_spanAhead) fun start => .still skipToSyncPoint_still fun _ =>
    .still (.look run_lastStop) fun stop => ?_
  exact fun s _ most => ⟨0, rfl, most, rfl, _, rfl⟩

end Parser

/-- Expressions that have left some levels spent, each one its share of them. -/
inductive Shared (holds : Nat → Expr → Prop) : Nat → List Expr → Prop
  | nil : Shared holds 0 []
  | cons {k m : Nat} {e : Expr} {es : List Expr} (first : holds k e) (rest : Shared holds m es) :
      Shared holds (k + m) (e :: es)

namespace Shared

variable {holds wide : Nat → Expr → Prop} {k m : Nat} {e : Expr} {es rest : List Expr}

theorem one (h : holds k e) : Shared holds k [e] := .cons h .nil

theorem append (h : Shared holds k es) (h' : Shared holds m rest) :
    Shared holds (k + m) (es ++ rest) := by
  induction h with
  | nil => exact (Nat.zero_add m).symm ▸ h'
  | cons first _ ih => exact Nat.add_assoc .. ▸ .cons first ih

theorem widen (h : Shared holds k es) (wider : ∀ k e, holds k e → wide k e) : Shared wide k es := by
  induction h with
  | nil => exact .nil
  | cons first _ ih => exact .cons (wider _ _ first) ih

theorem of_forall {post : Expr → Prop} (h : ∀ e ∈ es, post e) : Shared (fun _ => post) 0 es := by
  induction es with
  | nil => exact .nil
  | cons e es ih =>
    obtain ⟨first, rest⟩ := List.forall_mem_cons.mp h
    exact .cons (k := 0) first (ih rest)

theorem forall_mem {post : Expr → Prop} (h : Shared holds k es) (each : ∀ k e, holds k e → post e) :
    ∀ e ∈ es, post e := by
  induction h with
  | nil => exact nofun
  | cons first _ ih => exact List.forall_mem_cons.mpr ⟨each _ _ first, ih⟩

end Shared

/-- What holds of an expression, or of what is in parentheses. -/
def Enclosed (holds : Nat → Expr → Prop) (k : Nat) (e : Expr) : Prop :=
  holds k e ∨ ∃ inner span, e = .group inner span ∧ holds k inner

namespace Parser

section Layer

variable {low : Nat} {sub : Level → Parser Expr} {holds : Nat → Expr → Prop}
  (inner : ∀ level, Spends low (sub level) holds) (leaf : ∀ e : Expr, e.parts = [] → holds 0 e)

include inner

theorem range_spends : Spends low (range sub) fun k b => Shared holds k b.parts := by
  refine .still (.look run_spanAhead) fun start => .still (expect_still _) fun _ =>
    (inner _).bind fun lower _ low => ?_
  refine .still rangeDots_still fun _ => (inner _).bind fun upper _ high =>
    .still (expect_still _) fun _ => .last pointHere_still fun _ => ?_
  exact .cons low (.one high)

theorem anchor_spends : Spends low (anchor sub) fun k a => Shared holds k a.parts := by
  refine .still (eat_still _) fun o => .ite (fun _ => ?_) fun _ => .still (eat_still _) fun o =>
    .ite (fun _ => ?_) fun _ => ?_
  · exact (inner _).bind fun e _ held => .pure (.one held)
  · exact (range_spends inner).bind fun b _ held => .pure held
  · exact .pure .nil

omit inner in
theorem listStep_spends {item : Parser Expr} (h : Spends low item holds) (es : List Expr) (k : Nat)
    (held : Shared holds k es) :
    Spends low (listStep item es) fun spent r => Shared holds (k + spent) r.value := by
  refine h.bind fun e _ last => .still (eat_still _) fun _ => ?_
  exact .ite (fun _ => .pure (held.append (.one last))) fun _ => .pure (held.append (.one last))

omit inner in
theorem list_spends {item : Parser Expr} (h : Spends low item holds) {es : List Expr} {k : Nat}
    (held : Shared holds k es) :
    Spends low (iterate (listStep item) es) fun spent es => Shared holds (k + spent) es :=
  .iterate (listStep_spends h) held

omit inner in
/-- A list of expressions from its start. -/
theorem wholeList_spends {item : Parser Expr} (h : Spends low item holds) :
    Spends low (iterate (listStep item) []) fun k es => Shared holds k es :=
  (list_spends h .nil).weaken fun k _ held => Nat.zero_add k ▸ held

theorem arguments_spends : Spends low (arguments sub) fun k es => Shared holds k es :=
  .still (.look (run_atKind · _)) fun _ => .ite (fun _ => .pure .nil) fun _ =>
    wholeList_spends (inner _)

theorem loopBody_spends : Spends low (loopBody sub) (Enclosed holds) := by
  refine .still (expect_still _) fun _ => .still (.look run_spanAhead) fun start =>
    .still (expect_still _) fun _ => ?_
  refine (inner _).bind fun e _ held => .still (expect_still _) fun _ =>
    .last pointHere_still fun _ => ?_
  exact .inr ⟨e, _, rfl, held⟩

theorem iterable_spends : Spends low (iterable sub) fun k i => Shared holds k i.parts := by
  refine .still (eat_still _) fun o => ?_
  cases o with
  | none => exact (inner _).bind fun e _ held => .pure (.one held)
  | some t =>
    refine (inner _).bind fun first k held => .still (.look (run_atKind · _)) fun _ => ?_
    split
    · refine .still rangeDots_still fun _ => (inner _).bind fun upper _ high =>
        .still (expect_still _) fun _ => .last pointHere_still fun _ => ?_
      exact .cons held (.one high)
    · have finish : ∀ {es : List Expr} {m : Nat}, Shared holds (k + m) es →
          Spends low (do let _ ← expect (.symbol .rparen); return .tuple es)
            fun spent i => Shared holds (k + (m + spent)) (Iterable.parts i) :=
              fun held => .last (expect_still _) fun _ => held
      refine .still (eat_still _) fun _ => ?_
      split
      · exact (list_spends (inner _) (.one held)).bind fun es _ more => finish more
      · exact (finish (m := 0) (.one held)).weaken fun spent _ more => Nat.zero_add spent ▸ more

theorem index?_spends : Spends low (index? sub) fun k o => Shared holds k o.toList := by
  refine .still (eat_still _) fun o => ?_
  cases o with
  | none => exact .pure .nil
  | some t => exact (inner _).bind fun e _ held => .last (expect_still _) fun _ => .one held

theorem patternExpr_spends (k : Sigil) (t : Token) :
    Spends low (patternExpr sub k t) fun k e => Shared holds k e.parts := by
  cases k with
  | identity => exact (anchor_spends inner).bind fun a _ held => .pure held
  | count =>
    have finish : ∀ {k : Nat} (o : Option (Bounds Expr)), Shared holds k (o.elim [] Bounds.parts) →
        Spends low (do return Expr.count (identOf t) o (t.span.through (← pointHere)))
          fun spent e => Shared holds (k + spent) e.parts :=
      fun _ held => .last pointHere_still fun _ => held
    refine .still (eat_still _) fun o => ?_
    cases o with
    | none => exact (finish none .nil).weaken fun k _ held => Nat.zero_add k ▸ held
    | some _ => exact (range_spends inner).bind fun b _ held => finish (some b) held
  | offset | length =>
    exact (index?_spends inner).bind fun o _ held => .last pointHere_still fun _ => held

include leaf

theorem ofItem_spends : Spends low (ofItem sub) holds := by
  refine .still (.look Lockstep.run_wildcardAhead) fun o => ?_
  cases o with
  | some t => exact .still advance_still fun _ => .last advance_still fun _ => leaf _ rfl
  | none => exact inner _

theorem ofItems_spends : Spends low (ofItems sub) fun k items => Shared holds k items.parts := by
  have set : Spends low (do return .patterns (← patternSet)) fun k items =>
    Shared holds k (OfItems.parts items) :=
    .still patternSet_still fun _ => .pure .nil
  refine .still (.look run_atTuple) fun _ => .ite (fun _ => ?_) fun _ => set
  refine .still advance_still fun _ => (wholeList_spends (ofItem_spends inner leaf)).bind
    fun es _ held => ?_
  exact .last (expect_still _) fun _ => held

theorem ofExpr_spends {q : Quantifier Expr} {k : Nat} (quantified : Shared holds k q.parts) :
    Spends low (ofExpr sub q) fun spent e => Shared holds (k + spent) e.parts := by
  refine .still (expect_still _) fun _ => (ofItems_spends inner leaf).bind fun items _ counted => ?_
  refine (anchor_spends inner).bind fun a _ anchored => .last pointHere_still fun _ => ?_
  exact quantified.append (counted.append anchored)

theorem quantifier_spends : Spends low (quantifier sub) fun k q => Shared holds k q.parts := by
  refine .still (.look run_peek) fun o => ?_
  cases o with
  | none =>
    exact .still (unexpected_still _) fun _ => .last pointHere_still fun _ => .one (leaf _ rfl)
  | some t =>
    dsimp only
    cases word : quantifierWord? t.kind with
    | some make =>
      refine .last advance_still fun _ => ?_
      unfold quantifierWord? at word
      split at word <;> cases word <;> exact .nil
    | none =>
      refine (inner _).bind fun e _ held => .still (eat_still _) fun _ => ?_
      exact .ite (fun _ => .pure (.one held)) fun _ => .pure (.one held)

theorem forExpr_spends (start : Span) :
    Spends low (forExpr sub start) fun k e => Shared (Enclosed holds) k e.parts := by
  have plain : ∀ k e, holds k e → Enclosed holds k e := fun _ _ => .inl
  refine (quantifier_spends inner leaf).bind fun q _ quantified => .still (eat_still _) fun _ =>
    .ite (fun _ => ?_) fun _ => ?_
  · refine .still patternSet_still fun set => (loopBody_spends inner).bind fun body _ inside =>
      .last pointHere_still fun _ => ?_
    exact (quantified.widen plain).append (.one inside)
  · refine .still (.iterate variableStep_still []) fun vars => .still (expect_still _) fun _ => ?_
    refine (iterable_spends inner).bind fun i _ values =>
      (loopBody_spends inner).bind fun body _ inside => .last pointHere_still fun _ => ?_
    exact (quantified.widen plain).append ((values.widen plain).append (.one inside))

/-- An operand without its links leaves spent what its parts do. -/
theorem primary_spends : Spends low (primary sub) fun k e => Shared (Enclosed holds) k e.parts := by
  have plain : ∀ k e, holds k e → Enclosed holds k e := fun _ _ => .inl
  refine .still (.look run_peek) fun o => ?_
  cases o with
  | none => exact .still (unexpected_still _) fun _ => .last pointHere_still fun _ => .nil
  | some t =>
    dsimp only
    cases atom : atomOf? t.kind with
    | some a => exact .still advance_still fun _ => .last (reportOpen_still t) fun _ => .nil
    | none =>
      dsimp only
      split
      · exact .still advance_still fun _ => .still (integerValue_still t) fun _ => .pure .nil
      · exact .last advance_still fun _ => .nil
      · exact .still advance_still fun _ => (patternExpr_spends inner _ t).weaken fun _ _ held =>
          held.widen plain
      · refine .still advance_still fun _ => (inner _).bind fun e _ held =>
          .still (expect_still _) fun _ => .last pointHere_still fun _ => ?_
        exact .one (.inl held)
      · exact .still advance_still fun _ => forExpr_spends inner leaf _
      · cases word : quantifierWord? t.kind with
        | some make =>
          have none : Shared holds 0 (make t.span).parts := by
            unfold quantifierWord? at word
            split at word <;> cases word <;> exact .nil
          refine .still advance_still fun _ => (ofExpr_spends inner leaf none).weaken
            fun k _ held => ?_
          exact (Nat.zero_add k ▸ held).widen plain
        | none => exact .last (unexpected_still _) fun _ => .nil

end Layer

end Parser

end RuleDesk
