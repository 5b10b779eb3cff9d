import RuleDesk.Proofs.Parsing.Progress
import RuleDesk.Proofs.Parsing.Basics

namespace RuleDesk

/-! ### The spans of an expression -/

@[simp] def SetItem.spans (i : SetItem) : List Span := [i.span, i.ident.span]

@[simp] def PatternSet.spans : PatternSet → List Span
  | .them s => [s]
  | .items set => set.flatMap SetItem.spans

mutual

/-- All the spans in an expression: those of its nodes, and those of the
names, ranges, sets and quantifiers in them. -/
@[simp] def Expr.spans : Expr → List Span
  | .atom _ s | .integer _ s | .error s => [s]
  | .ident i | .ruleWildcard i => [i.span]
  | .pattern i anchor s => s :: i.span :: spansOfAnchor anchor
  | .count i range s => s :: i.span :: spansOfRange range
  | .offset i index s | .length i index s => s :: i.span :: spansOfIndex index
  | .field object name s => s :: name.span :: object.spans
  | .lookup object index s => s :: (object.spans ++ index.spans)
  | .call callee args s => s :: (callee.spans ++ spansOfEach args)
  | .group inner s => s :: inner.spans
  | .unary _ operand s => s :: operand.spans
  | .binary _ operands s => s :: spansOfEach operands
  | .of quantifier items anchor s =>
    s :: (spansOfQuantifier quantifier ++ (spansOfItems items ++ spansOfAnchor anchor))
  | .forOf quantifier set body s => s :: (spansOfQuantifier quantifier ++ (set.spans ++ body.spans))
  | .forIn quantifier vars iterable body s =>
    s :: (spansOfQuantifier quantifier ++
      (vars.map Ident.span ++ (spansOfIterable iterable ++ body.spans)))

@[simp] def Expr.spansOfEach : List Expr → List Span
  | [] => []
  | e :: rest => e.spans ++ spansOfEach rest

@[simp] def Expr.spansOfBounds : Bounds Expr → List Span
  | ⟨s, lower, upper⟩ => s :: (lower.spans ++ upper.spans)

@[simp] def Expr.spansOfRange : Option (Bounds Expr) → List Span
  | none => []
  | some bounds => spansOfBounds bounds

@[simp] def Expr.spansOfIndex : Option Expr → List Span
  | none => []
  | some e => e.spans

@[simp] def Expr.spansOfAnchor : Anchor Expr → List Span
  | .anywhere => []
  | .at e => e.spans
  | .within bounds => spansOfBounds bounds

@[simp] def Expr.spansOfQuantifier : Quantifier Expr → List Span
  | .none s | .all s | .any s => [s]
  | .percentage e | .count e => e.spans

@[simp] def Expr.spansOfItems : OfItems Expr → List Span
  | .patterns set => set.spans
  | .tuple items => spansOfEach items

@[simp] def Expr.spansOfIterable : Iterable Expr → List Span
  | .range bounds => spansOfBounds bounds
  | .tuple items => spansOfEach items
  | .value e => e.spans

end

theorem Expr.spansOfEach_append (a b : List Expr) :
    spansOfEach (a ++ b) = spansOfEach a ++ spansOfEach b := by
  induction a with
  | nil => rfl
  | cons e rest ih => rw [List.cons_append, spansOfEach, spansOfEach, ih, List.append_assoc]

theorem Expr.span_mem_spans (e : Expr) : e.span ∈ e.spans := by
  cases e <;> exact List.mem_cons_self ..

theorem Quantifier.span_mem_spans (q : Quantifier Expr) : q.span ∈ Expr.spansOfQuantifier q := by
  cases q with
  | none | all | any => exact List.mem_cons_self ..
  | percentage e | count e => exact e.span_mem_spans

/-- A span that does not start before an offset, and neither starts nor stops
after another one. -/
structure Span.Lies (low high : Nat) (s : Span) : Prop where
  start : low ≤ s.start
  begun : s.start ≤ high
  stop : s.stop ≤ high

namespace Span.Lies

variable {low high higher : Nat} {s t : Span}

theorem raise (h : s.Lies low high) (le : high ≤ higher) : s.Lies low higher :=
  ⟨h.start, Nat.le_trans h.begun le, Nat.le_trans h.stop le⟩

theorem through (h : s.Lies low high) (h' : t.Lies low high) : (s.through t).Lies low high :=
  ⟨h.start, h.begun, Nat.max_le.mpr ⟨h'.stop, h.stop⟩⟩

end Span.Lies

/-- Spans that all lie between two offsets. -/
def AllLie (low high : Nat) (spans : List Span) : Prop := ∀ s ∈ spans, s.Lies low high

section AllLie

variable {low high higher : Nat} {s : Span} {spans others : List Span}

@[simp] theorem allLie_nil : AllLie low high [] := nofun

@[simp] theorem allLie_cons :
    AllLie low high (s :: spans) ↔ s.Lies low high ∧ AllLie low high spans :=
  List.forall_mem_cons

@[simp] theorem allLie_append :
    AllLie low high (spans ++ others) ↔ AllLie low high spans ∧ AllLie low high others :=
  List.forall_mem_append

theorem AllLie.raise (h : AllLie low high spans) (le : high ≤ higher) : AllLie low higher spans :=
  fun s member => (h s member).raise le

end AllLie

/-- The offset where the next token stops, or that of the cursor when there is
none. -/
def Cursor.reach (c : Cursor) : Nat := (c.nextSolid?.map (·.1.stop)).getD c.offset

namespace ParseState

/-- How far a parse has seen the text: to the end of the next token. -/
def reach (s : ParseState) : Nat := s.input.here.reach

variable {s t : ParseState}

theorem reach_of_next {u : Token} (h : s.next? = some u) : s.reach = u.stop := by
  obtain ⟨after, ahead⟩ := next?_eq_some h
  rw [reach, Cursor.reach, ← s.input.ahead_eq, ahead]
  rfl

theorem reach_of_end (h : s.next? = none) : s.reach = s.input.here.offset := by
  rw [reach, Cursor.reach, ← s.input.ahead_eq, Option.map_eq_none_iff.mp h]
  rfl

theorem here_le_reach (s : ParseState) : s.input.here.offset ≤ s.reach := by
  cases next : s.next? with
  | none => exact Nat.le_of_eq (reach_of_end next).symm
  | some u =>
    rw [reach_of_next next]
    exact Nat.le_trans (next?_start next) (Nat.le_add_right _ _)

/-- A parse that has come further has read the next token. -/
theorem Before.stop_le (h : s.Before t) {u : Token} (next : s.next? = some u)
    (further : t.unread < s.unread) :
    u.stop ≤ t.input.here.offset := by
  cases h.reads with
  | nothing input => exact absurd further (by rw [unread, input]; exact Nat.lt_irrefl _)
  | @tokens v after later ahead reaches =>
    obtain ⟨_, stop, _⟩ := Input.ahead_place ahead
    have same : s.next? = some v := by rw [next?, ahead]; rfl
    obtain rfl : u = v := Option.some.inj (next.symm.trans same)
    exact stop ▸ reaches.offset_le

theorem Before.reach_le (h : s.Before t) : s.reach ≤ t.reach := by
  cases h.reads with
  | nothing input => exact Nat.le_of_eq (congrArg (·.here.reach) input.symm)
  | @tokens u after later next reaches =>
    obtain ⟨_, stop, _⟩ := Input.ahead_place next
    have first : s.next? = some u := by rw [next?, next]; rfl
    rw [reach_of_next first, ← stop]
    exact Nat.le_trans reaches.offset_le t.here_le_reach

end ParseState

namespace Parser

/-! ### Spans that stay within what is known -/

/-- A part of the parser that makes its spans out of those it knows and of the
tokens that it sees. None of them starts before the offset `low`, and none
stops behind the next token. -/
def Stays (low : Nat) (known : List Span) (p : Parser α) (spans : α → List Span) : Prop :=
  ∀ s : ParseState, low ≤ s.input.here.offset → AllLie low s.reach known →
    AllLie low (p.run s).2.reach (spans (p.run s).1)

namespace Stays

variable {low : Nat} {known fewer : List Span} {p : Parser α} {f : α → Parser β}
  {spans : α → List Span} {spans' : β → List Span}

theorem pure {a : α} (h : ∀ high, AllLie low high known → AllLie low high (spans a)) :
    Stays low known (pure a) spans :=
  fun s _ held => h s.reach held

theorem bind (h : Stays low known p spans) (rest : ∀ a, Stays low (spans a ++ known) (f a) spans') :
    Stays low known (p >>= f) spans' := by
  intro s start held
  have step := p.forward s
  exact rest _ _ (Nat.le_trans start step.here_le)
    (allLie_append.mpr ⟨h s start held, held.raise step.reach_le⟩)

/-- Other spans may be known from which the first ones follow. -/
theorem knowing (h : Stays low fewer p spans)
    (follow : ∀ high, AllLie low high known → AllLie low high fewer) :
    Stays low known p spans := fun s start held => h s start (follow s.reach held)

/-- A part without spans in its result. -/
theorem skip (rest : ∀ a, Stays low known (f a) spans') : Stays low known (p >>= f) spans' :=
  (show Stays low known p fun _ => [] from fun _ _ _ => allLie_nil).bind rest

/-- The span of the token that a part of the parser has as its result. -/
def ofToken (o : Option Token) : List Span := o.toList.map Token.span

theorem token {p : Parser (Option Token)} {f : Option Token → Parser β}
    (h : Stays low known p ofToken)
    (none : Stays low known (f none) spans')
    (some : ∀ t, Stays low (t.span :: known) (f (some t)) spans') :
    Stays low known (p >>= f) spans' := by
  refine h.bind fun o => ?_
  cases o with
  | none => exact none
  | some t => exact some t

theorem next_lies {s : ParseState} (start : low ≤ s.input.here.offset) :
    AllLie low s.reach (ofToken s.next?) := by
  cases next : s.next? with
  | none => exact allLie_nil
  | some t =>
    rw [ParseState.reach_of_next next]
    have ordered : t.start ≤ t.stop := Nat.le_add_right _ _
    exact allLie_cons.mpr
      ⟨⟨Nat.le_trans start (ParseState.next?_start next), ordered, Nat.le_refl _⟩, allLie_nil⟩

theorem advance : Stays low known advance ofToken := by
  intro s start _
  rw [run_advance]
  exact (next_lies start).raise (by simpa using (Parser.advance.forward s).reach_le)

theorem eat (k : Kind) : Stays low known (eat k) ofToken := by
  intro s start held
  rw [run_eat]
  split
  · simpa using advance s start held
  · exact allLie_nil

theorem expect (k : Kind) : Stays low known (expect k) ofToken :=
  (eat k).token (.skip fun _ => .pure fun _ _ => allLie_nil) fun _ => .pure fun _ held =>
    allLie_cons.mpr ⟨(allLie_cons.mp held).1, allLie_nil⟩

theorem peek : Stays low known peek ofToken := fun _ start _ => next_lies start

theorem here_lies {s : ParseState} (start : low ≤ s.input.here.offset) :
    (Span.point s.input.here.offset).Lies low s.reach :=
  ⟨start, s.here_le_reach, s.here_le_reach⟩

theorem pointHere {f : Span → Parser β} (rest : ∀ x, Stays low (x :: known) (f x) spans') :
    Stays low known (pointHere >>= f) spans' :=
  (show Stays low known Parser.pointHere fun x => [x] from fun _ start _ =>
    allLie_cons.mpr ⟨here_lies start, allLie_nil⟩).bind rest

theorem lastStop {f : Nat → Parser β} (rest : ∀ n, Stays low (.point n :: known) (f n) spans') :
    Stays low known (lastStop >>= f) spans' :=
  (show Stays low known Parser.lastStop fun n => [.point n] from fun _ start _ =>
    allLie_cons.mpr ⟨here_lies start, allLie_nil⟩).bind rest

theorem spanAhead {f : Span → Parser β} (rest : ∀ x, Stays low (x :: known) (f x) spans') :
    Stays low known (spanAhead >>= f) spans' := by
  refine (show Stays low known Parser.spanAhead fun x => [x] from peek.token ?_ fun t =>
    ?_).bind rest
  · exact fun s start _ => allLie_cons.mpr ⟨here_lies start, allLie_nil⟩
  · exact .pure fun _ held => allLie_cons.mpr ⟨(allLie_cons.mp held).1, allLie_nil⟩

theorem iterateIn (spans : α → List Span) {step : α → Parser (ForInStep α)}
    (steps : ∀ a, Stays low (spans a ++ known) (step a) fun r => spans r.value)
    (fuel : Nat) (a : α) : Stays low (spans a ++ known) (iterateIn step fuel a) spans := by
  induction fuel generalizing a with
  | zero => exact .pure fun _ held => (allLie_append.mp held).1
  | succ fuel ih =>
    refine (steps a).bind fun r => ?_
    cases r with
    | done b => exact .pure fun _ held => (allLie_append.mp held).1
    | yield b =>
      intro s start held
      simp only [ForInStep.value, allLie_append] at held
      exact ih b s start (allLie_append.mpr ⟨held.1, held.2.2⟩)

theorem iterate (spans : α → List Span) {step : α → Parser (ForInStep α)}
    (steps : ∀ a, Stays low (spans a ++ known) (step a) fun r => spans r.value)
    (a : α) : Stays low (spans a ++ known) (iterate step a) spans :=
  .skip fun _ => .iterateIn spans steps _ a

/-- A loop that starts with no spans. -/
theorem loop (spans : α → List Span) {step : α → Parser (ForInStep α)}
    (steps : ∀ a, Stays low (spans a ++ known) (step a) fun r => spans r.value)
    {a : α} (empty : spans a = []) : Stays low known (Parser.iterate step a) spans := by
  have all := iterate spans steps a
  rwa [empty] at all

end Stays

section Grammar

variable {low : Nat} {known : List Span}

theorem tooDeep_stays : Stays low known tooDeep Expr.spans := by
  refine .spanAhead fun first => .skip fun _ => .lastStop fun stop => .skip fun _ => .skip fun _ =>
    .pure fun high held => ?_
  simp only [allLie_cons] at held
  exact allLie_cons.mpr
    ⟨⟨held.2.1.start, held.2.1.begun, Nat.max_le.mpr ⟨held.1.stop, held.2.1.begun⟩⟩, allLie_nil⟩

/-- One more operand of a chain brings its spans along. -/
theorem append?_allLie {lhs rhs e : Expr} {op : BinaryOp} {high : Nat}
    (h : lhs.append? op rhs = some e)
    (left : AllLie low high lhs.spans) (right : AllLie low high rhs.spans) :
    AllLie low high e.spans := by
  unfold Expr.append? at h
  split at h
  · split at h
    · obtain rfl := Option.some.inj h
      simp only [Expr.spans, Expr.spansOfEach_append, Expr.spansOfEach, allLie_cons,
        allLie_append] at left ⊢
      exact ⟨left.1.through (right _ rhs.span_mem_spans), left.2, right, allLie_nil⟩
    · cases h
  · cases h

theorem pair_allLie {lhs rhs : Expr} {op : BinaryOp} {high : Nat} (left : AllLie low high lhs.spans)
    (right : AllLie low high rhs.spans) : AllLie low high (Expr.pair op lhs rhs).spans := by
  simp only [Expr.pair, Expr.spans, Expr.spansOfEach, allLie_cons, allLie_append]
  exact ⟨(left _ lhs.span_mem_spans).through (right _ rhs.span_mem_spans), left, right, allLie_nil⟩

theorem chainStep_stays {operator : Parser (Option BinaryOp)} {operand : Parser Expr}
    (inside : ∀ known, Stays low known operand Expr.spans) (lhs : Expr × Bool) :
    Stays low (lhs.1.spans ++ known) (chainStep operator operand lhs) fun r => r.value.1.spans := by
  obtain ⟨lhs, chained⟩ := lhs
  refine .skip fun o => ?_
  cases o with
  | none => exact .pure fun _ held => (allLie_append.mp held).1
  | some op =>
    refine .skip fun _ => (inside _).bind fun rhs => ?_
    dsimp only
    split
    · rename_i e appended
      refine .pure fun high held => ?_
      simp only [allLie_append] at held
      split at appended
      · exact append?_allLie appended held.2.1 held.1
      · cases appended
    · have pair : ∀ known', Stays low (rhs.spans ++ (lhs.spans ++ known'))
          (pure (.yield (Expr.pair op lhs rhs, true))) fun r :
            ForInStep (Expr × Bool) => r.value.1.spans := by
        refine fun _ => .pure fun high held => ?_
        simp only [allLie_append] at held
        exact pair_allLie held.2.1 held.1
      split
      · refine .skip fun depth => ?_
        split
        · exact tooDeep_stays.bind fun e => .pure fun _ held => (allLie_append.mp held).1
        · exact .skip fun _ => .skip fun _ => pair known
      · exact pair known

theorem chainFrom_stays {operator : Parser (Option BinaryOp)} {operand : Parser Expr}
    (inside : ∀ known, Stays low known operand Expr.spans) (lhs : Expr) :
    Stays low (lhs.spans ++ known) (chainFrom lhs operator operand) Expr.spans :=
  (Stays.iterate (fun lhs : Expr × Bool => lhs.1.spans) (chainStep_stays inside) (lhs, false)).bind
    fun _ =>
    .pure fun _ held => (allLie_append.mp held).1

theorem chain_stays {operator : Parser (Option BinaryOp)} {operand : Parser Expr}
    (inside : ∀ known, Stays low known operand Expr.spans) :
    Stays low known (chain operator operand) Expr.spans :=
  (inside _).bind fun lhs => chainFrom_stays inside lhs

theorem listStep_stays {item : Parser Expr} (inside : ∀ known, Stays low known item Expr.spans)
    (items : List Expr) :
    Stays low (Expr.spansOfEach items ++ known) (listStep item items) fun r =>
      Expr.spansOfEach r.value := by
  refine (inside _).bind fun e => .skip fun comma => ?_
  have longer : ∀ high, AllLie low high (e.spans ++ (Expr.spansOfEach items ++ known)) →
      AllLie low high (Expr.spansOfEach (items ++ [e])) := by
    intro high held
    simp only [Expr.spansOfEach_append, Expr.spansOfEach, allLie_append] at held ⊢
    exact ⟨held.2.1, held.1, allLie_nil⟩
  split
  · exact .pure longer
  · exact .pure longer

theorem setItemStep_stays (items : List SetItem) :
    Stays low (items.flatMap SetItem.spans ++ known) (setItemStep items) fun r =>
      r.value.flatMap SetItem.spans := by
  refine (Stays.expect _).token (.pure fun _ held => (allLie_append.mp held).1) fun t =>
    .skip fun wildcard => ?_
  have longer : ∀ n high,
      AllLie low high (.point n :: t.span :: (items.flatMap SetItem.spans ++ known)) →
      AllLie low high
        ((items ++ [(⟨⟨t.start, n⟩, identOf t, wildcard⟩ : SetItem)]).flatMap SetItem.spans) := by
    intro n high held
    simp only [List.flatMap_append, List.flatMap_singleton, SetItem.spans, allLie_cons,
      allLie_append] at held ⊢
    obtain ⟨point, token, items, _⟩ := held
    exact ⟨items, ⟨token.start, token.begun, point.stop⟩, token, allLie_nil⟩
  have item : Stays low (t.span :: (items.flatMap SetItem.spans ++ known))
      (do
        let items := items ++ [⟨⟨t.start, ← lastStop⟩, identOf t, wildcard⟩]
        if (← eat (.symbol .comma)).isSome then return .yield items
        return .done items) fun r : ForInStep (List SetItem) => r.value.flatMap SetItem.spans := by
    refine .lastStop fun n => .skip fun comma => ?_
    split
    · exact .pure (longer n)
    · exact .pure (longer n)
  split
  · exact .skip fun _ => item
  · exact item

theorem patternSet_stays : Stays low known patternSet PatternSet.spans := by
  refine (Stays.eat _).token ?_ fun t => .pure fun _ held => ?_
  · refine (Stays.expect _).token (.pure fun _ _ => allLie_nil) fun t => ?_
    refine (Stays.loop (·.flatMap SetItem.spans) setItemStep_stays rfl).bind fun items =>
      .skip fun _ => ?_
    exact .pure fun _ held => (allLie_append.mp held).1
  · exact allLie_cons.mpr ⟨(allLie_cons.mp held).1, allLie_nil⟩

theorem variableStep_stays (vars : List Ident) :
    Stays low (vars.map Ident.span ++ known) (variableStep vars) fun r =>
      r.value.map Ident.span := by
  refine (Stays.expect _).token (.pure fun _ held => (allLie_append.mp held).1) fun t =>
    .skip fun comma => ?_
  have longer : ∀ high, AllLie low high (t.span :: (vars.map Ident.span ++ known)) →
      AllLie low high ((vars ++ [identOf t]).map Ident.span) := by
    intro high held
    simp only [List.map_append, List.map_cons, List.map_nil, allLie_cons, allLie_append] at held ⊢
    exact ⟨held.2.1, held.1, allLie_nil⟩
  split
  · exact .pure longer
  · exact .pure longer

theorem anchoredSpan_lies {high : Nat} {s : Span} {anchor : Anchor Expr} (span : s.Lies low high)
    (spans : AllLie low high (Expr.spansOfAnchor anchor)) :
    (anchoredSpan s anchor).Lies low high := by
  cases anchor with
  | anywhere => exact span
  | «at» e => exact span.through (spans _ e.span_mem_spans)
  | within bounds =>
    obtain ⟨first, lower, upper⟩ := bounds
    simp only [Expr.spansOfAnchor, Expr.spansOfBounds, allLie_cons] at spans
    exact span.through spans.1

theorem quantifierWord?_spans {k : Kind} {make : Span → Quantifier Expr}
    (h : quantifierWord? k = some make) (s : Span) :
    Expr.spansOfQuantifier (make s) = [s] := by
  unfold quantifierWord? at h
  split at h <;> cases h <;> rfl

section Layer

variable {sub : Level → Parser Expr}
    (inside : ∀ known level, Stays low known (sub level) Expr.spans)

include inside

theorem range_stays : Stays low known (range sub) Expr.spansOfBounds := by
  refine .spanAhead fun start => .skip fun _ => (inside _ _).bind fun lower => .skip fun _ => ?_
  refine (inside _ _).bind fun upper => .skip fun _ => .pointHere fun stop =>
    .pure fun high held => ?_
  simp only [Expr.spansOfBounds, allLie_cons, allLie_append] at held ⊢
  obtain ⟨stop, upper, lower, start, _⟩ := held
  exact ⟨start.through stop, lower, upper⟩

theorem anchor_stays : Stays low known (anchor sub) Expr.spansOfAnchor := by
  refine .skip fun is_at => ?_
  split
  · exact (inside _ _).bind fun e => .pure fun _ held => (allLie_append.mp held).1
  refine .skip fun is_in => ?_
  split
  · exact (range_stays inside).bind fun bounds => .pure fun _ held => (allLie_append.mp held).1
  · exact .pure fun _ _ => allLie_nil

theorem arguments_stays : Stays low known (arguments sub) Expr.spansOfEach := by
  refine .skip fun closed => ?_
  split
  · exact .pure fun _ _ => allLie_nil
  · exact .loop Expr.spansOfEach (listStep_stays fun known => inside known _) rfl

theorem ofItem_stays : Stays low known (ofItem sub) Expr.spans := by
  have ahead : Stays low known wildcardAhead Stays.ofToken := by
    refine Stays.peek.token (.pure fun _ _ => allLie_nil) fun t => ?_
    dsimp only
    split
    · refine .skip fun o => ?_
      cases o with
      | none => exact .pure fun _ _ => allLie_nil
      | some next =>
        refine .pure fun _ held => ?_
        split
        · exact allLie_cons.mpr ⟨(allLie_cons.mp held).1, allLie_nil⟩
        · exact allLie_nil
    · exact .pure fun _ _ => allLie_nil
  refine ahead.token (inside _ _) fun t => .skip fun _ => .skip fun _ => .pure fun _ held => ?_
  exact allLie_cons.mpr ⟨(allLie_cons.mp held).1, allLie_nil⟩

theorem ofItems_stays : Stays low known (ofItems sub) Expr.spansOfItems := by
  refine .skip fun tuple => ?_
  split
  · refine .skip fun _ =>
      (Stays.loop Expr.spansOfEach (listStep_stays fun known => ofItem_stays inside) rfl).bind
      fun items => .skip fun _ => ?_
    exact .pure fun _ held => (allLie_append.mp held).1
  · exact patternSet_stays.bind fun set => .pure fun _ held => (allLie_append.mp held).1

theorem ofExpr_stays (q : Quantifier Expr) :
    Stays low (Expr.spansOfQuantifier q ++ known) (ofExpr sub q) Expr.spans := by
  refine .skip fun _ => (ofItems_stays inside).bind fun items =>
    (anchor_stays inside).bind fun anchor => ?_
  refine .pointHere fun stop => .pure fun high held => ?_
  simp only [Expr.spans, allLie_cons, allLie_append] at held ⊢
  obtain ⟨stop, anchor, items, quantifier, _⟩ := held
  exact ⟨(quantifier _ q.span_mem_spans).through stop, quantifier, items, anchor⟩

theorem quantifier_stays : Stays low known (quantifier sub) Expr.spansOfQuantifier := by
  refine Stays.peek.token ?_ fun t => ?_
  · exact .skip fun _ => .pointHere fun here => .pure fun _ held =>
      allLie_cons.mpr ⟨(allLie_cons.mp held).1, allLie_nil⟩
  · dsimp only
    split
    · rename_i make word
      refine .skip fun _ => .pure fun _ held => ?_
      exact quantifierWord?_spans word t.span ▸
        allLie_cons.mpr ⟨(allLie_cons.mp held).1, allLie_nil⟩
    · refine (inside _ _).bind fun e => .skip fun percent => ?_
      split
      · exact .pure fun _ held => (allLie_append.mp held).1
      · exact .pure fun _ held => (allLie_append.mp held).1

theorem loopBody_stays : Stays low known (loopBody sub) Expr.spans := by
  refine .skip fun _ => .spanAhead fun start => .skip fun _ => (inside _ _).bind fun e =>
    .skip fun _ => ?_
  refine .pointHere fun stop => .pure fun high held => ?_
  simp only [Expr.spans, allLie_cons, allLie_append] at held ⊢
  obtain ⟨stop, inner, start, _⟩ := held
  exact ⟨start.through stop, inner⟩

theorem iterable_stays : Stays low known (iterable sub) Expr.spansOfIterable := by
  refine (Stays.eat _).token ?_ fun lparen => ?_
  · exact (inside _ _).bind fun e => .pure fun _ held => (allLie_append.mp held).1
  refine (inside _ _).bind fun first => .skip fun dot => ?_
  split
  · refine .skip fun _ => (inside _ _).bind fun upper => .skip fun _ => .pointHere fun stop =>
      .pure fun high held => ?_
    simp only [Expr.spansOfIterable, Expr.spansOfBounds, allLie_cons, allLie_append] at held ⊢
    obtain ⟨stop, upper, lower, start, _⟩ := held
    exact ⟨start.through stop, lower, upper⟩
  · have tuple : ∀ items known, Stays low (Expr.spansOfEach items ++ known)
        (do let _ ← expect (.symbol .rparen); return .tuple items) Expr.spansOfIterable :=
      fun items _ => .skip fun _ => .pure fun _ held => (allLie_append.mp held).1
    have single : ∀ high, AllLie low high (first.spans ++ lparen.span :: known) →
        AllLie low high (Expr.spansOfEach [first] ++ lparen.span :: known) := by
      simp only [Expr.spansOfEach, allLie_append]
      exact fun high held => ⟨⟨held.1, allLie_nil⟩, held.2⟩
    refine .knowing (.skip fun comma => ?_) single
    split
    · exact (Stays.iterate Expr.spansOfEach (listStep_stays fun known => inside known _)
        [first]).bind fun items => tuple items _
    · exact tuple [first] _

theorem forExpr_stays (start : Span) :
    Stays low (start :: known) (forExpr sub start) Expr.spans := by
  refine (quantifier_stays inside).bind fun quantifier => .skip fun is_of => ?_
  split
  · refine patternSet_stays.bind fun set => (loopBody_stays inside).bind fun body =>
      .pointHere fun stop => ?_
    refine .pure fun high held => ?_
    simp only [Expr.spans, allLie_cons, allLie_append] at held ⊢
    obtain ⟨stop, body, set, quantifier, start, _⟩ := held
    exact ⟨start.through stop, quantifier, set, body⟩
  · refine (Stays.loop (·.map Ident.span) variableStep_stays rfl).bind fun vars => .skip fun _ => ?_
    refine (iterable_stays inside).bind fun iterable => (loopBody_stays inside).bind fun body =>
      .pointHere fun stop => ?_
    refine .pure fun high held => ?_
    simp only [Expr.spans, allLie_cons, allLie_append] at held ⊢
    obtain ⟨stop, body, iterable, vars, quantifier, start, _⟩ := held
    exact ⟨start.through stop, quantifier, vars, iterable, body⟩

theorem index?_stays : Stays low known (index? sub) Expr.spansOfIndex := by
  refine .skip fun o => ?_
  cases o with
  | none => exact .pure fun _ _ => allLie_nil
  | some bracket =>
    exact (inside _ _).bind fun e => .skip fun _ => .pure fun _ held => (allLie_append.mp held).1

theorem patternExpr_stays (s : Sigil) (t : Token) :
    Stays low (t.span :: known) (patternExpr sub s t) Expr.spans := by
  have indexed : ∀ make : Option Expr → Span →
      Expr, (∀ index span, (make index span).spans = span :: t.span :: Expr.spansOfIndex index) →
      Stays low (t.span :: known)
        (do let index ← index? sub; return make index (t.span.through (← pointHere)))
        Expr.spans := by
    refine fun make spans => (index?_stays inside).bind fun index => .pointHere fun stop =>
      .pure fun high held => ?_
    simp only [spans, allLie_cons, allLie_append] at held ⊢
    obtain ⟨stop, index, token, _⟩ := held
    exact ⟨token.through stop, token, index⟩
  cases s with
  | identity =>
    refine (anchor_stays inside).bind fun anchor => .pure fun high held => ?_
    simp only [Expr.spans, allLie_cons, allLie_append] at held ⊢
    obtain ⟨anchor, token, _⟩ := held
    exact ⟨anchoredSpan_lies token anchor, token, anchor⟩
  | count =>
    have counted : ∀ range known, Stays low (Expr.spansOfRange range ++ t.span :: known)
        (do return .count (identOf t) range (t.span.through (← pointHere))) Expr.spans := by
      refine fun range _ => .pointHere fun stop => .pure fun high held => ?_
      simp only [Expr.spans, allLie_cons, allLie_append] at held ⊢
      obtain ⟨stop, range, token, _⟩ := held
      exact ⟨token.through stop, token, range⟩
    refine .skip fun o => ?_
    cases o with
    | none => exact counted none known
    | some _ => exact (range_stays inside).bind fun bounds => counted (some bounds) known
  | offset => exact indexed (.offset (identOf t)) fun _ _ => rfl
  | length => exact indexed (.length (identOf t)) fun _ _ => rfl

theorem primary_stays : Stays low known (primary sub) Expr.spans := by
  refine Stays.peek.token ?_ fun t => ?_
  · exact .skip fun _ => .pointHere fun here => .pure fun _ held =>
      allLie_cons.mpr ⟨(allLie_cons.mp held).1, allLie_nil⟩
  have one : ∀ e : Expr, e.spans = [t.span] → Stays low (t.span :: known) (pure e) Expr.spans :=
    fun e spans => .pure fun _ held => spans ▸ allLie_cons.mpr ⟨(allLie_cons.mp held).1, allLie_nil⟩
  dsimp only
  split
  · exact .skip fun _ => .skip fun _ => one _ rfl
  split
  · exact .skip fun _ => .skip fun value => one _ rfl
  · exact .skip fun _ => one _ rfl
  · exact .skip fun _ => patternExpr_stays inside _ t
  · refine .skip fun _ => (inside _ _).bind fun e => .skip fun _ => .pointHere fun stop =>
      .pure fun high held => ?_
    simp only [Expr.spans, allLie_cons, allLie_append] at held ⊢
    obtain ⟨stop, inner, token, _⟩ := held
    exact ⟨token.through stop, inner⟩
  · exact .skip fun _ => forExpr_stays inside t.span
  · split
    · rename_i make word
      have expr : Stays low (Expr.spansOfQuantifier (make t.span) ++ known)
        (ofExpr sub (make t.span)) Expr.spans :=
        ofExpr_stays inside _
      rw [quantifierWord?_spans word] at expr
      exact .skip fun _ => expr
    · refine .skip fun _ => .pure fun _ held => allLie_cons.mpr ⟨?_, allLie_nil⟩
      have token := (allLie_cons.mp held).1
      exact ⟨token.start, token.begun, token.begun⟩

theorem applyLink_stays (e : Expr) (link : Link) :
    Stays low (e.spans ++ known) (applyLink sub e link) Expr.spans := by
  have whole : ∀ {high}, AllLie low high e.spans → e.span.Lies low high :=
    fun spans => spans _ e.span_mem_spans
  cases link with
  | field =>
    refine .skip fun _ => Stays.advance.token (.pure fun _ held => (allLie_append.mp held).1)
      fun t => .pure fun high held => ?_
    simp only [Expr.spans, allLie_cons, allLie_append] at held ⊢
    obtain ⟨token, object, _⟩ := held
    exact ⟨(whole object).through token, token, object⟩
  | lookup =>
    refine .skip fun _ => (inside _ _).bind fun index => .skip fun _ => .pointHere fun stop =>
      .pure fun high held => ?_
    simp only [Expr.spans, allLie_cons, allLie_append] at held ⊢
    obtain ⟨stop, index, object, _⟩ := held
    exact ⟨(whole object).through stop, object, index⟩
  | call =>
    refine .skip fun _ => (arguments_stays inside).bind fun args => .skip fun _ =>
      .pointHere fun stop => ?_
    refine .pure fun high held => ?_
    simp only [Expr.spans, allLie_cons, allLie_append] at held ⊢
    obtain ⟨stop, args, callee, _⟩ := held
    exact ⟨(whole callee).through stop, callee, args⟩

theorem linkStep_stays (depth : Nat) (e : Expr) :
    Stays low (e.spans ++ known) (linkStep sub depth e) fun r => r.value.spans := by
  refine .skip fun o => ?_
  cases o with
  | none => exact .pure fun _ held => (allLie_append.mp held).1
  | some link =>
    refine .skip fun spent => ?_
    split
    · exact .skip fun _ => tooDeep_stays.bind fun e => .pure fun _ held => (allLie_append.mp held).1
    · refine .skip fun _ => .skip fun _ => (applyLink_stays inside e link).bind fun e => ?_
      exact .pure fun _ held => (allLie_append.mp held).1

theorem postfixExpr_stays : Stays low known (postfixExpr sub) Expr.spans := by
  refine (primary_stays inside).bind fun e => .skip fun depth => ?_
  refine (Stays.iterate Expr.spans (linkStep_stays inside depth) e).bind fun e => .skip fun _ => ?_
  exact .pure fun _ held => (allLie_append.mp held).1

theorem prefixed_stays (table : Kind → Option UnaryOp) (level : Level) {bare : Parser Expr}
    (operand : ∀ known, Stays low known bare Expr.spans) :
    Stays low known (prefixed sub table level bare) Expr.spans := by
  refine Stays.peek.token (operand _) fun t => ?_
  dsimp only
  split
  · exact operand _
  · refine .skip fun _ => (inside _ _).bind fun e => .pure fun high held => ?_
    simp only [Expr.spans, allLie_cons, allLie_append] at held ⊢
    obtain ⟨operand, token, _⟩ := held
    exact ⟨token.through (operand _ e.span_mem_spans), operand⟩

theorem signExpr_stays : Stays low known (signExpr sub) Expr.spans :=
  prefixed_stays inside _ _ fun _ => postfixExpr_stays inside

/-- The binary operators that bind tighter than the comparisons. -/
theorem bitOrExpr_stays : Stays low known (bitOrExpr sub) Expr.spans :=
  chain_stays fun _ => chain_stays fun _ => chain_stays fun _ => chain_stays fun _ =>
    chain_stays fun _ =>
    chain_stays fun _ => signExpr_stays inside

theorem comparisonExpr_stays : Stays low known (comparisonExpr sub) Expr.spans := by
  refine (bitOrExpr_stays inside).bind fun lhs => .skip fun is_of => ?_
  split
  · exact ofExpr_stays inside (.count lhs)
  refine .skip fun percent => ?_
  split
  · exact .skip fun _ => ofExpr_stays inside (.percentage lhs)
  · exact chainFrom_stays (fun _ => bitOrExpr_stays inside) lhs

theorem negationExpr_stays : Stays low known (negationExpr sub) Expr.spans :=
  prefixed_stays inside _ _ fun _ => comparisonExpr_stays inside

theorem layer_stays (level : Level) : Stays low known (layer sub level) Expr.spans := by
  cases level with
  | expression => exact chain_stays fun _ => chain_stays fun _ => negationExpr_stays inside
  | negation => exact negationExpr_stays inside
  | bitwise => exact bitOrExpr_stays inside
  | sign => exact signExpr_stays inside

end Layer

theorem nested_stays (budget : Nat) (level : Level) :
    Stays low known (nested budget level) Expr.spans := by
  induction budget generalizing known level with
  | zero => exact tooDeep_stays
  | succ budget ih =>
    refine .skip fun depth => ?_
    split
    · exact tooDeep_stays
    · refine .skip fun _ => .skip fun _ => (layer_stays (fun _ level => ih level) level).bind
        fun e => ?_
      exact .skip fun _ => .skip fun _ => .pure fun _ held => (allLie_append.mp held).1

/-- The spans of a condition lie between where it starts and the end of the
token behind it. -/
theorem expression_stays : Stays low known expression Expr.spans := .skip fun _ => nested_stays _ _

end Grammar

end Parser

end RuleDesk
