import Mathlib.Order.Basic
import RuleDesk.Proofs.Parsing.Cascade
import RuleDesk.Proofs.Parsing.RuleSpans

namespace RuleDesk

/-! ## Where names and the bodies of loops stand

The parts of a condition are read in the order of the text. The span of the body
of a loop goes from the next token to where the parse has come to. In a malformed
text nothing of the body may be read, and the span goes over a token that is not
part of it. This token is no name, since a name is always read. -/

/-- How far a parse has come: what was read stops at `here`, and no name that is
read later starts before `ahead`. -/
structure Frontier where
  here : Nat
  ahead : Nat
  ordered : here ≤ ahead

instance : Preorder Frontier where
  le a b := a.here ≤ b.here ∧ a.ahead ≤ b.ahead
  le_refl a := ⟨Nat.le_refl _, Nat.le_refl _⟩
  le_trans a b c h h' := ⟨Nat.le_trans h.1 h'.1, Nat.le_trans h.2 h'.2⟩

namespace ParseState

/-- Where the next token starts if it is a name, and where it stops otherwise. -/
def nameAhead (s : ParseState) : Nat :=
  match s.next? with
  | none => s.input.here.offset
  | some t => if t.kind = .ident then t.start else t.stop

variable {s t : ParseState} {u : Token}

theorem nameAhead_of_name (next : s.next? = some u) (name : u.kind = .ident) :
    s.nameAhead = u.start := by
  rw [nameAhead, next]
  exact if_pos name

theorem nameAhead_of_other (next : s.next? = some u) (other : u.kind ≠ .ident) :
    s.nameAhead = u.stop := by
  rw [nameAhead, next]
  exact if_neg other

theorem aheadStart_le_nameAhead (s : ParseState) : s.aheadStart ≤ s.nameAhead := by
  unfold aheadStart nameAhead
  cases s.next? with
  | none => exact Nat.le_refl _
  | some u =>
    dsimp only [Option.map_some, Option.getD_some]
    split
    · exact Nat.le_refl _
    · exact Nat.le_add_right _ _

theorem nameAhead_le (next : s.next? = some u) : s.nameAhead ≤ u.stop := by
  by_cases name : u.kind = .ident
  · rw [nameAhead_of_name next name]
    exact Nat.le_add_right _ _
  · exact Nat.le_of_eq (nameAhead_of_other next name)

def frontier (s : ParseState) : Frontier :=
  ⟨s.input.here.offset, s.nameAhead, Nat.le_trans s.here_le_aheadStart s.aheadStart_le_nameAhead⟩

theorem Before.frontier_le (h : s.Before t) : s.frontier ≤ t.frontier := by
  refine ⟨h.here_le, ?_⟩
  cases h.reads with
  | nothing input => exact Nat.le_of_eq (by simp only [frontier, nameAhead, next?, input])
  | @tokens u after later next reaches =>
    obtain ⟨_, stop, _⟩ := Input.ahead_place next
    have first : s.next? = some u := by rw [next?, next]; rfl
    calc s.nameAhead ≤ u.stop := nameAhead_le first
      _ = after.offset := stop.symm
      _ ≤ t.input.here.offset := reaches.offset_le
      _ ≤ t.nameAhead := t.frontier.ordered

/-- A parse that has come further has read all of the token that was ahead. -/
theorem Before.reach_le_here (h : s.Before t) (further : t.unread < s.unread) :
    s.reach ≤ t.input.here.offset := by
  cases next : s.next? with
  | none => exact reach_of_end next ▸ h.here_le
  | some u => exact reach_of_next next ▸ h.stop_le next further

theorem reach_eq_nameAhead (other : s.kindAhead? ≠ some .ident) : s.reach = s.nameAhead := by
  cases next : s.next? with
  | none => rw [reach_of_end next, nameAhead, next]
  | some u =>
    have kind : u.kind ≠ .ident := fun same => other (same ▸ kindAhead?_of_next next)
    rw [reach_of_next next, nameAhead_of_other next kind]

/-- A parse that has read nothing is where it was. -/
theorem Before.input_eq (h : s.Before t) (stays : ¬ t.unread < s.unread) : t.input = s.input := by
  cases h.reads with
  | nothing input => exact input
  | @tokens u after later next reaches =>
    refine absurd ?_ stays
    have first : s.next? = some u := by rw [next?, next]; rfl
    have shorter := advanced_unread_lt first .normal
    rw [advanced, next] at shorter
    have same : (after.enter .normal).rest = after.rest := after.enter_rest .normal
    exact Nat.lt_of_le_of_lt reaches.rest_le
      (by simpa only [unread, take, Input.at, same] using shorter)

end ParseState

/-- Expressions other than names and loops over values. -/
def Expr.isPlain : Expr → Bool
  | .ident _ | .forIn .. => false
  | _ => true

/-- The place of a loop that is read from `low` on: it is read up to its body at
`before`, and `scope` is the span of the body, which is read from `inner` to
`after`. Either all of the span is read, or no name stands in it. -/
structure Frontier.Body (low before inner after : Frontier) (scope : Span) : Prop where
  entered : before ≤ inner
  behind : before.here ≤ scope.start
  passed : low.ahead ≤ scope.start
  opens : scope.start ≤ inner.ahead
  closes : after.here ≤ scope.stop
  ends : scope.stop ≤ after.ahead
  read : scope.stop ≤ after.here ∨ after.here ≤ inner.ahead

/-- Expressions that are read one behind the other, each one with its names and
the bodies of its loops, from one frontier to another. -/
inductive Spread : Frontier → List Expr → Frontier → Prop
  | nil {low high : Frontier} (le : low ≤ high) : Spread low [] high
  | name {low mid high : Frontier} {i : Ident} {rest : List Expr} (le : low ≤ mid)
      (start : low.ahead ≤ i.span.start)
      (wide : i.span.start < i.span.stop) (stop : i.span.stop ≤ mid.here)
      (later : Spread mid rest high) : Spread low (.ident i :: rest) high
  | loop {low before inner after high : Frontier} {quantifier : Quantifier Expr} {vars : List Ident}
      {iterable : Iterable Expr}
      {body : Expr} {span : Span} {rest : List Expr}
      (first : Spread low (quantifier.parts ++ iterable.parts) before)
      (place : low.Body before inner after body.span) (inside : Spread inner [body] after)
      (later : Spread after rest high) :
      Spread low (.forIn quantifier vars iterable body span :: rest) high
  | node {low mid high : Frontier} {e : Expr} {rest : List Expr} (plain : e.isPlain)
      (inside : Spread low e.parts mid) (later : Spread mid rest high) : Spread low (e :: rest) high

namespace Spread

variable {below low mid high above : Frontier} {es more : List Expr} {e : Expr}

theorem le (h : Spread low es high) : low ≤ high := by
  induction h with
  | nil le => exact le
  | name le _ _ _ _ ih => exact le.trans ih
  | loop _ place _ _ first inside later =>
    exact ((first.trans place.entered).trans inside).trans later
  | node _ _ _ inside later => exact inside.trans later

theorem lower (h : Spread low es high) (le : below ≤ low) : Spread below es high := by
  induction h generalizing below with
  | nil further => exact .nil (le.trans further)
  | name further start wide stop later =>
    exact .name (le.trans further) (Nat.le_trans le.2 start) wide stop later
  | loop _ place inside later first =>
    exact .loop (first le) { place with passed := Nat.le_trans le.2 place.passed } inside later
  | node plain _ later inside => exact .node plain (inside le) later

theorem raise (h : Spread low es high) (le : high ≤ above) : Spread low es above := by
  induction h with
  | nil further => exact .nil (further.trans le)
  | name further start wide stop _ ih => exact .name further start wide stop (ih le)
  | loop first place inside _ _ _ ih => exact .loop first place inside (ih le)
  | node plain inside _ _ ih => exact .node plain inside (ih le)

theorem append (h : Spread low es mid) (h' : Spread mid more high) :
    Spread low (es ++ more) high := by
  induction h with
  | nil le => exact h'.lower le
  | name le start wide stop _ ih => exact .name le start wide stop (ih h')
  | loop first place inside _ _ _ ih => exact .loop first place inside (ih h')
  | node plain inside _ _ ih => exact .node plain inside (ih h')

theorem split (es : List Expr) (h : Spread low (es ++ more) high) :
    ∃ mid, Spread low es mid ∧ Spread mid more high := by
  induction es generalizing low with
  | nil => exact ⟨low, .nil le_rfl, h⟩
  | cons e es ih =>
    cases h with
    | name le start wide stop later =>
      obtain ⟨mid, first, last⟩ := ih later
      exact ⟨mid, .name le start wide stop first, last⟩
    | loop head place inside later =>
      obtain ⟨mid, first, last⟩ := ih later
      exact ⟨mid, .loop head place inside first, last⟩
    | node plain inside later =>
      obtain ⟨mid, first, last⟩ := ih later
      exact ⟨mid, .node plain inside first, last⟩

/-- What stands before other expressions, without them. -/
theorem front (h : Spread low (es ++ more) high) : Spread low es high := by
  obtain ⟨mid, first, last⟩ := h.split es
  exact first.raise last.le

/-- What stands behind other expressions, without them. -/
theorem behind (h : Spread low (es ++ more) high) : Spread low more high := by
  obtain ⟨mid, first, last⟩ := h.split es
  exact last.lower first.le

/-- A single expression whose parts are in their places. -/
theorem one (plain : e.isPlain) (h : Spread low e.parts high) : Spread low [e] high :=
  .node plain h (.nil le_rfl)

theorem leaf (plain : e.isPlain) (none : e.parts = []) (le : low ≤ high) : Spread low [e] high :=
  one plain (by rw [none]; exact .nil le)

theorem parts (h : Spread low [e] high) (plain : e.isPlain) : Spread low e.parts high := by
  cases h with
  | name | loop => cases plain
  | node _ inside later => exact inside.raise later.le

end Spread

namespace Parser

/-! ### What a part of the parser reads -/

/-- A part of the parser that reads the expressions in its result, the ones that
are known before it among them. -/
def Spreads (known : List Expr) (p : Parser α) (exprs : α → List Expr) : Prop :=
  ∀ low (s : ParseState), Spread low known s.frontier →
    Spread low (exprs (p.run s).1) (p.run s).2.frontier

namespace Spreads

variable {known : List Expr} {p : Parser α} {f : α → Parser β} {exprs : α → List Expr}
    {exprs' : β → List Expr}

theorem pure {a : α} (h : ∀ low high, Spread low known high → Spread low (exprs a) high) :
    Spreads known (pure a) exprs :=
  fun low s held => h low s.frontier held

/-- What is known is in the result. -/
theorem result {a : α} (same : known = exprs a) : Spreads known (Pure.pure a) exprs :=
  pure fun _ _ held => same ▸ held

/-- What is known are the parts of the result. -/
theorem node {e : Expr} (plain : e.isPlain) (parts : known = e.parts) :
    Spreads known (Pure.pure e) fun e => [e] :=
  pure fun _ _ held => .one plain (parts ▸ held)

theorem bind (h : Spreads [] p exprs) (rest : ∀ a, Spreads (known ++ exprs a) (f a) exprs') :
    Spreads known (p >>= f) exprs' :=
  fun low s held => rest _ low _ (held.append (h _ s (.nil le_rfl)))

/-- What is known is in the result of the first part. -/
theorem next (h : Spreads known p exprs) (rest : ∀ a, Spreads (exprs a) (f a) exprs') :
    Spreads known (p >>= f) exprs' :=
  fun low s held => rest _ low _ (h low s held)

/-- A part without expressions in its result. -/
theorem skip (rest : ∀ a, Spreads known (f a) exprs') : Spreads known (p >>= f) exprs' :=
  fun low s held => rest _ low _ (held.raise (p.forward s).frontier_le)

theorem iterateIn (exprs : α → List Expr) {step : α → Parser (ForInStep α)}
    (steps : ∀ a, Spreads (exprs a) (step a) fun r => exprs r.value) (fuel : Nat) (a : α) :
    Spreads (exprs a) (iterateIn step fuel a) exprs := by
  induction fuel generalizing a with
  | zero => exact result rfl
  | succ fuel ih =>
    intro low s held
    have first := steps a low s held
    rw [Parser.iterateIn, run_bind]
    generalize (step a).run s = entry at first ⊢
    obtain ⟨r, t⟩ := entry
    cases r with
    | done b => exact first
    | yield b => exact ih b low t first

theorem iterate (exprs : α → List Expr) {step : α → Parser (ForInStep α)}
    (steps : ∀ a, Spreads (exprs a) (step a) fun r => exprs r.value) (a : α) :
    Spreads (exprs a) (iterate step a) exprs := skip fun _ => iterateIn exprs steps _ a

end Spreads

/-! ### The grammar -/

section Grammar

variable {known : List Expr}

theorem tooDeep_spreads : Spreads [] tooDeep fun e => [e] := by
  intro low s held
  have step := (tooDeep.forward s).frontier_le
  rw [run_tooDeep] at step ⊢
  exact .leaf rfl rfl (held.le.trans step)

/-- A node for one more operand has it as its last part. -/
theorem append?_spread {low high : Frontier} {lhs rhs e : Expr} {op : BinaryOp}
    (h : lhs.append? op rhs = some e)
    (operands : Spread low ([lhs] ++ [rhs]) high) : Spread low [e] high := by
  unfold Expr.append? at h
  split at h
  · rename_i op' operands' span
    split at h
    · obtain rfl := Option.some.inj h
      obtain ⟨mid, first, last⟩ := operands.split [_]
      exact .one rfl ((first.parts rfl).append last)
    · cases h
  · cases h

theorem chainStep_spreads {operator : Parser (Option BinaryOp)} {operand : Parser Expr}
    (inner : Spreads [] operand fun e => [e])
    (lhs : Expr × Bool) : Spreads [lhs.1] (chainStep operator operand lhs) fun r =>
    [r.value.1] := by
  obtain ⟨lhs, chained⟩ := lhs
  refine .skip fun o => ?_
  cases o with
  | none => exact .result rfl
  | some op =>
    refine .skip fun _ => inner.bind fun rhs => ?_
    dsimp only
    split
    · rename_i e appended
      refine .pure fun low high held => ?_
      split at appended
      · exact append?_spread appended held
      · cases appended
    · have pair : Spreads [lhs, rhs] (pure (.yield (Expr.pair op lhs rhs, true))) fun r :
        ForInStep (Expr × Bool) => [r.value.1] :=
        .pure fun _ _ held => .one rfl held
      split
      · refine .skip fun depth => ?_
        split
        · exact tooDeep_spreads.bind fun e => .pure fun _ _ held => held.behind
        · exact .skip fun _ => .skip fun _ => pair
      · exact pair

theorem chainFrom_spreads {operator : Parser (Option BinaryOp)} {operand : Parser Expr}
    (inner : Spreads [] operand fun e => [e])
    (lhs : Expr) : Spreads [lhs] (chainFrom lhs operator operand) fun e => [e] := by
  intro low s held
  exact Spreads.iterate (fun c : Expr × Bool => [c.1]) (chainStep_spreads inner)
    (lhs, false) low s held

theorem chain_spreads {operator : Parser (Option BinaryOp)} {operand : Parser Expr}
    (inner : Spreads [] operand fun e => [e]) :
    Spreads [] (chain operator operand) fun e => [e] :=
  inner.bind fun lhs => chainFrom_spreads inner lhs

theorem listStep_spreads {item : Parser Expr} (inner : Spreads [] item fun e => [e])
    (es : List Expr) :
    Spreads es (listStep item es) ForInStep.value := by
  refine inner.bind fun e => .skip fun o => ?_
  split
  · exact .result rfl
  · exact .result rfl

theorem list_spreads {item : Parser Expr} (inner : Spreads [] item fun e => [e]) (es : List Expr) :
    Spreads es (iterate (listStep item) es) id := Spreads.iterate id (listStep_spreads inner) es

theorem quantifierWord?_parts {k : Kind} {make : Span → Quantifier Expr}
    (h : quantifierWord? k = some make) (s : Span) :
    (make s).parts = [] := by
  unfold quantifierWord? at h
  split at h <;> cases h <;> rfl

section Layer

variable {sub : Level → Parser Expr} (inner : ∀ level, Spreads [] (sub level) fun e => [e])

include inner

theorem range_spreads : Spreads [] (range sub) Bounds.parts := by
  refine .skip fun start => .skip fun _ => (inner _).bind fun lower => .skip fun _ => ?_
  exact (inner _).bind fun upper => .skip fun _ => .skip fun stop => .result rfl

theorem anchor_spreads : Spreads [] (anchor sub) Anchor.parts := by
  refine .skip fun is_at => ?_
  split
  · exact (inner _).bind fun e => .result rfl
  refine .skip fun is_in => ?_
  split
  · exact (range_spreads inner).bind fun bounds => .result rfl
  · exact .result rfl

theorem arguments_spreads : Spreads [] (arguments sub) id := by
  refine .skip fun closed => ?_
  split
  · exact .result rfl
  · exact list_spreads (inner _) []

theorem ofItem_spreads : Spreads [] (ofItem sub) fun e => [e] := by
  refine .skip fun o => ?_
  cases o with
  | none => exact inner _
  | some t => exact .skip fun _ => .skip fun _ => .node rfl rfl

theorem ofItems_spreads : Spreads [] (ofItems sub) OfItems.parts := by
  refine .skip fun tuple => ?_
  split
  · refine .skip fun _ => (list_spreads (ofItem_spreads inner) []).bind fun items =>
      .skip fun _ => ?_
    exact .result rfl
  · exact .skip fun set => .result rfl

theorem ofExpr_spreads (q : Quantifier Expr) : Spreads q.parts (ofExpr sub q) fun e => [e] := by
  refine .skip fun _ => (ofItems_spreads inner).bind fun items =>
    (anchor_spreads inner).bind fun anchor => .skip fun stop => ?_
  exact .node rfl (List.append_assoc ..)

theorem quantifier_spreads : Spreads [] (quantifier sub) Quantifier.parts := by
  refine .skip fun o => ?_
  cases o with
  | none => exact .skip fun _ => .skip fun here => .pure fun _ _ held => .leaf rfl rfl held.le
  | some t =>
    dsimp only
    split
    · rename_i make word
      exact .skip fun _ => .result (quantifierWord?_parts word t.span).symm
    · refine (inner _).bind fun e => .skip fun percent => ?_
      split
      · exact .result rfl
      · exact .result rfl

theorem loopBody_spreads : Spreads [] (loopBody sub) fun e => [e] := by
  refine .skip fun _ => .skip fun start => .skip fun _ => (inner _).bind fun e => .skip fun _ =>
    .skip fun stop => ?_
  exact .node rfl rfl

theorem iterable_spreads : Spreads [] (iterable sub) Iterable.parts := by
  refine .skip fun o => ?_
  cases o with
  | none => exact (inner _).bind fun e => .result rfl
  | some lparen =>
    refine (inner _).bind fun first => .skip fun dot => ?_
    split
    · refine .skip fun _ => (inner _).bind fun upper => .skip fun _ => .skip fun stop => ?_
      exact .result rfl
    · have tuple : ∀ items,
        Spreads items (do let _ ← expect (.symbol .rparen); return .tuple items) Iterable.parts :=
        fun items => .skip fun _ => .result rfl
      refine .skip fun comma => ?_
      split
      · exact fun low s held => tuple _ low _ (list_spreads (inner _) [first] low s held)
      · exact tuple [first]

theorem index?_spreads : Spreads [] (index? sub) Option.toList := by
  refine .skip fun o => ?_
  cases o with
  | none => exact .result rfl
  | some bracket => exact (inner _).bind fun e => .skip fun _ => .result rfl

theorem patternExpr_spreads (k : Sigil) (t : Token) :
    Spreads [] (patternExpr sub k t) fun e => [e] := by
  cases k with
  | identity => exact (anchor_spreads inner).bind fun anchor => .node rfl rfl
  | count =>
    have counted : ∀ range : Option (Bounds Expr), Spreads (range.elim [] Bounds.parts)
        (do return Expr.count (identOf t) range (t.span.through (← pointHere))) fun e => [e] :=
      fun range => .skip fun stop => .node rfl rfl
    refine .skip fun o => ?_
    cases o with
    | none => exact counted none
    | some _ => exact (range_spreads inner).bind fun bounds => counted (some bounds)
  | offset => exact (index?_spreads inner).bind fun index => .skip fun stop => .node rfl rfl
  | length => exact (index?_spreads inner).bind fun index => .skip fun stop => .node rfl rfl

theorem applyLink_spreads (e : Expr) (link : Link) :
    Spreads [e] (applyLink sub e link) fun e => [e] := by
  cases link with
  | field =>
    refine .skip fun _ => .skip fun o => ?_
    cases o with
    | none => exact .result rfl
    | some t => exact .node rfl rfl
  | lookup =>
    exact .skip fun _ => (inner _).bind fun index => .skip fun _ => .skip fun stop => .node rfl rfl
  | call =>
    exact .skip fun _ => (arguments_spreads inner).bind fun args => .skip fun _ => .skip fun stop =>
      .node rfl rfl

theorem linkStep_spreads (depth : Nat) (e : Expr) :
    Spreads [e] (linkStep sub depth e) fun r => [r.value] := by
  refine .skip fun o => ?_
  cases o with
  | none => exact .result rfl
  | some link =>
    refine .skip fun spent => ?_
    split
    · exact .skip fun _ => tooDeep_spreads.bind fun e' => .pure fun _ _ held => held.behind
    · refine .skip fun _ => .skip fun _ low s held => ?_
      exact applyLink_spreads inner e link low s held

end Layer

/-! ### Loops -/

/-- A part of the parser that reads an expression behind its keyword: what was
known before the keyword is kept. -/
def SpreadsBehind (known : List Expr) (p : Parser Expr) : Prop :=
  ∀ low (s : ParseState), Spread low known s.frontier → low.ahead ≤ s.input.here.offset →
    Spread low [(p.run s).1] (p.run s).2.frontier

namespace SpreadsBehind

variable {p : Parser α} {f : α → Parser Expr} {exprs : α → List Expr}

theorem bind (h : Spreads [] p exprs) (rest : ∀ a, SpreadsBehind (known ++ exprs a) (f a)) :
    SpreadsBehind known (p >>= f) :=
  fun low s held passed =>
    rest _ low _ (held.append (h _ s (.nil le_rfl))) (Nat.le_trans passed (p.forward s).here_le)

theorem skip (rest : ∀ a, SpreadsBehind known (f a)) : SpreadsBehind known (p >>= f) :=
  fun low s held passed =>
    rest _ low _ (held.raise (p.forward s).frontier_le) (Nat.le_trans passed (p.forward s).here_le)

end SpreadsBehind

/-- Where a name is ahead. -/
def atName (s : ParseState) : Prop := s.kindAhead? = some .ident

theorem atToken_of_name {s : ParseState} (h : atName s) : atToken s := by
  obtain ⟨t, next, _⟩ := ParseState.kindAhead?_eq_some h
  exact ⟨t, next⟩

/-- A part of the parser that reads something where a name is ahead. -/
def TakesName (p : Parser α) : Prop := Consumes atName p fun _ => True

namespace TakesName

variable {p : Parser α} {f : α → Parser β}

theorem first (h : TakesName p) : TakesName (p >>= f) :=
  Consumes.first h fun _ nothing => (nothing trivial).elim

/-- Behind what only looks, and behind another part that may have read something. -/
theorem second (rest : ∀ a, TakesName (f a))
    (stays : ∀ s, atName s → atName (p.run s).2 ∨ (p.run s).2.unread < s.unread) :
    TakesName (p >>= f) := by
  intro s name _
  have later := ((f (p.run s).1).forward (p.run s).2).unread_le
  rcases stays s name with still | taken
  · exact Nat.lt_of_lt_of_le (rest _ _ still trivial) (p.forward s).unread_le
  · exact Nat.lt_of_le_of_lt later taken

theorem look {g : ParseState → α} (run : ∀ s, p.run s = (g s, s)) (rest : ∀ a, TakesName (f a)) :
    TakesName (p >>= f) :=
  second rest fun s name => .inl (by rwa [run])

end TakesName

theorem tooDeep_takes : TakesName tooDeep := by
  have skip : Consumes atName (skipStep ()) fun _ => True := by
    refine .second (m := fun sync s => sync = false ∧ atToken s) (fun s name => ?_) fun sync => ?_
    · rw [run_atSyncPoint]
      exact ⟨congrArg (Option.all isSyncKind) name, atToken_of_name name⟩
    · rintro s ⟨rfl, token⟩
      exact (show Consumes atToken (advance >>= fun _ => pure (ForInStep.yield ())) fun _ => True
        from .read) s token
  exact .look run_spanAhead fun start => .first (iterate_consumes skip _)

theorem expect_stays {k : Kind} (other : k ≠ .ident) {s : ParseState} (name : atName s) :
    atName ((expect k).run s).2 := by
  have none : s.kindAhead? ≠ some k := fun same => other (Option.some.inj (same.symm.trans name))
  rw [expect, run_bind, run_eat, if_neg none]
  dsimp only
  rw [run_bind, run_unexpected]
  split <;> exact name

/-- The group that is the body of a loop, behind the colon. -/
def loopGroup (sub : Level → Parser Expr) (start : Span) : Parser Expr := do
  let _ ← expect (.symbol .lparen)
  let e ← sub .expression
  let _ ← expect (.symbol .rparen)
  return .group e (start.through (← pointHere))

/-- The span of what is read from one state to another goes on over the next
token, if nothing is read. -/
theorem body_place {low : Frontier} {s t u : ParseState} (passed : low.ahead ≤ s.input.here.offset)
    (entered : s.Before t) (inside : t.Before u)
    (taken : atName t → u.unread < t.unread) :
    low.Body s.frontier t.frontier u.frontier ⟨t.aheadStart, max u.input.here.offset t.reach⟩ := by
  have behind : s.input.here.offset ≤ t.aheadStart :=
    Nat.le_trans entered.here_le t.here_le_aheadStart
  by_cases further : u.unread < t.unread
  · have stop : max u.input.here.offset t.reach = u.input.here.offset :=
      Nat.max_eq_left (inside.reach_le_here further)
    rw [stop]
    refine ⟨entered.frontier_le, behind, Nat.le_trans passed behind, t.aheadStart_le_nameAhead,
      Nat.le_refl _, ?_, .inl (Nat.le_refl _)⟩
    exact u.frontier.ordered
  · -- nothing was read, so the next token is no name and stays ahead
    have input := inside.input_eq further
    have here : u.input.here.offset = t.input.here.offset := by rw [input]
    have ahead : u.nameAhead = t.nameAhead := by
      simp only [ParseState.nameAhead, ParseState.next?, input]
    have reach : t.reach = u.nameAhead :=
      (ParseState.reach_eq_nameAhead fun name => further (taken name)).trans ahead.symm
    refine ⟨entered.frontier_le, behind, Nat.le_trans passed behind, t.aheadStart_le_nameAhead,
      Nat.le_max_left _ _, ?_, .inr ?_⟩
    · exact Nat.max_le.mpr ⟨u.frontier.ordered, Nat.le_of_eq reach⟩
    · exact Nat.le_trans (Nat.le_of_eq here) t.frontier.ordered

section Layer

variable {sub : Level → Parser Expr} (inner : ∀ level, Spreads [] (sub level) fun e => [e])
    (takes : TakesName (sub .expression))

include inner takes

theorem loopBody_body {low : Frontier} {s : ParseState}
    (passed : low.ahead ≤ s.input.here.offset) : ∃ inner,
    low.Body s.frontier inner ((loopBody sub).run s).2.frontier ((loopBody sub).run s).1.span ∧
      Spread inner [((loopBody sub).run s).1] ((loopBody sub).run s).2.frontier := by
  have entered := (expect (.symbol .colon)).forward s
  have run : (loopBody sub).run s =
      (loopGroup sub ((((expect (.symbol .colon)).run s).2.next?.map (·.span)).getD
      (.point ((expect (.symbol .colon)).run s).2.input.here.offset))).run
        ((expect (.symbol .colon)).run s).2 := by
    rw [loopBody, run_bind, run_bind, run_spanAhead]
    rfl
  rw [run]
  generalize ((expect (.symbol .colon)).run s).2 = t at entered ⊢
  have start :
      (t.next?.map (·.span)).getD (.point t.input.here.offset) = ⟨t.aheadStart, t.reach⟩ := by
    unfold ParseState.aheadStart
    cases next : t.next? with
    | none => rw [ParseState.reach_of_end next]; rfl
    | some u => rw [ParseState.reach_of_next next]; rfl
  rw [start]
  have read : Spreads [] (loopGroup sub ⟨t.aheadStart, t.reach⟩) fun e => [e] :=
    .skip fun _ => (inner _).bind fun e => .skip fun _ => .skip fun stop => .node rfl rfl
  have taken : TakesName (loopGroup sub ⟨t.aheadStart, t.reach⟩) :=
    .second (fun _ => takes.first) fun s name => .inl (expect_stays (by decide) name)
  exact ⟨t.frontier, body_place passed entered ((loopGroup sub _).forward t)
    (fun name => taken t name trivial), read _ t (.nil le_rfl)⟩

/-- A loop behind its keyword. -/
theorem forExpr_spreads (start : Span) : SpreadsBehind [] (forExpr sub start) := by
  refine .bind (quantifier_spreads inner) fun q => .skip fun o => ?_
  split
  · have overPatterns : Spreads q.parts (do
        let set ← patternSet
        let body ← loopBody sub
        return .forOf q set body (start.through (← pointHere))) fun e => [e] :=
      .skip fun set => (loopBody_spreads inner).bind fun body => .skip fun stop => .node rfl rfl
    exact fun low s held _ => overPatterns low s held
  · refine .skip fun vars => .skip fun _ =>
      .bind (iterable_spreads inner) fun iterable low s held passed => ?_
    obtain ⟨frontier, place, inside⟩ := loopBody_body inner takes passed
    exact .loop held place inside (.nil le_rfl)

theorem primary_spreads : Spreads [] (primary sub) fun e => [e] := by
  intro low s held
  rw [primary, run_bind, run_peek]
  have missing : Spreads [] (do unexpected .expression; return .error (← pointHere)) fun e => [e] :=
    .skip fun _ => .skip fun here => .node rfl rfl
  cases next : s.next? with
  | none => exact missing low s held
  | some t =>
    have le := held.le.trans (advance.forward s).frontier_le
    rw [run_advance] at le
    have stop := ParseState.advanced_here next .normal
    dsimp only
    split
    · rename_i a _
      have atom : Spreads [] (do let _ ← advance; reportOpen t; return .atom a t.span)
        fun e => [e] :=
        .skip fun _ => .skip fun _ => .node rfl rfl
      exact atom low s held
    split
    · have integer : Spreads [] (do let _ ← advance; return .integer (← integerValue t) t.span)
        fun e => [e] :=
        .skip fun _ => .skip fun value => .node rfl rfl
      exact integer low s held
    · rename_i kind
      have start : low.ahead ≤ t.start := ParseState.nameAhead_of_name next kind ▸ held.le.2
      rw [run_bind, run_advance]
      exact .name le start (ParseState.next?_wide next) (Nat.le_of_eq stop.symm) (.nil le_rfl)
    · rename_i k _
      have pattern : Spreads [] (do let _ ← advance; patternExpr sub k t) fun e => [e] :=
        .skip fun _ => patternExpr_spreads inner k t
      exact pattern low s held
    · have group : Spreads [] (do
          let _ ← advance
          let e ← sub .expression
          let _ ← expect (.symbol .rparen)
          return .group e (t.span.through (← pointHere))) fun e => [e] :=
        .skip fun _ => (inner _).bind fun e => .skip fun _ => .skip fun stop => .node rfl rfl
      exact group low s held
    · rename_i kind
      have passed : low.ahead ≤ t.stop :=
        ParseState.nameAhead_of_other next (by rw [kind]; nofun) ▸ held.le.2
      rw [run_bind, run_advance]
      exact forExpr_spreads inner takes t.span low _ (.nil le) (stop ▸ passed)
    · split
      · rename_i make word
        have none : (make t.span).parts = [] := quantifierWord?_parts word t.span
        have counted : Spreads [] (do let _ ← advance; ofExpr sub (make t.span)) fun e => [e] :=
          .skip fun _ => none ▸ ofExpr_spreads inner (make t.span)
        exact counted low s held
      · have nothing : Spreads [] (do unexpected .expression; return .error (.point t.start))
          fun e => [e] :=
          .skip fun _ => .node rfl rfl
        exact nothing low s held

theorem postfixExpr_spreads : Spreads [] (postfixExpr sub) fun e => [e] := by
  refine (primary_spreads inner takes).bind fun e => .skip fun depth low s held => ?_
  have links := Spreads.iterate (fun e : Expr => [e]) (linkStep_spreads inner depth) e low s held
  exact links

omit takes in
theorem prefixed_spreads (table : Kind → Option UnaryOp) (level : Level) {bare : Parser Expr}
    (operand : Spreads [] bare fun e => [e]) :
    Spreads [] (prefixed sub table level bare) fun e => [e] := by
  refine .skip fun o => ?_
  cases o with
  | none => exact operand
  | some t =>
    dsimp only
    split
    · exact operand
    · exact .skip fun _ => (inner _).bind fun e => .node rfl rfl

theorem signExpr_spreads : Spreads [] (signExpr sub) fun e => [e] :=
  prefixed_spreads inner _ _ (postfixExpr_spreads inner takes)

theorem bitOrExpr_spreads : Spreads [] (bitOrExpr sub) fun e => [e] :=
  chain_spreads (chain_spreads
    (chain_spreads (chain_spreads (chain_spreads (chain_spreads (signExpr_spreads inner takes))))))

theorem comparisonExpr_spreads : Spreads [] (comparisonExpr sub) fun e => [e] := by
  refine (bitOrExpr_spreads inner takes).bind fun lhs => .skip fun is_of => ?_
  split
  · exact ofExpr_spreads inner (.count lhs)
  refine .skip fun percent => ?_
  split
  · exact .skip fun _ => ofExpr_spreads inner (.percentage lhs)
  · exact chainFrom_spreads (bitOrExpr_spreads inner takes) lhs

theorem negationExpr_spreads : Spreads [] (negationExpr sub) fun e => [e] :=
  prefixed_spreads inner _ _ (comparisonExpr_spreads inner takes)

theorem layer_spreads (level : Level) : Spreads [] (layer sub level) fun e => [e] := by
  cases level with
  | expression => exact chain_spreads (chain_spreads (negationExpr_spreads inner takes))
  | negation => exact negationExpr_spreads inner takes
  | bitwise => exact bitOrExpr_spreads inner takes
  | sign => exact signExpr_spreads inner takes

omit inner takes

/-- A name is an operand, whatever may nest. -/
theorem primary_takes : TakesName (primary sub) := by
  intro s name _
  obtain ⟨t, next, kind⟩ := ParseState.kindAhead?_eq_some name
  have read : Consumes atToken (do let _ ← advance; return Expr.ident (identOf t)) fun _ =>
      True := .read
  rw [primary, run_bind, run_peek, next]
  dsimp only
  rw [kind]
  exact read s ⟨t, next⟩ trivial

theorem prefixed_takes {table : Kind → Option UnaryOp} (other : table .ident = none) (level : Level)
    {bare : Parser Expr} (h : TakesName bare) : TakesName (prefixed sub table level bare) := by
  intro s name _
  obtain ⟨t, next, kind⟩ := ParseState.kindAhead?_eq_some name
  rw [prefixed, run_bind, run_peek, next]
  dsimp only
  rw [kind, other]
  exact h s name trivial

theorem chain_takes {operator : Parser (Option BinaryOp)} {operand : Parser Expr}
    (h : TakesName operand) :
    TakesName (chain operator operand) := h.first

theorem signExpr_takes : TakesName (signExpr sub) := prefixed_takes rfl _ primary_takes.first

theorem bitOrExpr_takes : TakesName (bitOrExpr sub) :=
  chain_takes (chain_takes (chain_takes (chain_takes (chain_takes (chain_takes signExpr_takes)))))

theorem negationExpr_takes : TakesName (negationExpr sub) :=
  prefixed_takes rfl _ bitOrExpr_takes.first

theorem layer_takes (level : Level) : TakesName (layer sub level) := by
  cases level with
  | expression => exact chain_takes (chain_takes negationExpr_takes)
  | negation => exact negationExpr_takes
  | bitwise => exact bitOrExpr_takes
  | sign => exact signExpr_takes

end Layer

theorem nested_takes (budget : Nat) (level : Level) : TakesName (nested budget level) := by
  cases budget with
  | zero => exact tooDeep_takes
  | succ budget =>
    refine .look run_getDepth fun depth => ?_
    split
    · exact tooDeep_takes
    · exact .look run_getDepth fun depth => .second (fun _ => (layer_takes level).first)
        fun s name => .inl name

theorem nested_spreads (budget : Nat) (level : Level) :
    Spreads [] (nested budget level) fun e => [e] := by
  induction budget generalizing level with
  | zero => exact tooDeep_spreads
  | succ budget ih =>
    refine .skip fun depth => ?_
    split
    · exact tooDeep_spreads
    · refine .skip fun _ => .skip fun _ => (layer_spreads ih (nested_takes budget _) level).bind
        fun e => ?_
      exact .skip fun _ => .skip fun _ => .result rfl

theorem expression_spreads : Spreads [] expression fun e => [e] := .skip fun _ => nested_spreads _ _

end Grammar

/-! ### Rules -/

/-- The condition of a rule that is read, if it has one already. -/
def conditionOf (r : Rule) : List Expr := r.condition.toList

def conditionsOf (rules : List Rule) : List Expr := rules.flatMap conditionOf

theorem conditionsOf_singleton (r : Rule) : conditionsOf [r] = conditionOf r :=
  List.flatMap_singleton ..

theorem conditionsOf_append (rules more : List Rule) :
    conditionsOf (rules ++ more) = conditionsOf rules ++ conditionsOf more :=
  List.flatMap_append

theorem sectionContent_spreads (kind : SectionKind) (duplicate : Bool) (r : Rule) :
    Spreads (conditionOf r) (sectionContent kind duplicate r) conditionOf := by
  cases kind with
  | metas | strings => exact .skip fun _ => .result rfl
  | condition =>
    refine expression_spreads.bind fun e => ?_
    cases duplicate with
    | true => exact .pure fun _ _ held => held.front
    | false => exact .pure fun _ _ held => held.behind

theorem ruleSection_spreads (kind : SectionKind) (r : Rule) :
    Spreads (conditionOf r) (ruleSection kind r) conditionOf := by
  refine .skip fun o => ?_
  cases o with
  | none => exact .result rfl
  | some keyword =>
    exact .skip fun head => (sectionContent_spreads kind _ r).next fun q => .skip fun stop =>
      .result rfl

theorem bodyStep_spreads (r : Rule) :
    Spreads (conditionOf r) (bodyStep r) fun r => conditionOf r.value := by
  refine .skip fun o => ?_
  cases o with
  | none => exact .skip fun _ => .result rfl
  | some t =>
    dsimp only
    split
    · exact .skip fun _ => .result rfl
    split
    · exact .skip fun _ => (ruleSection_spreads _ r).next fun q => .result rfl
    refine .skip fun item => ?_
    split
    · exact .skip fun _ => .result rfl
    · exact .skip fun _ => .skip fun _ => .result rfl

theorem ruleAfterKeyword_spreads (start : Nat) (flags : RuleFlags) :
    Spreads [] (ruleAfterKeyword start flags) conditionOf := by
  have head : Spreads [] (ruleHead flags) conditionOf :=
    .skip fun ident => .skip fun tags => .skip fun lbrace => .result rfl
  refine head.next fun r => (Spreads.iterate conditionOf bodyStep_spreads r).next fun r =>
    .skip fun stop => ?_
  split
  · exact .skip fun _ => .result rfl
  · exact .result rfl

theorem ruleItem_spreads : Spreads [] ruleItem fun o => conditionsOf o.toList := by
  refine .skip fun o => ?_
  cases o with
  | none => exact .result rfl
  | some t =>
    refine .skip fun flags => .skip fun o => ?_
    cases o with
    | none => exact .result rfl
    | some keyword =>
      exact (ruleAfterKeyword_spreads t.start flags).next fun r =>
        .result (conditionsOf_singleton r).symm

theorem itemStep_spreads (items : Items) :
    Spreads (conditionsOf items.rules) (itemStep items) fun r => conditionsOf r.value.rules := by
  refine .skip fun o => ?_
  split
  · exact .result rfl
  · exact .skip fun _ => .skip fun _ => .result rfl
  · exact .skip fun _ => .skip fun _ => .result rfl
  · split
    · exact .skip fun _ => ruleItem_spreads.bind fun o => .result (conditionsOf_append ..).symm
    · exact .skip fun _ => .skip fun _ => .result rfl

end Parser

/-- The conditions of a text, malformed or not, stand in it one behind the other. -/
theorem parse_spreads (text : List Char) :
    ∃ low high, Spread low (Parser.conditionsOf (parse text).rules) high :=
  ⟨_, _, Parser.Spreads.iterate (fun items : Parser.Items => Parser.conditionsOf items.rules)
    Parser.itemStep_spreads ⟨[], [], []⟩ (Parser.initial text).frontier _ (.nil le_rfl)⟩

end RuleDesk
