import RuleDesk.Proofs.Lexing.Boundaries
import RuleDesk.Proofs.Parsing.State

namespace RuleDesk

/-- The number of characters that are not read yet. -/
def ParseState.unread (s : ParseState) : Nat := s.input.here.rest.length

namespace Cursor

theorem skipTrivia_rest_lt {fuel : Nat} {c after : Cursor} {t : Token}
    (h : skipTrivia fuel c = some (t, after)) : after.rest.length < c.rest.length := by
  induction fuel generalizing c with
  | zero => cases h
  | succ fuel ih =>
    unfold skipTrivia at h
    split at h
    · cases h
    · rename_i u between read
      have first := next?_rest_lt read
      split at h
      · exact Nat.lt_trans (ih h) first
      · cases h
        exact first

end Cursor

namespace ParseState

variable {s t : ParseState}

theorem Before.reaches (h : s.Before t) : s.input.here.Reaches t.input.here := by
  cases h.reads with
  | nothing input => exact input ▸ .refl _
  | tokens later next reaches =>
    obtain ⟨_, _, step⟩ := Input.ahead_place next
    exact step.trans reaches

theorem Before.here_le (h : s.Before t) : s.input.here.offset ≤ t.input.here.offset :=
  h.reaches.offset_le

theorem Before.unread_le (h : s.Before t) : t.unread ≤ s.unread := h.reaches.rest_le

/-- The next token stands behind all that was read. -/
theorem next?_start {u : Token} (h : s.next? = some u) : s.input.here.offset ≤ u.start := by
  obtain ⟨after, ahead⟩ := next?_eq_some h
  exact (Input.ahead_place ahead).1

theorem advanced_here {u : Token} (h : s.next? = some u) (mode : Mode) :
    (s.advanced mode).input.here.offset = u.stop := by
  obtain ⟨after, ahead⟩ := next?_eq_some h
  have place := (Input.ahead_place ahead).2.1
  simpa only [advanced, ahead, take, Input.at, Cursor.enter_offset] using place

theorem advanced_unread_lt {u : Token} (h : s.next? = some u) (mode : Mode) :
    (s.advanced mode).unread < s.unread := by
  obtain ⟨after, ahead⟩ := next?_eq_some h
  have shorter := Cursor.skipTrivia_rest_lt (s.input.ahead_eq.symm.trans ahead)
  simpa only [unread, advanced, ahead, take, Input.at, Cursor.enter_rest] using shorter

end ParseState

namespace Parser

/-- From states in `pre`, a part of the parser reads something whenever its
result is in `post`. -/
def Consumes (pre : ParseState → Prop) (p : Parser α) (post : α → Prop) : Prop :=
  ∀ s, pre s → post (p.run s).1 → (p.run s).2.unread < s.unread

/-- Any state. -/
def anywhere (_ : ParseState) : Prop := True

/-- Where a token is ahead. -/
def atToken (s : ParseState) : Prop := ∃ t, s.next? = some t

section Consumes

variable {pre : ParseState → Prop} {p : Parser α} {f : α → Parser β} {post : β → Prop}

theorem Consumes.done {b : β} (h : ¬ post b) : Consumes pre (pure b) post :=
  fun _ _ holds => (h holds).elim

theorem Consumes.restrict {pre' : ParseState → Prop} {post : α → Prop} (h : Consumes pre p post)
    (fewer : ∀ s, pre' s → pre s) : Consumes pre' p post :=
  fun s start => h s (fewer s start)

/-- Something is read by the first part, or else by what follows. -/
theorem Consumes.first {read : α → Prop} (h : Consumes pre p read)
    (rest : ∀ a, ¬ read a → Consumes anywhere (f a) post) : Consumes pre (p >>= f) post := by
  intro s start holds
  have later := ((f (p.run s).1).forward (p.run s).2).unread_le
  by_cases taken : read (p.run s).1
  · exact Nat.lt_of_le_of_lt later (h s start taken)
  · exact Nat.lt_of_lt_of_le (rest _ taken _ trivial holds) (p.forward s).unread_le

/-- Something is read by what follows the first part. -/
theorem Consumes.second {m : α → ParseState → Prop} (fact : ∀ s, pre s → m (p.run s).1 (p.run s).2)
    (rest : ∀ a, Consumes (m a) (f a) post) : Consumes pre (p >>= f) post := by
  intro s start holds
  exact Nat.lt_of_lt_of_le (rest _ _ (fact s start) holds) (p.forward s).unread_le

theorem Consumes.later (rest : ∀ a, Consumes anywhere (f a) post) : Consumes pre (p >>= f) post :=
  .second (fun _ _ => trivial) rest

theorem Consumes.peek {f : Option Token → Parser β} (none : Consumes anywhere (f none) post)
    (some : ∀ t, Consumes atToken (f (some t)) post) : Consumes pre (peek >>= f) post := by
  refine .second (m := fun o s => s.next? = o) (fun _ _ => rfl) fun o => ?_
  cases o with
  | none => exact fun s _ => none s trivial
  | some t => exact fun s h => some t s ⟨t, h⟩

theorem advanceInto_consumes (mode : Mode) (post : Option Token → Prop) :
    Consumes atToken (advanceInto mode) post := by
  intro s ⟨t, next⟩ _
  rw [run_advanceInto]
  exact ParseState.advanced_unread_lt next mode

theorem advance_consumes (post : Option Token → Prop) : Consumes atToken advance post :=
  advanceInto_consumes .normal post

theorem eat_consumes (k : Kind) : Consumes pre (eat k) (·.isSome) := by
  intro s _ taken
  rw [run_eat] at taken ⊢
  split at taken
  · rename_i ahead
    obtain ⟨t, next, _⟩ := ParseState.kindAhead?_eq_some ahead
    rw [if_pos ahead]
    exact ParseState.advanced_unread_lt next .normal
  · cases taken

theorem expect_consumes (k : Kind) : Consumes pre (expect k) (·.isSome) := by
  refine (eat_consumes k).first fun a nothing => ?_
  cases a with
  | some t => exact (nothing rfl).elim
  | none => exact .later fun _ => .done (fun none => nomatch none)

end Consumes

/-- A step of a loop reads something whenever the loop goes on. -/
def Progress (step : α → Parser (ForInStep α)) : Prop :=
  ∀ a, Consumes anywhere (step a) fun r => ∃ b, r = .yield b

theorem done_ne_yield {a : α} : ¬ ∃ b, ForInStep.done a = .yield b := fun ⟨_, eq⟩ => nomatch eq

/-- Where a loop starts with a token that it takes or else ends. -/
theorem Consumes.eat_or_done {f : Option Token → Parser (ForInStep α)} {k : Kind} {a : α}
    (none : f none = pure (.done a)) : Consumes anywhere (eat k >>= f) fun r => ∃ b,
    r = .yield b := by
  refine (eat_consumes k).first fun o nothing => ?_
  cases o with
  | some t => exact (nothing rfl).elim
  | none => rw [none]; exact .done done_ne_yield

theorem Consumes.expect_or_done {f : Option Token → Parser (ForInStep α)} {k : Kind} {a : α}
    (none : f none = pure (.done a)) : Consumes anywhere (expect k >>= f) fun r => ∃ b,
    r = .yield b := by
  refine (expect_consumes k).first fun o nothing => ?_
  cases o with
  | some t => exact (nothing rfl).elim
  | none => rw [none]; exact .done done_ne_yield

theorem Consumes.read {f : Option Token → Parser β} {post : β → Prop} :
    Consumes atToken (advance >>= f) post :=
  (advance_consumes fun _ => True).first fun _ nothing => (nothing trivial).elim

theorem metaStep_progress : Progress metaStep := fun _ => .eat_or_done rfl

theorem tagStep_progress : Progress tagStep := fun _ => .eat_or_done rfl

theorem setItemStep_progress : Progress setItemStep := fun _ => .expect_or_done rfl

theorem variableStep_progress : Progress variableStep := fun _ => .expect_or_done rfl

theorem listStep_progress (item : Parser Expr) : Progress (listStep item) := by
  refine fun items => .later fun e => (eat_consumes _).first fun o nothing => ?_
  rw [if_neg nothing]
  exact .done done_ne_yield

theorem ahead_or_token (s : ParseState) : s.kindAhead? = none ∨ atToken s := by
  cases next : s.next? with
  | none => exact .inl (by rw [ParseState.kindAhead?, next]; rfl)
  | some t => exact .inr ⟨t, next⟩

theorem skipStep_progress : Progress skipStep := by
  intro u
  refine .second (m := fun b s => b = s.kindAhead?.all isSyncKind) (fun _ _ => rfl) fun b => ?_
  split
  · exact .done done_ne_yield
  · rename_i go_on
    refine Consumes.read.restrict fun s ahead =>
      (ahead_or_token s).resolve_left fun none => go_on ?_
    rw [ahead, none]
    rfl

theorem argumentStep_progress : Progress argumentStep := by
  intro u
  refine .second (m := fun b s => b = true ∨ atToken s) (fun s _ => ?_) fun ended => ?_
  · rw [run_atArgumentsEnd]
    refine (ahead_or_token s).imp_left fun none => ?_
    rw [none]
    rfl
  split
  · exact .done done_ne_yield
  · rename_i go_on
    exact Consumes.read.restrict fun s start => start.resolve_left go_on

/-- An operator is looked for and not read, and there is none at the end. -/
def Peeks (p : Parser (Option α)) : Prop :=
  ∀ s, (p.run s).2 = s ∧ ∀ a, (p.run s).1 = some a → atToken s

theorem operatorOf_peeks (table : Kind → Option BinaryOp) : Peeks (operatorOf table) := by
  refine fun s => ⟨rfl, fun op found => ?_⟩
  obtain ⟨k, ahead, _⟩ :=
    Option.bind_eq_some_iff.mp (show s.kindAhead?.bind table = some op from found)
  obtain ⟨t, next, _⟩ := ParseState.kindAhead?_eq_some ahead
  exact ⟨t, next⟩

/-- True at a `%` that belongs to a quantifier. -/
def percentOf (s : ParseState) : Bool :=
  s.kindAhead? == some (.symbol .percent) && s.kindBeyond? == some (.keyword .kwOf)

theorem run_atPercentOf (s : ParseState) : atPercentOf.run s = (percentOf s, s) := by
  rw [atPercentOf, run_bind, run_atKind, percentOf]
  cases s.kindAhead? == some (.symbol .percent) <;> rfl

/-- The operator of a product at the next token. -/
def productAhead (s : ParseState) : Option BinaryOp :=
  if percentOf s then none else s.kindAhead?.bind productOperator

theorem run_productOperatorAhead (s : ParseState) :
    productOperatorAhead.run s = (productAhead s, s) := by
  rw [productOperatorAhead, run_bind, run_atPercentOf, productAhead]
  cases percentOf s <;> rfl

theorem productOperatorAhead_peeks : Peeks productOperatorAhead := by
  intro s
  rw [run_productOperatorAhead, productAhead]
  refine ⟨rfl, fun op found => ?_⟩
  split at found
  · cases found
  · exact (operatorOf_peeks productOperator s).2 op found

theorem chainStep_progress {operator : Parser (Option BinaryOp)} (h : Peeks operator)
    (operand : Parser Expr) :
    Progress (chainStep operator operand) := by
  rintro ⟨lhs, chained⟩
  refine .second (m := fun o s => ∀ op, o = some op → atToken s) (fun s _ => ?_) fun o => ?_
  · rw [(h s).1]
    exact (h s).2
  cases o with
  | none => exact .done done_ne_yield
  | some op => exact Consumes.read.restrict fun s start => start op rfl

theorem linkAhead_peeks : Peeks linkAhead := by
  intro s
  simp only [linkAhead, run_bind, run_peekKind]
  cases ahead : s.kindAhead? with
  | none => exact ⟨rfl, fun _ none => nomatch none⟩
  | some k =>
    obtain ⟨t, next, _⟩ := ParseState.kindAhead?_eq_some ahead
    exact ⟨by split <;> rfl, fun _ _ => ⟨t, next⟩⟩

theorem applyLink_consumes (sub : Level → Parser Expr) (e : Expr) (link : Link)
    (post : Expr → Prop) :
    Consumes atToken (applyLink sub e link) post := by
  cases link <;> exact .read

theorem linkStep_progress (sub : Level → Parser Expr) (depth : Nat) :
    Progress (linkStep sub depth) := by
  refine fun e => .second (m := fun o s => ∀ link, o = some link → atToken s) (fun s _ => ?_)
    fun o => ?_
  · rw [(linkAhead_peeks s).1]
    exact (linkAhead_peeks s).2
  cases o with
  | none => exact .done done_ne_yield
  | some link =>
    refine .second (m := fun _ s => atToken s) (fun s start => start link rfl) fun spent => ?_
    split
    · exact .later fun _ => .later fun _ => .done done_ne_yield
    refine .second (m := fun _ s => atToken s) (fun s start => start) fun _ => ?_
    refine .second (m := fun _ s => atToken s) (fun s start => start) fun _ => ?_
    exact (applyLink_consumes sub e link fun _ => True).first fun _ nothing =>
      (nothing trivial).elim

theorem modifierStep_progress : Progress modifierStep := by
  refine fun modifiers => .peek (.done done_ne_yield) fun t => ?_
  refine .second (m := fun _ s => atToken s) (fun s start => ?_) fun bare => ?_
  · rw [run_isBareModifier]
    exact start
  split
  · exact .read
  split
  · exact .read
  · exact .done done_ne_yield

theorem declaration_consumes (t : Token) (patterns : List Pattern)
    (post : ForInStep (List Pattern) → Prop) :
    Consumes atToken (declaration t patterns) post := .read

theorem dropDeclaration_consumes (t : Token) (patterns : List Pattern)
    (post : ForInStep (List Pattern) → Prop) :
    Consumes atToken (dropDeclaration t patterns) post :=
  .second (m := fun _ s => atToken s) (fun _ start => start) fun _ => .read

theorem patternStep_progress : Progress patternStep := by
  refine fun patterns => .peek (.done done_ne_yield) fun t => ?_
  dsimp only
  split
  · exact declaration_consumes t patterns _
  refine .second (m := fun _ s => atToken s) (fun s start => ?_) fun misnamed => ?_
  · rw [run_declaresMisnamed]
    exact start
  split
  · exact dropDeclaration_consumes t patterns _
  · exact .done done_ne_yield

theorem hexStep_progress (lbrace : Span) : Progress (hexStep lbrace) := by
  intro progress
  cases progress with
  | ended stop => exact .done done_ne_yield
  | within parens =>
    refine .peek (.later fun _ => .later fun _ => .done done_ne_yield) fun t => ?_
    dsimp only
    split
    · exact .read
    split
    · exact (advanceInto_consumes .jump fun _ => True).first fun _ nothing => (nothing trivial).elim
    split
    · exact .read
    split
    · exact .read
    split
    · exact .read
    split
    · exact .read
    refine .later fun sync => ?_
    split
    · exact .later fun _ => .later fun _ => .done done_ne_yield
    refine .later fun _ => .later fun _ => .later fun o => ?_
    cases o with
    | some rbrace => exact .done done_ne_yield
    | none => exact .later fun _ => .done done_ne_yield

theorem flagStep_progress : Progress flagStep := by
  refine fun flags => .peek (.done done_ne_yield) fun t => ?_
  dsimp only
  split
  · exact .read
  split
  · exact .read
  · exact .done done_ne_yield

theorem ruleSection_consumes (kind : SectionKind) (rule : Rule) (post : Rule → Prop) :
    Consumes atToken (ruleSection kind rule) post := .read

theorem bodyStep_progress : Progress bodyStep := by
  refine fun rule => .peek (.later fun _ => .done done_ne_yield) fun t => ?_
  dsimp only
  split
  · exact .read
  split
  · refine .second (m := fun _ s => atToken s) (fun _ start => start) fun _ => ?_
    exact (ruleSection_consumes _ _ fun _ => True).first fun _ nothing => (nothing trivial).elim
  refine .second (m := fun _ s => atToken s) (fun s start => ?_) fun item => ?_
  · rw [run_atTopLevelItem]
    exact start
  split
  · exact .later fun _ => .done done_ne_yield
  refine .second (m := fun _ s => atToken s) (fun s start => ?_) fun _ => .read
  rw [run_unexpected]
  split <;> exact start

/-- A loop that ends at once has the result of its step. -/
theorem run_iterate_done {step : α → Parser (ForInStep α)} {a b : α} {s t : ParseState}
    (h : (step a).run s = (.done b, t)) : (iterate step a).run s = (b, t) := by
  simp only [iterate, run_bind, run_look, iterateIn, h, run_pure]

/-- Where every round reads something, any fuel will do that is enough for the
text left. -/
theorem run_iterateIn_fuel {step : α → Parser (ForInStep α)} (progress : Progress step) {n m : Nat}
    {a : α} {s : ParseState}
    (enough : s.unread < n) (enough' : s.unread < m) :
    (iterateIn step n a).run s = (iterateIn step m a).run s := by
  induction n generalizing m a s with
  | zero => exact absurd enough (Nat.not_lt_zero _)
  | succ n ih =>
    obtain ⟨m, rfl⟩ : ∃ k, m = k + 1 := ⟨m - 1, by omega⟩
    have shorter := progress a s trivial
    simp only [iterateIn, run_bind]
    generalize (step a).run s = r at shorter ⊢
    obtain ⟨r, t⟩ := r
    cases r with
    | done b => rfl
    | yield b =>
      have less : t.unread < s.unread := shorter ⟨b, rfl⟩
      exact ih (Nat.lt_of_lt_of_le less (Nat.le_of_lt_succ enough))
        (Nat.lt_of_lt_of_le less (Nat.le_of_lt_succ enough'))

/-- A loop that goes on comes to what it comes to from its second round. -/
theorem run_iterate_yield {step : α → Parser (ForInStep α)} (progress : Progress step) {a b : α}
    {s t : ParseState}
    (h : (step a).run s = (.yield b, t)) : (iterate step a).run s = (iterate step b).run t := by
  have shorter := progress a s trivial
  rw [h] at shorter
  have less : t.unread < s.unread := shorter ⟨b, rfl⟩
  have first : (iterate step a).run s = (iterateIn step s.unread b).run t := by
    simp only [iterate, run_bind, run_look, iterateIn, h]
    rfl
  exact first.trans (run_iterateIn_fuel progress less (Nat.lt_succ_self t.unread))

/-- A loop ends where a step of it does. -/
theorem run_iterate_ends {step : α → Parser (ForInStep α)} (progress : Progress step) (a : α)
    (s : ParseState) :
    ∃ b t, (step b).run t = (.done ((iterate step a).run s).1, ((iterate step a).run s).2) := by
  induction size : s.unread using Nat.strongRecOn generalizing a s with
  | _ size ih =>
    have shorter := progress a s trivial
    cases first : (step a).run s with
    | mk r t =>
      rw [first] at shorter
      cases r with
      | done b => exact ⟨a, s, by rw [run_iterate_done first, first]⟩
      | yield b =>
        rw [run_iterate_yield progress first]
        exact ih t.unread (size ▸ shorter ⟨b, rfl⟩) b t rfl

/-! ### Parts of the parser between two states -/

/-- From the states in `pre`, a part of the parser comes to a result and a
state in `post`. -/
def Ensures (pre : ParseState → Prop) (p : Parser α) (post : α → ParseState → Prop) : Prop :=
  ∀ s, pre s → post (p.run s).1 (p.run s).2

namespace Ensures

variable {pre : ParseState → Prop} {p : Parser α} {f : α → Parser β} {post : β → ParseState → Prop}

theorem pure {b : β} (h : ∀ s, pre s → post b s) : Ensures pre (pure b) post := h

theorem bind {between : α → ParseState → Prop} (h : Ensures pre p between)
    (rest : ∀ a, Ensures (between a) (f a) post) :
    Ensures pre (p >>= f) post := fun s start => rest _ _ (h s start)

/-- What later states keep is kept. -/
theorem keeps (kept : ∀ s t : ParseState, s.Before t → pre s → pre t) :
    Ensures pre p fun _ => pre :=
  fun s start => kept s _ (p.forward s) start

/-- What a round of a loop comes to: the loop is over or goes on. -/
def round (during finished : α → ParseState → Prop) : ForInStep α → ParseState → Prop
  | .done a => finished a
  | .yield a => during a

/-- A loop keeps an invariant until it ends. -/
theorem iterate {step : α → Parser (ForInStep α)} {during finished : α → ParseState → Prop}
    (progress : Progress step)
    (steps : ∀ a, Ensures (during a) (step a) (round during finished)) (a : α) :
    Ensures (during a) (iterate step a) finished := by
  intro s start
  induction size : s.unread using Nat.strongRecOn generalizing a s with
  | _ size ih =>
    have next := steps a s start
    have shorter := progress a s trivial
    cases first : (step a).run s with
    | mk r t =>
      rw [first] at next shorter
      cases r with
      | done b =>
        rw [run_iterate_done first]
        exact next
      | yield b =>
        rw [run_iterate_yield progress first]
        exact ih t.unread (size ▸ shorter ⟨b, rfl⟩) b t next rfl

end Ensures

theorem iterate_consumes {step : α → Parser (ForInStep α)} {a : α} {pre : ParseState → Prop}
    (h : Consumes pre (step a) fun _ => True) (post : α → Prop) :
    Consumes pre (iterate step a) post := by
  intro s start _
  rw [iterate, run_bind, run_look]
  refine Nat.lt_of_le_of_lt ?_ (h s start trivial)
  simp only [iterateIn, run_bind]
  generalize (step a).run s = r
  obtain ⟨r, t⟩ := r
  cases r with
  | done b => exact Nat.le_refl _
  | yield b => exact ((iterateIn step _ b).forward t).unread_le

theorem flagStep_consumes (flags : RuleFlags) :
    Consumes (fun s => s.kindAhead? = some (.keyword .kwPrivate) ∨
      s.kindAhead? = some (.keyword .kwGlobal)) (flagStep flags) fun _ => True := by
  refine .second (m := fun o s => ∃ t, o = some t ∧ s.next? = some t ∧
    (t.kind = .keyword .kwPrivate ∨ t.kind = .keyword .kwGlobal)) (fun s start => ?_) fun o => ?_
  · rw [run_peek]
    rcases start with ahead | ahead
    · obtain ⟨t, next, kind⟩ := ParseState.kindAhead?_eq_some ahead
      exact ⟨t, next, next, .inl kind⟩
    · obtain ⟨t, next, kind⟩ := ParseState.kindAhead?_eq_some ahead
      exact ⟨t, next, next, .inr kind⟩
  · rintro s ⟨t, rfl, next, kind⟩ _
    have read : ∀ f : Option Token → Parser (ForInStep RuleFlags),
      Consumes atToken (advance >>= f) fun _ => True :=
      fun f => .read
    dsimp only
    rcases kind with kind | kind
    · rw [if_pos kind]
      exact read _ s ⟨t, next⟩ trivial
    · rw [if_neg (by rw [kind]; decide), if_pos kind]
      exact read _ s ⟨t, next⟩ trivial

theorem flagStep_done {s : ParseState} (h : s.kindAhead? = some (.keyword .kwRule))
    (flags : RuleFlags) :
    (flagStep flags).run s = (.done flags, s) := by
  obtain ⟨t, next, kind⟩ := ParseState.kindAhead?_eq_some h
  rw [flagStep, run_bind, run_peek, next]
  dsimp only
  rw [if_neg (by rw [kind]; decide), if_neg (by rw [kind]; decide)]
  rfl

/-- Kinds of tokens that start a rule. -/
def startsRule (k : Kind) : Prop := k = .keyword .kwRule ∨ k = .keyword .kwPrivate ∨
  k = .keyword .kwGlobal

theorem run_expect {s : ParseState} {k : Kind} (h : s.kindAhead? = some k) :
    (expect k).run s = (s.next?, s.advanced .normal) := by
  obtain ⟨t, next, _⟩ := ParseState.kindAhead?_eq_some h
  rw [expect, run_bind, run_eat, if_pos h, next]
  rfl

theorem ruleItem_consumes (post : Option Rule → Prop) :
    Consumes (fun s => ∃ k, s.kindAhead? = some k ∧ startsRule k) ruleItem post := by
  rintro s ⟨k, ahead, kind⟩ _
  obtain ⟨t, next, rfl⟩ := ParseState.kindAhead?_eq_some ahead
  rw [ruleItem, run_bind, run_peek, next]
  rcases kind with rule | flag
  · rw [run_bind, run_iterate_done (flagStep_done (rule ▸ ahead) _), run_bind,
      run_expect (rule ▸ ahead)]
    exact Nat.lt_of_le_of_lt (Parser.forward _ _).unread_le
      (ParseState.advanced_unread_lt next .normal)
  · have modifier : s.kindAhead? = some (.keyword .kwPrivate) ∨
        s.kindAhead? = some (.keyword .kwGlobal) := by
      rw [ahead]
      exact flag.imp (congrArg some) (congrArg some)
    have flags :=
      iterate_consumes (flagStep_consumes ⟨false, false⟩) (fun _ => True) s modifier trivial
    rw [run_bind]
    exact Nat.lt_of_le_of_lt (Parser.forward _ _).unread_le flags

/-- The top level ends where no token is left. -/
theorem itemStep_done {items items' : Items} {s t : ParseState}
    (h : (itemStep items).run s = (.done items', t)) :
    s.next? = none ∧ t = s := by
  rw [itemStep, run_bind, run_peekKind] at h
  cases ahead : s.kindAhead? with
  | none =>
    rw [ahead] at h
    exact ⟨Option.map_eq_none_iff.mp ahead, (congrArg Prod.snd h).symm⟩
  | some k =>
    rw [ahead] at h
    exfalso
    split at h
    · rename_i none
      cases none
    · cases congrArg Prod.fst h
    · cases congrArg Prod.fst h
    · rw [run_ite] at h
      split at h <;> cases congrArg Prod.fst h

theorem itemStep_progress : Progress itemStep := by
  intro items
  have token : ∀ {k : Kind} (s : ParseState), s.kindAhead? = some k → atToken s := fun s ahead => by
    obtain ⟨t, next, _⟩ := ParseState.kindAhead?_eq_some ahead
    exact ⟨t, next⟩
  refine .second (m := fun o s => s.kindAhead? = o) (fun _ _ => rfl) fun o => ?_
  split
  · exact .done done_ne_yield
  · refine .second (m := fun _ s => atToken s) (fun s start => token s start) fun _ => ?_
    exact (show Consumes atToken importItem fun _ => True from .read).first fun _ nothing =>
      (nothing trivial).elim
  · refine .second (m := fun _ s => atToken s) (fun s start => token s start) fun _ => ?_
    exact (show Consumes atToken includeItem fun _ => True from .read).first fun _ nothing =>
      (nothing trivial).elim
  · rename_i k _ _
    split
    · rename_i kind
      refine .second (m := fun _ s => s.kindAhead? = some k) (fun _ start => start) fun _ => ?_
      refine ((ruleItem_consumes fun _ => True).restrict fun s start => ⟨k, start, kind⟩).first ?_
      exact fun _ nothing => (nothing trivial).elim
    · refine .second (m := fun _ s => atToken s) (fun s start => ?_) fun _ => .read
      rw [run_unexpected]
      split <;> exact token s start

end Parser

end RuleDesk
