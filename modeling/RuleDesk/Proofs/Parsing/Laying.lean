import RuleDesk.Proofs.Parsing.Frames

namespace RuleDesk

/-- The spans that an error points at. -/
def SyntaxError.spans (e : SyntaxError) : List Span :=
  e.span :: match e.fault with
    | .duplicatePattern _ existing => [existing]
    | _ => []

namespace ParseState

/-- A state that the parse of a text may be in. Panic mode has a reason that was
reported, and all the errors so far point into the text. -/
structure Sane (text : List Char) (s : ParseState) : Prop where
  place : (Cursor.start text).Reaches s.input.here
  honest : s.panicking = true → s.errors ≠ []
  errors : ∀ e ∈ s.errors, ∀ x ∈ e.spans, x.Fits text

namespace Sane

variable {text : List Char} {s t : ParseState}

theorem boundary (h : s.Sane text) : IsBoundary text s.input.here.offset := h.place.boundary

theorem textStop (h : s.Sane text) : IsBoundary text s.textStop := by
  obtain ⟨front, split, place⟩ := h.place
  refine ⟨front ++ s.input.here.rest, [], ?_, ?_⟩
  · rw [List.append_nil]
    exact split
  · rw [byteLength_append, ParseState.textStop, place]
    exact congrArg (· + _) (Nat.zero_add _).symm

theorem found (h : s.Sane text) {u : Token} (next : s.next? = some u) :
    u.FoundAt text s.input.here.offset := by
  obtain ⟨after, ahead⟩ := next?_eq_some next
  have solid := s.input.ahead_eq ▸ ahead
  exact ⟨next?_start next, h.place.standsAt solid, Cursor.nextSolid?_nonempty solid⟩

/-- What is read between two states. -/
theorem between (h : s.Sane text) (h' : t.Sane text) (step : s.Before t) :
    (Span.mk s.input.here.offset t.input.here.offset).Fits text :=
  .mk_of step.here_le h.boundary h'.boundary

theorem advanced (h : s.Sane text) (mode : Mode) : (s.advanced mode).Sane text := by
  have step := (Parser.advanceInto mode).forward s
  rw [Parser.run_advanceInto] at step
  refine ⟨h.place.trans step.reaches, fun panicking => ?_, ?_⟩
  · rw [advanced_panicking] at panicking
    rw [advanced_errors]
    exact h.honest panicking
  · rw [advanced_errors]
    exact h.errors

theorem reported (h : s.Sane text) {e : SyntaxError} (fits : ∀ x ∈ e.spans, x.Fits text) :
    (s.reported e).Sane text :=
  ⟨h.place, fun _ => s.reported_ne_nil e,
    List.forall_mem_append.mpr ⟨h.errors, List.forall_mem_singleton.mpr fits⟩⟩

end Sane

end ParseState

namespace Parser

/-- Where a part of the parser that starts at an offset lays its result: `post`
says so of the offset where it stops and of the result. The whole parse can only
be `clean` if no error has been reported so far. -/
def Lays (text : List Char) (clean : Prop) (n : Nat) (pre : ParseState → Prop) (p : Parser α)
    (post : Nat → α → Prop) : Prop :=
  ∀ s, s.Sane text → s.input.here.offset = n → pre s → (clean → (p.run s).2.errors = []) →
    (p.run s).2.Sane text ∧ post (p.run s).2.input.here.offset (p.run s).1

namespace Lays

variable {text : List Char} {clean : Prop} {n : Nat} {pre : ParseState → Prop} {p : Parser α}
  {f : α → Parser β} {post : Nat → α → Prop} {post' : Nat → β → Prop}

theorem restrict {pre' : ParseState → Prop} (h : Lays text clean n pre p post)
    (fewer : ∀ s, pre' s → pre s) :
    Lays text clean n pre' p post := fun s sane place start => h s sane place (fewer s start)

theorem «at» (h : Lays text clean n anywhere p post) : Lays text clean n pre p post :=
  h.restrict fun _ _ => trivial

theorem weaken {weaker : Nat → α → Prop} (h : Lays text clean n pre p post)
    (follows : ∀ m a, post m a → weaker m a) :
    Lays text clean n pre p weaker := fun s sane place start quiet =>
  (h s sane place start quiet).imp_right (follows _ _)

theorem pure {a : α} (h : post n a) : Lays text clean n pre (pure a) post := by
  rintro s sane rfl _ _
  exact ⟨sane, h⟩

/-- One part after the other. -/
theorem «then» (h : Lays text clean n pre p post)
    (rest : ∀ a m, (Span.mk n m).Fits text → post m a → Lays text clean m anywhere (f a) post') :
    Lays text clean n pre (p >>= f) post' := by
  intro s sane place start quiet
  have later := (f (p.run s).1).forward (p.run s).2
  obtain ⟨sane', holds⟩ := h s sane place start fun yes => later.no_errors (quiet yes)
  exact rest _ _ (place ▸ sane.between sane' (p.forward s)) holds _ sane' rfl trivial quiet

/-- A part that reads nothing before another one. -/
theorem still {known : α → Prop} (h : Lays text clean n pre p fun m a => m = n ∧ known a)
    (rest : ∀ a, known a → Lays text clean n anywhere (f a) post') :
    Lays text clean n pre (p >>= f) post' := by
  refine h.then ?_
  rintro a m _ ⟨rfl, holds⟩
  exact rest a holds

/-- A look at the state, by which nothing is read. -/
theorem look {g : ParseState → α} (run : ∀ s, p.run s = (g s, s))
    (rest : ∀ a, Lays text clean n (fun s => pre s ∧ g s = a) (f a) post') :
    Lays text clean n pre (p >>= f) post' := by
  intro s sane place start quiet
  rw [run_bind, run] at quiet ⊢
  exact rest (g s) s sane place ⟨start, rfl⟩ quiet

/-- A look when it does not matter what is seen. -/
theorem glance {g : ParseState → α} (run : ∀ s, p.run s = (g s, s))
    (rest : ∀ a, Lays text clean n pre (f a) post') :
    Lays text clean n pre (p >>= f) post' :=
  look run fun a => (rest a).restrict fun _ start => start.1

theorem peek {f : Option Token → Parser β} (none : Lays text clean n anywhere (f none) post')
    (some : ∀ t : Token, t.FoundAt text n →
    Lays text clean n (·.next? = some t) (f (some t)) post') :
    Lays text clean n pre (Parser.peek >>= f) post' := by
  rintro s sane rfl start
  rw [run_bind, run_peek]
  cases next : s.next? with
  | none => exact none s sane rfl trivial
  | some t => exact some t (sane.found next) s sane rfl next

theorem lastStop {f : Nat → Parser β}
    (rest : IsBoundary text n → Lays text clean n pre (f n) post') :
    Lays text clean n pre (Parser.lastStop >>= f) post' := by
  rintro s sane rfl
  exact rest sane.boundary s sane rfl

theorem pointHere {f : Span → Parser β}
    (rest : IsBoundary text n → Lays text clean n pre (f (.point n)) post') :
    Lays text clean n pre (Parser.pointHere >>= f) post' := by
  rintro s sane rfl
  exact rest sane.boundary s sane rfl

theorem setDepth (depth : Nat) :
    Lays text clean n pre (Parser.setDepth depth) fun m _ => m = n ∧ True := by
  rintro s sane rfl _ _
  exact ⟨⟨sane.place, sane.honest, sane.errors⟩, rfl, trivial⟩

theorem setPanicking_false :
    Lays text clean n pre (setPanicking false) fun m _ => m = n ∧ True := by
  rintro s sane rfl _ _
  exact ⟨⟨sane.place, nofun, sane.errors⟩, rfl, trivial⟩

/-- A parse that reports an error is not clean. -/
theorem report {fault : SyntaxFault} {span : Span}
    (fits : ∀ x ∈ SyntaxError.spans ⟨fault, span⟩, x.Fits text) :
    Lays text clean n pre (Parser.report fault span) fun m _ => m = n ∧ ¬ clean := by
  rintro s sane rfl _ quiet
  exact ⟨sane.reported fits, rfl, fun yes => s.reported_ne_nil _ (quiet yes)⟩

/-- An error that points at one place only. -/
theorem reportAt {fault : SyntaxFault} {span : Span}
    (plain : SyntaxError.spans ⟨fault, span⟩ = [span]) (fits : span.Fits text) :
    Lays text clean n pre (Parser.report fault span) fun m _ => m = n ∧ ¬ clean :=
  report (plain ▸ List.forall_mem_singleton.mpr fits)

theorem unexpected (expected : Expectation) :
    Lays text clean n pre (Parser.unexpected expected) fun m _ => m = n ∧ ¬ clean := by
  rintro s sane rfl _ quiet
  rw [run_unexpected] at quiet ⊢
  cases panicking : s.panicking with
  | true =>
    rw [panicking] at quiet
    exact ⟨sane, rfl, fun yes => sane.honest panicking (quiet yes)⟩
  | false =>
    rw [panicking] at quiet
    have fits : ∀ x ∈ (s.unexpectedError expected).spans, x.Fits text := by
      unfold ParseState.unexpectedError
      cases next : s.next? with
      | none => exact List.forall_mem_singleton.mpr (.point sane.textStop)
      | some t =>
        have plain : SyntaxError.spans ⟨faultOf t expected, t.span⟩ = [t.span] := by
          simp only [SyntaxError.spans, faultOf]
          cases t.kind <;> rfl
        exact plain ▸ List.forall_mem_singleton.mpr (sane.found next).stands.fits
    have reported := sane.reported fits
    have failed : (s.panicked (s.unexpectedError expected)).errors ≠ [] := s.reported_ne_nil _
    exact ⟨⟨reported.place, fun _ => failed, reported.errors⟩, rfl, fun yes => failed (quiet yes)⟩

/-- The token that is ahead is read, if there is one. -/
theorem advanceInto {f : Option Token → Parser β} {mode : Mode}
    (none : Lays text clean n anywhere (f none) post')
    (some : ∀ t : Token, t.FoundAt text n → Lays text clean t.stop anywhere (f (some t)) post') :
    Lays text clean n pre (Parser.advanceInto mode >>= f) post' := by
  rintro s sane rfl start
  rw [run_bind, run_advanceInto]
  cases next : s.next? with
  | none =>
    rw [ParseState.advanced_of_none next]
    exact none s sane rfl trivial
  | some t =>
    exact some t (sane.found next) _ (sane.advanced mode)
      (ParseState.advanced_here next mode) trivial

theorem advance {f : Option Token → Parser β} (none : Lays text clean n anywhere (f none) post')
    (some : ∀ t : Token, t.FoundAt text n → Lays text clean t.stop anywhere (f (some t)) post') :
    Lays text clean n pre (Parser.advance >>= f) post' := advanceInto none some

/-- For what does not depend on the token that is read. -/
theorem pass {p : Parser β} (rest : ∀ m, n ≤ m → Lays text clean m anywhere p post') :
    Lays text clean n pre (Parser.advance >>= fun _ => p) post' :=
  advance (rest n (Nat.le_refl n)) fun _ found => rest _ found.stop

/-- The token that was looked at is read. -/
theorem readInto {f : Option Token → Parser β} {mode : Mode} {t : Token}
    (rest : Lays text clean t.stop anywhere (f (some t)) post') :
    Lays text clean n (·.next? = some t) (Parser.advanceInto mode >>= f) post' := by
  rintro s sane rfl next
  rw [run_bind, run_advanceInto, next]
  exact rest _ (sane.advanced mode) (ParseState.advanced_here next mode) trivial

theorem readNext {f : Option Token → Parser β} {t : Token}
    (rest : Lays text clean t.stop anywhere (f (some t)) post') :
    Lays text clean n (·.next? = some t) (Parser.advance >>= f) post' := readInto rest

theorem eatFrom {f : Option Token → Parser β} {k : Kind}
    (none : Lays text clean n pre (f none) post')
    (some : ∀ s t, pre s → s.next? = some t → t.FoundAt text n →
    Lays text clean t.stop anywhere (f (some t)) post') :
    Lays text clean n pre (Parser.eat k >>= f) post' := by
  rintro s sane rfl start
  rw [run_bind, run_eat]
  split
  · rename_i ahead
    obtain ⟨t, next, _⟩ := ParseState.kindAhead?_eq_some ahead
    rw [next]
    exact some s t start next (sane.found next) _ (sane.advanced .normal)
      (ParseState.advanced_here next .normal) trivial
  · exact none s sane rfl start

theorem eat {f : Option Token → Parser β} {k : Kind} (none : Lays text clean n pre (f none) post')
    (some : ∀ t : Token, t.FoundAt text n → Lays text clean t.stop anywhere (f (some t)) post') :
    Lays text clean n pre (Parser.eat k >>= f) post' := eatFrom none fun _ t _ _ => some t

theorem expectFrom {f : Option Token → Parser β} {k : Kind}
    (none : ¬ clean → Lays text clean n anywhere (f none) post')
    (some : ∀ s t, pre s → s.next? = some t → t.FoundAt text n →
    Lays text clean t.stop anywhere (f (some t)) post') :
    Lays text clean n pre (Parser.expect k >>= f) post' := by
  have expected : Lays text clean n pre (Parser.expect k) fun m o =>
      (m = n ∧ o = Option.none ∧ ¬ clean) ∨
      ∃ s t, pre s ∧ s.next? = Option.some t ∧ t.FoundAt text n ∧ m = t.stop ∧
        o = Option.some t := by
    refine eatFrom ((unexpected _).still fun _ dirty => .pure (.inl ⟨rfl, rfl, dirty⟩))
      fun s t start next found => ?_
    exact .pure (.inr ⟨s, t, start, next, found, rfl, rfl⟩)
  refine expected.then ?_
  rintro _ _ _ (⟨rfl, rfl, dirty⟩ | ⟨s, t, start, next, found, rfl, rfl⟩)
  · exact none dirty
  · exact some s t start next found

theorem expect {f : Option Token → Parser β} {k : Kind}
    (none : ¬ clean → Lays text clean n anywhere (f none) post')
    (some : ∀ t : Token, t.FoundAt text n → Lays text clean t.stop anywhere (f (some t)) post') :
    Lays text clean n pre (Parser.expect k >>= f) post' := expectFrom none fun _ t _ _ => some t

/-- For what does not depend on the token that is expected. -/
theorem demand {p : Parser β} {k : Kind} (rest : ∀ m, n ≤ m → Lays text clean m anywhere p post') :
    Lays text clean n pre (Parser.expect k >>= fun _ => p) post' :=
  expect (fun _ => rest n (Nat.le_refl n)) fun _ found => rest _ found.stop

theorem spanAhead {f : Span → Parser β}
    (rest : ∀ x : Span, x.Fits text → Lays text clean n pre (f x) post') :
    Lays text clean n pre (Parser.spanAhead >>= f) post' := by
  rintro s sane rfl
  rw [run_bind, run_spanAhead]
  refine rest _ ?_ s sane rfl
  cases next : s.next? with
  | none => exact .point sane.boundary
  | some t => exact (sane.found next).stands.fits

/-- The token that is expected is where a span starts. -/
theorem opening {f : Span → Parser β} {k : Kind}
    (rest : ∀ start m, start.Fits text → (clean → n ≤ start.start ∧ start.stop ≤ m) →
      Lays text clean m anywhere (f start) post') :
    Lays text clean n pre (Parser.spanAhead >>= fun start => Parser.expect k >>= fun _ => f start)
      post' := by
  rintro s sane rfl start
  rw [run_bind, run_spanAhead]
  cases next : s.next? with
  | none =>
    have fits := Span.Fits.point sane.boundary
    refine (expect (fun dirty => ?_) fun t found => ?_ : Lays text clean _ anywhere _ _) s sane
      rfl trivial
    · exact rest _ _ fits fun yes => absurd yes dirty
    · exact rest _ _ fits fun _ => ⟨Nat.le_refl _, found.stop⟩
  | some t =>
    have found := sane.found next
    refine (expectFrom (fun dirty => ?_) fun u v same next' _ => ?_ :
      Lays text clean _ (·.next? = some t) _ _) s sane rfl next
    · exact rest _ _ found.stands.fits fun yes => absurd yes dirty
    · obtain rfl : t = v := Option.some.inj (same.symm.trans next')
      exact rest _ _ found.stands.fits fun _ => ⟨found.start, Nat.le_refl _⟩

/-- What holds around the steps of a loop: `more` while it goes on and `post`
at its end. -/
def around (more post : Nat → α → Prop) (m : Nat) : ForInStep α → Prop
  | .done a => post m a
  | .yield a => more m a

theorem iterateIn {step : α → Parser (ForInStep α)} {more : Nat → α → Prop}
    (progress : Progress step)
    (steps : ∀ a m, more m a → Lays text clean m anywhere (step a) (around more post)) {fuel : Nat}
    {a : α} (start : more n a) :
    Lays text clean n (·.unread < fuel) (Parser.iterateIn step fuel a) post := by
  induction fuel generalizing n a with
  | zero => exact fun s _ _ less => absurd less (Nat.not_lt_zero _)
  | succ fuel ih =>
    rintro s sane rfl less quiet
    rw [Parser.iterateIn, run_bind] at quiet ⊢
    have first :=
      steps a _ start s sane rfl trivial fun yes => (Parser.forward _ _).no_errors (quiet yes)
    have shorter := progress a s trivial
    generalize (step a).run s = result at quiet first shorter ⊢
    obtain ⟨r, t⟩ := result
    obtain ⟨sane', holds⟩ := first
    cases r with
    | done b => exact ⟨sane', holds⟩
    | yield b =>
      exact ih holds t sane' rfl
        (Nat.lt_of_lt_of_le (shorter ⟨b, rfl⟩) (Nat.le_of_lt_succ less)) quiet

/-- A loop whose steps read something whenever it goes on. -/
theorem iterate {step : α → Parser (ForInStep α)} (more post : Nat → α → Prop)
    (progress : Progress step)
    (steps : ∀ a m, more m a → Lays text clean m anywhere (step a) (around more post)) {a : α}
    (start : more n a) :
    Lays text clean n pre (Parser.iterate step a) post := by
  refine look run_look fun _ => (iterateIn progress steps start).restrict fun t same => ?_
  exact same.2 ▸ Nat.lt_succ_self _

/-- A loop without a result. -/
theorem skipping {step : Unit → Parser (ForInStep Unit)} (progress : Progress step)
    (steps : ∀ m, Lays text clean m anywhere (step ()) fun _ _ => True) :
    Lays text clean n pre (Parser.iterate step ()) fun _ _ => True := by
  refine iterate (fun _ _ => True) (fun _ _ => True) progress
    (fun _ m _ => (steps m).weaken fun k r _ => ?_) trivial
  cases r <;> trivial

theorem skipToSyncPoint : Lays text clean n pre Parser.skipToSyncPoint fun _ _ => True := by
  refine skipping skipStep_progress fun m => glance run_atSyncPoint fun sync => ?_
  split
  · exact .pure trivial
  · exact advance (.pure trivial) fun _ _ => .pure trivial

theorem tooDeep : Lays text clean n pre Parser.tooDeep fun m e => Laid text clean n m [e.tree] := by
  refine spanAhead fun first fits => skipToSyncPoint.then fun _ m _ _ => lastStop fun here => ?_
  have whole : (Span.mk first.start (max m first.start)).Fits text :=
    Span.Fits.through (.point fits.start) (.point here)
  rintro s sane rfl _ quiet
  have reported := sane.reported (e := ⟨.nestingTooDeep, _⟩) (List.forall_mem_singleton.mpr whole)
  have failed :=
    s.reported_ne_nil ⟨.nestingTooDeep, ⟨first.start, max s.input.here.offset first.start⟩⟩
  exact ⟨⟨reported.place, fun _ => failed, reported.errors⟩, .leaf whole fun yes =>
    absurd (quiet yes) failed⟩

end Lays

end Parser

end RuleDesk
