import RuleDesk.Proofs.Parsing.Progress
import RuleDesk.Proofs.Parsing.Values

namespace RuleDesk

/-- The tokens that mean something to the grammar between two places of a
text. Behind each token some mode that `M` allows may be gone into. -/
inductive Cursor.Walk (M : Mode → Prop) : Cursor → List Token → Cursor → Prop
  | stay (c : Cursor) : Walk M c [] c
  | read {c after d : Cursor} {t : Token} {tokens : List Token} {mode : Mode}
      (next : c.nextSolid? = some (t, after)) (allowed : M mode)
      (rest : Walk M (after.enter mode) tokens d) :
      Walk M c (t :: tokens) d

namespace Cursor.Walk

variable {M : Mode → Prop} {c d e : Cursor} {tokens more : List Token}

theorem append (h : Walk M c tokens d) (h' : Walk M d more e) : Walk M c (tokens ++ more) e := by
  induction h with
  | stay => exact h'
  | read next allowed _ ih => exact .read next allowed (ih h')

theorem widen {N : Mode → Prop} (h : Walk M c tokens d) (wider : ∀ mode, M mode → N mode) :
    Walk N c tokens d := by
  induction h with
  | stay c => exact .stay c
  | read next allowed _ ih => exact .read next (wider _ allowed) ih

theorem reaches (h : Walk M c tokens d) : c.Reaches d := by
  induction h with
  | stay c => exact .refl c
  | @read c after d t tokens mode next _ _ ih =>
    obtain ⟨_, _, step⟩ := nextSolid?_place next
    exact (step.enter mode).trans ih

/-- The tokens of a walk lie between its ends, one behind the other. -/
theorem ordered (h : Walk M c tokens d) :
    (∀ t ∈ tokens, c.offset ≤ t.start ∧ t.stop ≤ d.offset) ∧ tokens.Pairwise fun t u =>
      t.stop ≤ u.start := by
  induction h with
  | stay c => exact ⟨nofun, .nil⟩
  | @read c after d t tokens mode next _ rest ih =>
    obtain ⟨start, stop, step⟩ := nextSolid?_place next
    have later := rest.reaches.offset_le
    rw [enter_offset] at later ih
    refine ⟨fun u member => ?_, .cons (fun u member => stop ▸ (ih.1 u member).1) ih.2⟩
    rcases List.mem_cons.mp member with rfl | member
    · exact ⟨start, stop ▸ later⟩
    · exact ⟨Nat.le_trans step.offset_le (ih.1 u member).1, (ih.1 u member).2⟩

end Cursor.Walk

namespace ParseState

/-- A state that the parse of a text may be in. Panic mode has a reason that
was reported. -/
structure Of (text : List Char) (s : ParseState) : Prop where
  place : (Cursor.start text).Reaches s.input.here
  honest : s.panicking = true → ¬ Grammatical s.errors
  values : ValueErrors text s.input.here.offset s.errors

theorem Of.reported {s : ParseState} (h : s.Of text) {e : SyntaxError}
    (grave : e.fault.isOfValue = false) : (s.reported e).Of text :=
  ⟨h.place, fun _ yes => yes.not_grave grave, h.values.other grave⟩

theorem Of.panicked {s : ParseState} (h : s.Of text) {e : SyntaxError}
    (grave : e.fault.isOfValue = false) : (s.panicked e).Of text :=
  ⟨h.place, fun _ yes => yes.not_grave grave, h.values.other grave⟩

theorem unexpectedError_grave (s : ParseState) (expected : Expectation) :
    (s.unexpectedError expected).fault.isOfValue = false := by
  unfold unexpectedError
  cases s.next? with
  | none => rfl
  | some t => exact Parser.faultOf_grave t expected

theorem Of.advanced {s : ParseState} (h : s.Of text) (mode : Mode) : (s.advanced mode).Of text := by
  have step := (Parser.advanceInto mode).forward s
  rw [Parser.run_advanceInto] at step
  refine ⟨h.place.trans step.reaches, fun panicking => ?_, ?_⟩
  · rw [advanced_panicking] at panicking
    rw [advanced_errors]
    exact h.honest panicking
  · rw [advanced_errors]
    exact h.values.later step.here_le

/-- An integer is passed and its value is found. -/
theorem Of.valued {s : ParseState} (h : s.Of text) {t : Token} (next : s.next? = some t)
    (kind : t.kind = .integer) :
    t.IsInteger text ∧ ((s.advanced .normal).valued t).Of text := by
  obtain ⟨after, ahead⟩ := next?_eq_some next
  have solid := s.input.ahead_eq ▸ ahead
  obtain ⟨_, _, read, _⟩ := Cursor.nextSolid?_stands solid
  have integer : t.IsInteger text :=
    ⟨kind, h.place.standsAt solid, Cursor.nextSolid?_nonempty solid, Cursor.next?_literal read kind⟩
  refine ⟨integer, ?_⟩
  have later := h.advanced .normal
  unfold ParseState.valued
  split
  next overflow =>
    refine ⟨later.place, fun panicking yes =>
      later.honest panicking (yes.before (List.prefix_append ..)), ?_⟩
    show ValueErrors text (s.advanced .normal).input.here.offset
      ((s.advanced .normal).errors ++ [t.valueError])
    rw [advanced_here next, advanced_errors]
    exact h.values.one integer overflow (next?_start next)
  next => exact later

theorem reported_ne_nil (s : ParseState) (e : SyntaxError) : (s.reported e).errors ≠ [] :=
  List.append_ne_nil_of_right_ne_nil _ (List.cons_ne_nil _ _)

theorem Before.no_errors {s t : ParseState} (h : s.Before t) (clean : t.errors = []) :
    s.errors = [] :=
  List.prefix_nil.mp (clean ▸ h.errors)

end ParseState

namespace Parser

/-- What a part of the parser reads, and what its result has to do with it:
from states in `pre`, when `final` are the errors of the whole parse. -/
def Reads (text : List Char) (final : List SyntaxError) (M : Mode → Prop) (pre : ParseState → Prop)
    (p : Parser α) (post : α → List Token → Prop) : Prop :=
  ∀ s, s.Of text → pre s → (p.run s).2.errors <+: final →
    (p.run s).2.Of text ∧ ∃ tokens, s.input.here.Walk M tokens (p.run s).2.input.here ∧
      (p.run s).2.read = tokens.reverse ++ s.read ∧ post (p.run s).1 tokens

namespace Reads

variable {text : List Char} {final : List SyntaxError} {M : Mode → Prop} {pre : ParseState → Prop}
  {p : Parser α} {f : α → Parser β} {post : α → List Token → Prop} {post' : β → List Token → Prop}

theorem restrict {pre' : ParseState → Prop} (h : Reads text final M pre p post)
    (fewer : ∀ s, pre' s → pre s) :
    Reads text final M pre' p post := fun s of start => h s of (fewer s start)

theorem «at» (h : Reads text final M anywhere p post) : Reads text final M pre p post :=
  h.restrict fun _ _ => trivial

/-- With a fact that all the states in `pre` share. -/
theorem given (h : ∀ s, s.Of text → pre s → Reads text final M (· = s) p post) :
    Reads text final M pre p post :=
  fun s of start => h s of start s of rfl

theorem weaken {post' : α → List Token → Prop} (h : Reads text final M pre p post)
    (weaker : ∀ a tokens, post a tokens → post' a tokens) : Reads text final M pre p post' := by
  intro s of start quiet
  obtain ⟨of, tokens, walk, read, holds⟩ := h s of start quiet
  exact ⟨of, tokens, walk, read, weaker _ _ holds⟩

theorem pure {a : α} (h : post a []) : Reads text final M pre (pure a) post :=
  fun _ of _ _ => ⟨of, [], .stay _, rfl, h⟩

/-- One part after the other: the tokens of both are read. -/
theorem bind {m : ParseState → Prop} (h : Reads text final M pre p post)
    (fact : ∀ s, pre s → m (p.run s).2)
    (rest : ∀ a tokens, post a tokens → Reads text final M m (f a) fun b more =>
    post' b (tokens ++ more)) :
    Reads text final M pre (p >>= f) post' := by
  intro s of start quiet
  have later := (f (p.run s).1).forward (p.run s).2
  obtain ⟨of, tokens, walk, read, holds⟩ := h s of start (later.errors.trans quiet)
  obtain ⟨of', more, walk', read', holds'⟩ := rest _ _ holds _ of (fact s start) quiet
  refine ⟨of', tokens ++ more, walk.append walk', ?_, holds'⟩
  rw [run_bind, read', read, List.reverse_append, List.append_assoc]

theorem «then» (h : Reads text final M pre p post)
    (rest : ∀ a tokens, post a tokens → Reads text final M anywhere (f a) fun b more =>
    post' b (tokens ++ more)) :
    Reads text final M pre (p >>= f) post' := h.bind (fun _ _ => trivial) rest

/-- A look at the state, by which nothing is read. -/
theorem look {g : ParseState → α} (run : ∀ s, p.run s = (g s, s))
    (rest : ∀ a, Reads text final M (fun s => pre s ∧ g s = a) (f a) post') :
    Reads text final M pre (p >>= f) post' := by
  intro s of start quiet
  rw [run_bind, run] at quiet ⊢
  exact rest (g s) s of ⟨start, rfl⟩ quiet

theorem peek {f : Option Token → Parser β}
    (none : Reads text final M (fun s => pre s ∧ s.next? = none) (f none) post')
    (some : ∀ t, Reads text final M (fun s => pre s ∧ s.next? = some t) (f (some t)) post') :
    Reads text final M pre (Parser.peek >>= f) post' := by
  refine look run_peek fun o => ?_
  cases o with
  | none => exact none
  | some t => exact some t

theorem atKind {f : Bool → Parser β} (k : Kind)
    (yes : Reads text final M (fun s => pre s ∧ s.kindAhead? = some k) (f true) post')
    (no : Reads text final M pre (f false) post') :
    Reads text final M pre (Parser.atKind k >>= f) post' := by
  refine look (run_atKind · k) fun b => ?_
  cases b with
  | true => exact yes.restrict fun s start => ⟨start.1, beq_iff_eq.mp start.2⟩
  | false => exact no.restrict fun s start => start.1

/-- Something done to the state that is not the input. -/
theorem quietly {a : α} {g : ParseState → ParseState} (run : ∀ s, p.run s = (a, g s))
    (input : ∀ s, (g s).input = s.input)
    (read : ∀ s, (g s).read = s.read) (still : ∀ s, s.Of text → (g s).Of text)
    (h : ∀ s, pre s → (g s).errors <+: final → post a []) : Reads text final M pre p post := by
  intro s of start quiet
  rw [run] at quiet ⊢
  refine ⟨still s of, [], ?_, read s, h s start quiet⟩
  rw [input]
  exact .stay _

theorem setDepth (n : Nat) :
    Reads text final M pre (Parser.setDepth n) fun _ tokens => tokens = [] :=
  .quietly (run_setDepth · n) (fun _ => rfl) (fun _ => rfl)
    (fun _ of => ⟨of.place, of.honest, of.values⟩) fun _ _ _ => rfl

theorem setPanicking_false :
    Reads text final M pre (setPanicking false) fun _ tokens => tokens = [] :=
  .quietly (run_setPanicking · false) (fun _ => rfl) (fun _ => rfl)
    (fun _ of => ⟨of.place, nofun, of.values⟩) fun _ _ _ => rfl

/-- A text is not as the grammar asks when that is reported. -/
theorem report (fault : SyntaxFault) (span : Span) (grave : fault.isOfValue = false) :
    Reads text final M pre (Parser.report fault span) fun _ tokens => tokens = [] ∧
      ¬ Grammatical final :=
  .quietly (run_report · fault span) (fun _ => rfl) (fun _ => rfl) (fun _ of => of.reported grave)
    fun _ _ quiet => ⟨rfl, fun yes => (yes.before quiet).not_grave grave⟩

theorem unexpected (expected : Expectation) :
    Reads text final M pre (Parser.unexpected expected) fun _ tokens => tokens = [] ∧
      ¬ Grammatical final := by
  intro s of _ quiet
  rw [run_unexpected] at quiet ⊢
  cases panicking : s.panicking with
  | true =>
    rw [panicking] at quiet
    exact ⟨of, [], .stay _, rfl, rfl, fun yes => of.honest panicking (yes.before quiet)⟩
  | false =>
    rw [panicking] at quiet
    have grave := s.unexpectedError_grave expected
    exact ⟨of.panicked grave, [], .stay _, rfl, rfl, fun yes => (yes.before quiet).not_grave grave⟩

theorem advanceInto {mode : Mode} (allowed : M mode) {t : Token} :
    Reads text final M (fun s => s.next? = some t) (Parser.advanceInto mode) fun o tokens =>
      o = some t ∧ tokens = [t] := by
  intro s of next _
  obtain ⟨after, ahead⟩ := ParseState.next?_eq_some next
  have here : (s.advanced mode).input.here = after.enter mode := by
    simp only [ParseState.advanced, ahead, ParseState.take, Input.at]
  rw [run_advanceInto]
  refine ⟨of.advanced mode, [t], ?_, ParseState.advanced_read next mode, next, rfl⟩
  exact here ▸ .read (s.input.ahead_eq ▸ ahead) allowed (.stay _)

section Normal

variable (normal : M .normal)

include normal

/-- The token that is ahead is read. -/
theorem advance {t : Token} :
    Reads text final M (fun s => s.next? = some t) Parser.advance fun o tokens => o = some t ∧
      tokens = [t] :=
  advanceInto normal

theorem readNext {f : Option Token → Parser β} {t : Token}
    (rest : Reads text final M anywhere (f (some t)) fun b more => post' b (t :: more)) :
    Reads text final M (fun s => pre s ∧ s.next? = some t) (Parser.advance >>= f) post' := by
  refine ((advance normal).restrict fun s start => start.2).then ?_
  rintro _ _ ⟨rfl, rfl⟩
  exact rest

/-- An integer is read and its value is found. -/
theorem readInteger {f : Nat → Parser β} {t : Token} (kind : t.kind = .integer) {p : Parser β}
    (run : ∀ s, p.run s = (f ((literalValue? t.text).getD 0)).run ((s.advanced .normal).valued t))
    (rest : ∀ n, t.Evaluates text final n → Reads text final M anywhere (f n) fun b more =>
    post' b (t :: more)) :
    Reads text final M (fun s => pre s ∧ s.next? = some t) p post' := by
  intro s of ⟨_, next⟩ quiet
  rw [run] at quiet ⊢
  obtain ⟨integer, of'⟩ := of.valued next kind
  have reported : literalValue? t.text = none → t.valueError ∈ final := fun overflow => by
    refine quiet.subset (((f _).forward _).errors.subset ?_)
    rw [ParseState.valued, if_pos overflow]
    exact List.mem_append_right _ (List.mem_singleton_self _)
  obtain ⟨after, more, walk, read, holds⟩ := rest _ ⟨integer, rfl, reported⟩ _ of' trivial quiet
  obtain ⟨beyond, ahead⟩ := ParseState.next?_eq_some next
  have here : ((s.advanced .normal).valued t).input.here = beyond.enter .normal := by
    rw [ParseState.valued_input]
    simp only [ParseState.advanced, ahead, ParseState.take, Input.at]
  refine ⟨after, t :: more, .read (s.input.ahead_eq ▸ ahead) normal (here ▸ walk), ?_, holds⟩
  rw [read, ParseState.valued_read, ParseState.advanced_read next, List.reverse_cons,
    List.append_assoc]
  rfl

theorem readLiteral {f : Nat → Parser β} {t : Token} (kind : t.kind = .integer)
    (rest : ∀ n, t.Evaluates text final n → Reads text final M anywhere (f n) fun b more =>
    post' b (t :: more)) :
    Reads text final M (fun s => pre s ∧ s.next? = some t)
      (Parser.advance >>= fun _ => integerValue t >>= f) post' := by
  refine readInteger normal kind (fun s => ?_) rest
  rw [run_bind, run_advance, run_bind, run_integerValue]

/-- The value may be found before the integer is passed. -/
theorem readValue {f : Nat → Parser β} {t : Token} (kind : t.kind = .integer)
    (rest : ∀ n, t.Evaluates text final n → Reads text final M anywhere (f n) fun b more =>
    post' b (t :: more)) :
    Reads text final M (fun s => pre s ∧ s.next? = some t)
      (integerValue t >>= fun n => Parser.advance >>= fun _ => f n) post' := by
  refine readInteger normal kind (fun s => ?_) rest
  rw [run_bind, run_integerValue, run_bind, run_advance, ParseState.valued_advanced]

theorem readAny {f : Option Token → Parser β}
    (rest : ∀ t, Reads text final M anywhere (f (some t)) fun b more => post' b (t :: more)) :
    Reads text final M atToken (Parser.advance >>= f) post' := by
  intro s of ⟨t, next⟩
  exact readNext normal (rest t) s of (show anywhere s ∧ _ from ⟨trivial, next⟩)

/-- A token of a known kind is read. -/
theorem readKind {f : Option Token → Parser β} {k : Kind}
    (rest : ∀ t, t.kind = k → Reads text final M anywhere (f (some t)) fun b more =>
    post' b (t :: more)) :
    Reads text final M (fun s => s.kindAhead? = some k) (Parser.advance >>= f) post' := by
  intro s of ahead
  obtain ⟨t, next, kind⟩ := ParseState.kindAhead?_eq_some ahead
  exact readNext normal (rest t kind) s of (show anywhere s ∧ _ from ⟨trivial, next⟩)

theorem eat {f : Option Token → Parser β} {k : Kind} (none : Reads text final M pre (f none) post')
    (some : ∀ t, t.kind = k → Reads text final M anywhere (f (some t)) fun b more =>
    post' b (t :: more)) :
    Reads text final M pre (Parser.eat k >>= f) post' := by
  intro s of start
  have run : (Parser.eat k >>= f).run s =
      if s.kindAhead? = Option.some k then (Parser.advance >>= f).run s
        else (f Option.none).run s := by
    rw [run_bind, run_eat]
    split <;> simp only [run_bind, run_advance]
  rw [run]
  split
  · rename_i ahead
    exact readKind normal some s of ahead
  · exact none s of start

theorem expect {f : Option Token → Parser β} {k : Kind}
    (none : ¬ Grammatical final → Reads text final M anywhere (f none) post')
    (some : ∀ t, t.kind = k → Reads text final M anywhere (f (some t)) fun b more =>
    post' b (t :: more)) :
    Reads text final M pre (Parser.expect k >>= f) post' := by
  have expected : Reads text final M pre (Parser.expect k) fun o tokens =>
      (o = Option.none ∧ tokens = [] ∧ ¬ Grammatical final) ∨ ∃ t, t.kind = k ∧ o = Option.some t ∧
        tokens = [t] := by
    refine eat normal ?_ fun t kind => .pure (.inr ⟨t, kind, rfl, rfl⟩)
    refine (unexpected _).then ?_
    rintro _ _ ⟨rfl, dirty⟩
    exact .pure (.inl ⟨rfl, rfl, dirty⟩)
  refine expected.then ?_
  rintro _ _ (⟨rfl, rfl, dirty⟩ | ⟨t, kind, rfl, rfl⟩)
  · exact none dirty
  · exact some t kind

end Normal

/-- What holds around the steps of a loop: `more` while it goes on and `post`
at its end. -/
def around (more post : α → List Token → Prop) : ForInStep α → List Token → Prop
  | .done a, tokens => post a tokens
  | .yield a, tokens => more a tokens

theorem iterateIn {step : α → Parser (ForInStep α)} {more : α → List Token → Prop}
    (progress : Progress step) (steps : ∀ a tokens, more a tokens →
      Reads text final M anywhere (step a) fun r further => around more post r (tokens ++ further))
    {fuel : Nat} {a : α} {tokens : List Token} (start : more a tokens) :
    Reads text final M (fun s => s.unread < fuel) (Parser.iterateIn step fuel a)
      fun b further => post b (tokens ++ further) := by
  induction fuel generalizing a tokens with
  | zero => exact fun s _ less => absurd less (Nat.not_lt_zero _)
  | succ fuel ih =>
    intro s of less quiet
    rw [Parser.iterateIn, run_bind] at quiet ⊢
    have first := steps a tokens start s of trivial ((Parser.forward _ _).errors.trans quiet)
    have shorter := progress a s trivial
    generalize (step a).run s = result at quiet first shorter ⊢
    obtain ⟨r, t⟩ := result
    obtain ⟨of, further, walk, read, holds⟩ := first
    cases r with
    | done b => exact ⟨of, further, walk, read, holds⟩
    | yield b =>
      have left : t.unread < fuel := Nat.lt_of_lt_of_le (shorter ⟨b, rfl⟩) (Nat.le_of_lt_succ less)
      obtain ⟨of', rest, walk', read', holds'⟩ := ih holds t of left quiet
      refine ⟨of', further ++ rest, walk.append walk', ?_, ?_⟩
      · rw [read', read, List.reverse_append, List.append_assoc]
      · show post _ (tokens ++ (further ++ rest))
        rwa [← List.append_assoc]

/-- A loop whose steps read something whenever it goes on. -/
theorem iterate {step : α → Parser (ForInStep α)} (more post : α → List Token → Prop)
    (progress : Progress step) (steps : ∀ a tokens, more a tokens →
      Reads text final M anywhere (step a) fun r further => around more post r (tokens ++ further))
    {a : α} (tokens : List Token) (start : more a tokens) :
    Reads text final M pre (Parser.iterate step a) fun b further => post b (tokens ++ further) := by
  refine look run_look fun _ => ?_
  refine (iterateIn progress steps start).restrict fun t same => ?_
  exact same.2 ▸ Nat.lt_succ_self _

end Reads

end Parser

end RuleDesk
