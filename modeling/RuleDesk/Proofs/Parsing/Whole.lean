import RuleDesk.Proofs.Parsing.Arguments

namespace RuleDesk

/-! ## A text without errors has whole tokens

What the grammar has no place for is an error wherever it is looked at, and only the arguments
of modifiers are not looked at. -/

/-- Outside of the arguments of modifiers all the tokens are whole, the latest one first. -/
def WholeOutside : List Token → Prop
  | [] => True
  | t :: earlier => WholeOutside earlier ∧ (¬ InArguments (t :: earlier) → t.kind.isWhole)

theorem WholeOutside.here {later earlier : List Token} {t : Token}
    (h : WholeOutside (later ++ t :: earlier))
    (outside : ¬ InArguments (t :: earlier)) : t.kind.isWhole := by
  induction later with
  | nil => exact h.2 outside
  | cons u later ih => exact ih h.1

theorem Kind.isWhole_of_isPlain {k : Kind} (plain : k.isPlain) (meant : ¬ k.isTrivia) :
    k.isWhole := by
  cases k <;> first | rfl | exact (meant rfl).elim | cases plain

theorem Kind.not_arguments_of_isPlain {k : Kind} (plain : k.isPlain) :
    Parser.isModifierWithArguments k = false := by
  rw [isPlain, Bool.and_eq_true] at plain
  simpa using plain.2

/-- Among the arguments the tokens may be any but the parenthesis at their end. -/
theorem inArguments_append {tokens inner : List Token} (h : InArguments tokens)
    (kinds : ∀ t ∈ inner, t.kind.isInner) :
    InArguments (inner ++ tokens) := by
  induction inner with
  | nil => exact h
  | cons t inner ih =>
    obtain ⟨first, others⟩ := List.forall_mem_cons.mp kinds
    refine .inl ⟨ih others, fun close => ?_⟩
    rw [close] at first
    cases first

theorem WholeOutside.arguments {tokens inner : List Token} (whole : WholeOutside tokens)
    (h : InArguments tokens)
    (kinds : ∀ t ∈ inner, t.kind.isInner) : WholeOutside (inner ++ tokens) := by
  induction inner with
  | nil => exact whole
  | cons t inner ih =>
    obtain ⟨_, others⟩ := List.forall_mem_cons.mp kinds
    exact ⟨ih others, fun outside => (outside (inArguments_append h kinds)).elim⟩

namespace ParseState

/-- A parse that is not among the arguments of a modifier. -/
structure Outside (s : ParseState) : Prop where
  outside : ¬ InArguments s.read
  -- a parenthesis right behind a modifier would open its arguments
  unopened : ∀ t ∈ s.read.head?, Parser.isModifierWithArguments t.kind →
      s.kindAhead? ≠ some (.symbol .lparen)

variable {s u : ParseState}

/-- The next token is not among the arguments of a modifier. -/
theorem Outside.ahead (h : s.Outside) {t : Token} (next : s.next? = some t) :
    ¬ InArguments (t :: s.read) := by
  rintro (⟨inside, _⟩ | ⟨_, kind, modifier⟩)
  · exact h.outside inside
  · obtain ⟨u, first, modifier⟩ := (Option.any_eq_true ..).mp modifier
    exact h.unopened u first modifier (kind ▸ kindAhead?_of_next next)

theorem Outside.advanced (h : s.Outside) {t : Token} (next : s.next? = some t)
    (other : Parser.isModifierWithArguments t.kind = false)
    (mode : Mode) : (s.advanced mode).Outside := by
  refine ⟨by rw [advanced_read next]; exact h.ahead next, ?_⟩
  rw [advanced_read next]
  rintro u ⟨⟩ modifier
  rw [other] at modifier
  cases modifier

/-- Behind the arguments of a modifier. -/
theorem TookArguments.outside (took : s.TookArguments u) (h : s.Outside) {t : Token}
    (next : s.next? = some t) (modifier : Parser.isModifierWithArguments t.kind) : u.Outside := by
  have other : t.kind ≠ .symbol .lparen := by
    intro paren
    rw [paren] at modifier
    cases modifier
  cases took with
  | bare missing =>
    refine ⟨by rw [advanced_read next]; exact h.ahead next, fun _ _ _ => missing⟩
  | @closed u opened inner closes =>
    obtain ⟨close, last, kind⟩ := kindAhead?_eq_some closes
    obtain ⟨paren, second, opening⟩ := kindAhead?_eq_some opened
    obtain ⟨among, read, kinds⟩ := inner.read
    rw [advanced_read second, advanced_read next] at read
    have inside : InArguments (paren :: t :: s.read) := .inr ⟨h.ahead next, opening, modifier⟩
    refine ⟨?_, ?_⟩
    · rw [advanced_read last, read]
      rintro (⟨_, still⟩ | ⟨ends, _⟩)
      · exact still kind
      · exact ends (inArguments_append inside kinds)
    · rw [advanced_read last]
      rintro u ⟨⟩ modifier
      rw [kind] at modifier
      cases modifier

theorem TookArguments.whole (took : s.TookArguments u) (whole : WholeOutside s.read) (h : s.Outside)
    {t : Token} (next : s.next? = some t)
    (modifier : Parser.isModifierWithArguments t.kind) : WholeOutside u.read := by
  have first : WholeOutside (t :: s.read) := ⟨whole, fun _ => by
    cases kind : t.kind with
    | keyword => rfl
    | _ => rw [kind] at modifier; cases modifier⟩
  cases took with
  | bare => rwa [advanced_read next]
  | @closed u opened inner closes =>
    obtain ⟨close, last, kind⟩ := kindAhead?_eq_some closes
    obtain ⟨paren, second, opening⟩ := kindAhead?_eq_some opened
    obtain ⟨among, read, kinds⟩ := inner.read
    rw [advanced_read second, advanced_read next] at read
    have inside : InArguments (paren :: t :: s.read) := .inr ⟨h.ahead next, opening, modifier⟩
    have opened : WholeOutside (paren :: t :: s.read) :=
      ⟨first, fun outside => (outside inside).elim⟩
    rw [advanced_read last, read]
    exact ⟨opened.arguments inside kinds, fun _ => by rw [kind]; rfl⟩

theorem TookArguments.panicking (took : s.TookArguments u) : u.panicking = s.panicking := by
  cases took with
  | bare => rw [advanced_panicking]
  | closed _ inner =>
    rw [advanced_panicking, inner.panicking, advanced_panicking, advanced_panicking]

theorem TookArguments.tracked {text : List Char} (took : s.TookArguments u)
    (tracked : s.Tracked text) : u.Tracked text := by
  cases took with
  | bare => exact tracked.onward
  | closed _ inner => exact (inner.tracked tracked.onward.onward).onward

/-- What is known of a parse of a text that has met no error, between two tokens. -/
structure Wholesome (text : List Char) (s : ParseState) : Prop where
  tracked : s.Tracked text
  calm : s.panicking = false
  whole : WholeOutside s.read
  outside : s.Outside

namespace Wholesome

variable {text : List Char}

theorem initial (text : List Char) : (Parser.initial text).Wholesome text :=
  ⟨.initial text, rfl, trivial, id, nofun⟩

/-- The next token is whole unless it is a modifier with arguments, which is so as well. -/
theorem advanced (h : s.Wholesome text) {t : Token} (next : s.next? = some t)
    (whole : t.kind.isWhole) (other : Parser.isModifierWithArguments t.kind = false) {mode : Mode}
    (braced : mode = .hex → s.kindAhead? = some (.symbol .lbrace) ∧ s.justRead (.symbol .equal)) :
    (s.advanced mode).Wholesome text := by
  refine ⟨h.tracked.advanced braced, by rw [advanced_panicking, h.calm], ?_,
    h.outside.advanced next other mode⟩
  rw [advanced_read next]
  exact ⟨h.whole, fun _ => whole⟩

theorem plain (h : s.Wholesome text) {t : Token} (next : s.next? = some t) (plain : t.kind.isPlain)
    {mode : Mode}
    (braced : mode = .hex → s.kindAhead? = some (.symbol .lbrace) ∧ s.justRead (.symbol .equal)) :
    (s.advanced mode).Wholesome text := by
  obtain ⟨after, entry⟩ := next?_eq_some next
  obtain ⟨_, _, _, meant⟩ := Cursor.nextSolid?_stands (s.input.ahead_eq.symm.trans entry)
  exact h.advanced next (Kind.isWhole_of_isPlain plain meant)
    (Kind.not_arguments_of_isPlain plain) braced

theorem onward (h : s.Wholesome text) {t : Token} (next : s.next? = some t)
    (plain : t.kind.isPlain) : (s.advanced .normal).Wholesome text :=
  h.plain next plain fun hex => absurd hex (by decide)

theorem took (h : s.Wholesome text) (took : s.TookArguments u) {t : Token} (next : s.next? = some t)
    (modifier : Parser.isModifierWithArguments t.kind) : u.Wholesome text :=
  ⟨took.tracked h.tracked, took.panicking.trans h.calm, took.whole h.whole h.outside next modifier,
    took.outside h.outside next modifier⟩

end Wholesome

end ParseState

namespace Lockstep

variable {L : Lockstep}

/-- Names that are seen as they are differ where they are seen. -/
theorem distinctNames_of_keeps (keeps : L.left.KeepsNames) (r : Rule) : L.distinctNames r := by
  constructor <;>
  · intro i _ j _ same
    rwa [keeps, keeps] at same

end Lockstep

open ParseState in
/-- A parse of a text beside itself, as long as no error is met. -/
def wholesome (text : List Char) : Lockstep where
  rel s s' := s = s' ∧ s.Wholesome text
  parted s _ := s.errors ≠ []
  exact := False
  left := .same
  right := .same
  ends := View.same_ends
  exact_keeps _ := View.same_keepsNames
  keeps := View.same_keepsNames
  unnamed := View.same_unnamed
  parted_later parted later _ none := parted (later.no_errors none)
  flawless e _ := .inr (reported_ne_nil _ e)
  calm h := .inr h.2.calm
  panicking h := congrArg (·.panicking) h.1
  here h := congrArg (·.input.here.offset) h.1
  textStop h _ := congrArg (·.textStop) h.1
  next h := h.1 ▸ Option.rel_alike_refl _
  beyond h _ _ := congrArg (·.kindBeyond?) h.1
  beyondParen h _ _ := congrArg (·.kindBeyond?) h.1
  joined h _ _ := congrArg (·.joined) h.1
  adjacentDots h _ _ := congrArg (·.adjacent) h.1
  adjacentAsterisk h _ _ := congrArg (·.adjacent) h.1
  act {s s' a a'} h same allowed := by
    obtain ⟨rfl, good⟩ := h
    cases same with
    | report => exact .inl (reported_ne_nil _ _)
    | panic => exact .inl (reported_ne_nil _ _)
    | calm =>
      exact .inr ⟨rfl, ⟨good.tracked.behind, good.tracked.read⟩, rfl, good.whole,
        good.outside.outside, good.outside.unopened⟩
    | depth n =>
      exact .inr ⟨rfl, good.tracked.withDepth n, good.calm, good.whole, good.outside.outside,
        good.outside.unopened⟩
    | read =>
      obtain ⟨k, ahead, plain⟩ := allowed
      obtain ⟨t, next, rfl⟩ := kindAhead?_eq_some ahead
      exact .inr ⟨rfl, good.onward next (plain.resolve_right fun exact => exact.1)⟩
    | enter mode =>
      cases mode with
      | normal => exact allowed.elim
      | hex =>
        obtain ⟨t, next, kind⟩ := kindAhead?_eq_some allowed.1
        exact .inr ⟨rfl, good.plain next (by rw [kind]; rfl) fun _ => allowed⟩
      | jump =>
        obtain ⟨t, next, kind⟩ := kindAhead?_eq_some allowed
        exact .inr ⟨rfl, good.plain next (by rw [kind]; rfl) fun hex => absurd hex (by decide)⟩

theorem wholesome_takesArguments (text : List Char) : (wholesome text).TakesArguments := by
  rintro s _ ⟨rfl, good⟩ ⟨k, ahead, modifier⟩ _
  by_cases clean : (Lockstep.modifierWithArguments.run s).2.errors = []
  · obtain ⟨t, next, rfl⟩ := ParseState.kindAhead?_eq_some ahead
    exact .inr ⟨trivial, rfl,
      good.took (Parser.modifierWithArguments_took good.calm clean) next modifier⟩
  · exact .inl clean

/-- A part of the parser that goes in lockstep with itself keeps this where it reports nothing. -/
theorem ParseState.Wholesome.run {text : List Char} {s : ParseState} (h : s.Wholesome text)
    {p : Parser α} {alike : α → α → Prop}
    {pre : ParseState → Prop} {good : α → Prop} (always : (wholesome text).When pre p p alike good)
    (start : pre s)
    (fine : good (p.run s).1) (clean : (p.run s).2.errors = []) : (p.run s).2.Wholesome text := by
  rcases always s s ⟨rfl, h⟩ start fine with parted | ⟨_, _, kept⟩
  · exact (parted clean).elim
  · exact kept

end RuleDesk
