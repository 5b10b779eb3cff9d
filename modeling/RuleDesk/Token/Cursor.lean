import RuleDesk.Token.Lexeme

namespace RuleDesk

/-- How the text is read. Outside of a hex pattern `a0` is a word, inside it
is a byte, and in a jump only numbers and a hyphen have a meaning. -/
inductive Mode
  | normal | hex | jump
deriving DecidableEq, Repr

/-- The token at the front of a text and the mode that read it. What a mode
cannot read ends it, and the enclosing mode reads the same text again. -/
def Mode.read : Mode → List Char → Mode × Lexeme
  | .normal, cs => (.normal, .normal cs)
  | .hex, cs =>
    match Lexeme.hex? cs with
    | some l => (.hex, l)
    | none => (.normal, .normal cs)
  | .jump, cs =>
    match Lexeme.jump? cs with
    | some l => (.jump, l)
    | none =>
      match Lexeme.hex? cs with
      | some l => (.hex, l)
      | none => (.normal, .normal cs)

/-- A place in a text: the mode, the byte offset and the text still unread. -/
structure Cursor where
  mode : Mode
  offset : Nat
  rest : List Char
deriving DecidableEq, Repr

namespace Cursor

/-- The start of a text, read in normal mode. Its length is not limited here. The program takes
only texts that are shorter than `Span.maxOffset`, and `Tokenizer.new?` says so. -/
def start (text : List Char) : Cursor := ⟨.normal, 0, text⟩

/-- The token at the cursor and the cursor after it. -/
def next? (c : Cursor) : Option (Token × Cursor) :=
  if c.rest.isEmpty then none
  else
    let (mode, lexeme) := c.mode.read c.rest
    let token : Token := ⟨lexeme.kind, c.offset, c.rest.take lexeme.size⟩
    some (token, ⟨mode, token.stop, c.rest.drop lexeme.size⟩)

/-- To be called right after the brace that opens a hex pattern. -/
def enterHex (c : Cursor) : Cursor := if c.mode = .normal then { c with mode := .hex } else c

/-- To be called right after the bracket that opens a jump of a hex pattern. -/
def enterJump (c : Cursor) : Cursor := if c.mode = .hex then { c with mode := .jump } else c

/-- Goes into a mode. From one that does not enclose it nothing happens, and
the normal mode is never entered, only come back to. -/
def enter (c : Cursor) : Mode → Cursor
  | .normal => c
  | .hex => c.enterHex
  | .jump => c.enterJump

/-- The tokens from the cursor to the end. Before token number `n` the modes
`entered n` are gone into, in this order. Every token takes a character, so
the unread text bounds their number. -/
def tokensFrom (entered : Nat → List Mode) : Nat → Nat → Cursor → List Token
  | 0, _, _ => []
  | fuel + 1, n, c =>
    match ((entered n).foldl enter c).next? with
    | none => []
    | some (token, after) => token :: tokensFrom entered fuel (n + 1) after

def tokensEntering (entered : Nat → List Mode) (c : Cursor) : List Token :=
  tokensFrom entered c.rest.length 0 c

/-- All the tokens when no mode is gone into on the way. -/
def tokens (c : Cursor) : List Token := c.tokensEntering fun _ => []

/-- The first token that means something to the grammar and the cursor after
it, looked for among at most `fuel` tokens. -/
def skipTrivia : Nat → Cursor → Option (Token × Cursor)
  | 0, _ => none
  | fuel + 1, c =>
    match c.next? with
    | none => none
    | some (token, after) =>
      if token.kind.isTrivia then skipTrivia fuel after else some (token, after)

def nextSolid? (c : Cursor) : Option (Token × Cursor) := skipTrivia c.rest.length c

/-- The text at `d` is what is left of the text at `c` behind some of it. -/
def Reaches (c d : Cursor) : Prop :=
  ∃ taken, c.rest = taken ++ d.rest ∧ d.offset = c.offset + byteLength taken

theorem Reaches.refl (c : Cursor) : c.Reaches c := ⟨[], rfl, rfl⟩

theorem Reaches.trans {c d e : Cursor} (h : c.Reaches d) (h' : d.Reaches e) : c.Reaches e := by
  obtain ⟨taken, text, offset⟩ := h
  obtain ⟨more, text', offset'⟩ := h'
  refine ⟨taken ++ more, by rw [text, text', List.append_assoc], ?_⟩
  rw [offset', offset, byteLength_append, Nat.add_assoc]

theorem Reaches.offset_le {c d : Cursor} (h : c.Reaches d) : c.offset ≤ d.offset := by
  obtain ⟨taken, _, offset⟩ := h
  exact offset ▸ Nat.le_add_right c.offset _

/-- Going into a mode reads nothing. -/
@[simp] theorem enter_rest (c : Cursor) (mode : Mode) : (c.enter mode).rest = c.rest := by
  cases mode with
  | normal => rfl
  | hex => simp only [enter, enterHex]; split <;> rfl
  | jump => simp only [enter, enterJump]; split <;> rfl

@[simp] theorem enter_offset (c : Cursor) (mode : Mode) : (c.enter mode).offset = c.offset := by
  cases mode with
  | normal => rfl
  | hex => simp only [enter, enterHex]; split <;> rfl
  | jump => simp only [enter, enterJump]; split <;> rfl

theorem Reaches.enter {c d : Cursor} (h : c.Reaches d) (mode : Mode) :
    c.Reaches (d.enter mode) := by
  obtain ⟨taken, text, offset⟩ := h
  exact ⟨taken, by rw [enter_rest, text], by rw [enter_offset, offset]⟩

/-- A token stands at the cursor, and the cursor after it is right behind it. -/
theorem next?_place {c after : Cursor} {t : Token} (h : c.next? = some (t, after)) :
    t.start = c.offset ∧ after.offset = t.stop ∧ c.rest = t.text ++ after.rest := by
  unfold next? at h
  split at h
  · cases h
  · generalize c.mode.read c.rest = reading at h
    cases h
    exact ⟨rfl, rfl, (List.take_append_drop _ _).symm⟩

theorem next?_reaches {c after : Cursor} {t : Token} (h : c.next? = some (t, after)) :
    c.Reaches after := by
  obtain ⟨start, stop, text⟩ := next?_place h
  exact ⟨t.text, text, by rw [stop, Token.stop, start]⟩

theorem skipTrivia_place {fuel : Nat} {c after : Cursor} {t : Token}
    (h : skipTrivia fuel c = some (t, after)) :
    c.offset ≤ t.start ∧ after.offset = t.stop ∧ c.Reaches after := by
  induction fuel generalizing c with
  | zero => cases h
  | succ fuel ih =>
    unfold skipTrivia at h
    split at h
    · cases h
    · rename_i u between read
      have first := next?_reaches read
      split at h
      · obtain ⟨start, stop, later⟩ := ih h
        exact ⟨Nat.le_trans first.offset_le start, stop, first.trans later⟩
      · cases h
        obtain ⟨start, stop, _⟩ := next?_place read
        exact ⟨Nat.le_of_eq start.symm, stop, first⟩

theorem nextSolid?_place {c after : Cursor} {t : Token} (h : c.nextSolid? = some (t, after)) :
    c.offset ≤ t.start ∧ after.offset = t.stop ∧ c.Reaches after := skipTrivia_place h

end Cursor

/-- The tokens of a text in normal mode, comments and white space included. -/
def tokenize (text : List Char) : List Token := (Cursor.start text).tokens

end RuleDesk
