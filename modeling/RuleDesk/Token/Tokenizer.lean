import RuleDesk.Token.Cursor

namespace RuleDesk

/-- The lexer of a mode. It knows the text from the place on where it was started, and `span` is
the place of its last token in that text. -/
structure Lexer where
  text : List Char
  span : Span
deriving DecidableEq, Repr

/-- What a lexer answers when it is asked for the next token. -/
inductive Lexer.Answer
  | ended
  | token (kind : Kind) (after : Lexer)
  | failed
deriving DecidableEq, Repr

/-- The lexeme at the front of a text that is not empty. In normal mode there always is one. -/
def Mode.lexeme? : Mode → List Char → Option Lexeme
  | .normal, cs => some (.normal cs)
  | .hex, cs => Lexeme.hex? cs
  | .jump, cs => Lexeme.jump? cs

/-- The mode that goes on where a mode cannot read, and from which it is gone into. -/
def Mode.enclosing : Mode → Mode
  | .jump => .hex
  | .hex | .normal => .normal

namespace Lexer

def start (text : List Char) : Lexer := ⟨text, ⟨0, 0⟩⟩

/-- Asks for the next token. There is no answer if the lexer stands inside of a character. -/
def next? (l : Lexer) (mode : Mode) : Option Answer :=
  match dropBytes? l.text l.span.stop with
  | none => none
  | some [] => some .ended
  | some rest =>
    match mode.lexeme? rest with
    | none => some .failed
    | some lexeme =>
      let stop := l.span.stop + byteLength (rest.take lexeme.size)
      some (.token lexeme.kind ⟨l.text, ⟨l.span.stop, stop⟩⟩)

end Lexer

/-- A text that is read by one lexer after the other. `startedAt` is the offset where the current
one was started: from there on its places count. -/
structure Tokenizer where
  source : List Char
  startedAt : Nat
  mode : Mode
  lexer : Lexer
deriving DecidableEq, Repr

namespace Tokenizer

/-- The tokenizer of a text, which must be shorter than the largest offset that a span can hold. -/
def new? (source : List Char) : Option Tokenizer :=
  if byteLength source < Span.maxOffset then some ⟨source, 0, .normal, .start source⟩ else none

/-- Starts a lexer of another mode, `n` bytes behind the place where the current one was started.
That place must not be inside of a character. -/
def restart? (t : Tokenizer) (n : Nat) (mode : Mode) : Option Tokenizer :=
  (dropBytes? t.source (t.startedAt + n)).map fun rest =>
    { t with startedAt := t.startedAt + n, mode, lexer := .start rest }

/-- To be called behind the brace that opens a hex pattern and behind the bracket that opens a jump
of it. From a mode that does not enclose it nothing happens. -/
def enter? (t : Tokenizer) (mode : Mode) : Option Tokenizer :=
  if mode ≠ .normal ∧ t.mode = mode.enclosing then t.restart? t.lexer.span.stop mode else some t

/-- Asks `n` lexers at most: where one fails, one of the enclosing mode is started at the same
place. A token comes as its kind and its place in the source. -/
def nextOf? : Nat → Tokenizer → Option (Option ((Kind × Span) × Tokenizer))
  | 0, _ => none
  | n + 1, t => do
    match ← t.lexer.next? t.mode with
    | .ended => return none
    | .token kind after =>
      return some ((kind, after.span.moveRight t.startedAt), { t with lexer := after })
    | .failed => nextOf? n (← t.restart? t.lexer.span.stop t.mode.enclosing)

/-- The next token. There are three modes, so the third lexer does not fail. -/
def next? (t : Tokenizer) : Option (Option ((Kind × Span) × Tokenizer)) := t.nextOf? 3

/-- At most `fuel` tokens, where before token number `n` the modes `entered n` are gone into. -/
def tokensFrom? (entered : Nat → List Mode) : Nat → Nat → Tokenizer → Option (List (Kind × Span))
  | 0, _, _ => some []
  | fuel + 1, n, t => do
    match ← (← (entered n).foldlM enter? t).next? with
    | none => return []
    | some (token, after) => return token :: (← tokensFrom? entered fuel (n + 1) after)

/-- All the tokens of a text. There is no answer where the program would panic. -/
def tokensEntering? (entered : Nat → List Mode) (source : List Char) :
    Option (List (Kind × Span)) := do
  tokensFrom? entered source.length 0 (← new? source)

end Tokenizer

end RuleDesk
