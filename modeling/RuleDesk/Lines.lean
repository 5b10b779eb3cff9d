import RuleDesk.Text.Bytes
import RuleDesk.Span

namespace RuleDesk

/-- A place in a text as editors give it: both numbers start at zero, and the
column counts UTF-16 code units. -/
structure Position where
  line : Nat
  column : Nat
deriving DecidableEq, Repr

structure PositionRange where
  start : Position
  stop : Position
deriving DecidableEq, Repr

namespace Lines

/-- True where the content of a line is over: at its terminator, or at the
end of the text, where a carriage return counts as a terminator too. -/
def atEnd : List Char → Bool
  | [] => true
  | '\n' :: _ => true
  | ['\r'] => true
  | '\r' :: '\n' :: _ => true
  | _ => false

/-- Number of lines. A newline at the end starts one more line. -/
def count (text : List Char) : Nat := text.countP (· == '\n') + 1

/-- The byte offset where a line starts and the text from there on. -/
def start? : List Char → Nat → Option (Nat × List Char)
  | cs, 0 => some (0, cs)
  | [], _ + 1 => none
  | c :: rest, n + 1 =>
    (start? rest (if c == '\n' then n else n + 1)).map fun (offset, cs) => (offset + c.utf8Size, cs)

/-- Number of bytes up to the end of the line. -/
def restLength : List Char → Nat
  | [] => 0
  | c :: rest => if atEnd (c :: rest) then 0 else c.utf8Size + restLength rest

/-- Number of bytes up to a column, or up to the end of the line before it.
A column inside of a surrogate pair counts as the one after it. -/
def columnLength : List Char → Nat → Nat
  | [], _ => 0
  | c :: rest, column =>
    if column == 0 || atEnd (c :: rest) then 0
    else c.utf8Size + columnLength rest (column - utf16Size c)

/-- The content of a line, without its terminator. -/
def span? (text : List Char) (line : Nat) : Option Span :=
  (start? text line).map fun (offset, cs) => ⟨offset, offset + restLength cs⟩

/-- The byte offset of a position, if its line exists. Columns past the end
of the line mean its end. -/
def offset? (text : List Char) (p : Position) : Option Nat :=
  (start? text p.line).map fun (offset, cs) => offset + columnLength cs p.column

/-- The position that is reached after `n` bytes from `p`. Offsets past the
end mean the end, those inside of a character mean its start. -/
def positionFrom (p : Position) : List Char → Nat → Position
  | [], _ => p
  | c :: rest, n =>
    if n < c.utf8Size then p
    else positionFrom (if c == '\n' then ⟨p.line + 1, 0⟩ else ⟨p.line, p.column + utf16Size c⟩) rest
      (n - c.utf8Size)

def position (text : List Char) (offset : Nat) : Position := positionFrom ⟨0, 0⟩ text offset

def range (text : List Char) (s : Span) : PositionRange :=
  ⟨position text s.start, position text s.stop⟩

/-- The line of a byte offset, the last one past the end. -/
def lineOf (text : List Char) (offset : Nat) : Nat := (position text offset).line

end Lines

end RuleDesk
