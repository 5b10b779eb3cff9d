import RuleDesk.Diagnostic
import RuleDesk.Document
import RuleDesk.Number.Integer
import RuleDesk.Number.Width
import RuleDesk.Text.Blank

namespace RuleDesk

/-- An error or a warning of the rule compiler. Lines count from one. -/
structure CompilerMessage where
  file : String
  line : Nat
  severity : Severity
  message : String
deriving DecidableEq, Repr

namespace CompilerMessage

/-- The texts before and after the first place where `separator` stands. -/
def splitFirst? (separator : List Char) : List Char → Option (List Char × List Char)
  | [] => if separator.isPrefixOf [] then some ([], []) else none
  | c :: rest =>
    if separator.isPrefixOf (c :: rest) then some ([], (c :: rest).drop separator.length)
    else (splitFirst? separator rest).map fun parts => (c :: parts.1, parts.2)

/-- The text after the last place where `c` stands. -/
def afterLast? (c : Char) (cs : List Char) : Option (List Char) :=
  if cs.contains c then some (cs.reverse.takeWhile (· != c)).reverse else none

/-- A number of 32 bits in decimal digits, with or without a plus sign. White
space around it does not count. -/
def lineNumber? (cs : List Char) : Option Nat :=
  let trimmed := trim cs
  let digits := if trimmed.head? = some '+' then trimmed.tail else trimmed
  if digits.isEmpty || !digits.all Char.isDigit || !isUnsigned32 (digitsValue 10 digits) then none
  else some (digitsValue 10 digits)

/-- The severity that stands in front of a message. Without one it is an error. -/
def ofLabelled (cs : List Char) : Severity × List Char :=
  if "error: ".toList.isPrefixOf cs then (.error, cs.drop "error: ".length)
  else if "warning: ".toList.isPrefixOf cs then (.warning, cs.drop "warning: ".length)
  else (.error, cs)

/-- Reads a line such as `rules.yar(12): warning: slow pattern`. The place is
over at the first `): `, and its number starts after the last bracket that
opens before it, so the name of the file may have brackets too. -/
def ofLine? (file : String) (line : List Char) : Option CompilerMessage := do
  let (place, text) ← splitFirst? "): ".toList line
  let number ← lineNumber? (← afterLast? '(' place)
  let (severity, message) := ofLabelled text
  some ⟨file, number, severity, String.ofList (trim message)⟩

/-- The line of a document that a message is about, counted from zero: lines
past the end mean the last one. -/
def lineIn (m : CompilerMessage) (d : Document) : Nat :=
  min (max m.line 1 - 1) (Lines.count d.text - 1)

/-- The content of the line of a message, without the blanks at its start. -/
def spanIn (m : CompilerMessage) (d : Document) : Span :=
  let line := (Lines.span? d.text (m.lineIn d)).getD (.point 0)
  let text := d.textAt line
  ⟨line.start + (byteLength text - byteLength (trimStart text)), line.stop⟩

def diagnostic (m : CompilerMessage) (d : Document) : Diagnostic :=
  ⟨m.severity, m.message, m.spanIn d, .compiler, none⟩

end CompilerMessage

end RuleDesk
