import RuleDesk.Token
import RuleDesk.Text.Blank
import RuleDesk.Text.DecimalDigit

namespace RuleDesk

/-- The token at the front of a text: its kind and its number of characters. -/
structure Lexeme where
  kind : Kind
  size : Nat
deriving DecidableEq, Repr

/-- Number of characters at the front that all satisfy `p`. -/
def runLength (p : Char → Bool) : List Char → Nat
  | [] => 0
  | c :: rest => if p c then runLength p rest + 1 else 0

/-- Number of characters at the front that are escape pairs or satisfy `p`.
A backslash alone, at the end of its line or of the text, ends the run. -/
def escapedRunLength (p : Char → Bool) : List Char → Nat
  | '\\' :: c :: rest => if c == '\n' then 0 else escapedRunLength p rest + 2
  | c :: rest => if c != '\\' && p c then escapedRunLength p rest + 1 else 0
  | [] => 0

def isAsciiLetter (c : Char) : Bool := ('a' ≤ c && c ≤ 'z') || ('A' ≤ c && c ≤ 'Z')

def isHexDigit (c : Char) : Bool := c.isDigit || ('a' ≤ c && c ≤ 'f') || ('A' ≤ c && c ≤ 'F')

def isOctalDigit (c : Char) : Bool := '0' ≤ c && c ≤ '7'

def isWordStart (c : Char) : Bool := isAsciiLetter c || c == '_'

/-- Words go on with ASCII letters, underscores and the digits of any script. -/
def isWordPart (c : Char) : Bool := isWordStart c || isDecimalDigit c

namespace Lexeme

/-- A reserved word or an identifier. An identifier that only starts with a
reserved word is longer than it, so the whole word decides. -/
def word? : List Char → Option Lexeme
  | [] => none
  | c :: rest =>
    if isWordStart c then
      let tail := runLength isWordPart rest
      match Keyword.ofText? (String.ofList (c :: rest.take tail)) with
      | some w => some ⟨.keyword w, tail + 1⟩
      | none => some ⟨.ident, tail + 1⟩
    else none

/-- `0x` or `0o` and at least one digit. -/
def prefixed? : List Char → Option Lexeme
  | '0' :: 'x' :: rest =>
    let digits := runLength isHexDigit rest
    if digits == 0 then none else some ⟨.integer, digits + 2⟩
  | '0' :: 'o' :: rest =>
    let digits := runLength isOctalDigit rest
    if digits == 0 then none else some ⟨.integer, digits + 2⟩
  | _ => none

/-- What follows the first run of digits of a number: a fraction, which
needs digits of its own, or a unit. -/
def afterDigits (digits : Nat) : List Char → Lexeme
  | '.' :: rest =>
    let fraction := runLength Char.isDigit rest
    if fraction == 0 then ⟨.integer, digits⟩ else ⟨.float, digits + 1 + fraction⟩
  | 'K' :: 'B' :: _ => ⟨.integer, digits + 2⟩
  | 'M' :: 'B' :: _ => ⟨.integer, digits + 2⟩
  | _ => ⟨.integer, digits⟩

def number? (cs : List Char) : Option Lexeme :=
  (prefixed? cs).or <|
    let digits := runLength Char.isDigit cs
    if digits == 0 then none else some (afterDigits digits (cs.drop digits))

def symbol? (cs : List Char) : Option Lexeme :=
  (Symbol.table.find? fun entry => entry.2.isPrefixOf cs).map fun entry =>
    ⟨.symbol entry.1, entry.2.length⟩

/-- A sigil and the name that follows it, which may be empty. -/
def sigil? : List Char → Option Lexeme
  | [] => none
  | c :: rest => (Sigil.ofChar? c).map fun s => ⟨.sigil s, runLength isWordPart rest + 1⟩

def string? : List Char → Option Lexeme
  | '"' :: rest =>
    let body := escapedRunLength (fun c => c != '"' && c != '\n') rest
    match rest.drop body with
    | '"' :: _ => some ⟨.string, body + 2⟩
    | _ => some ⟨.openString, body + 1⟩
  | _ => none

/-- Characters up to and with the first `*/`. -/
def closeComment? : List Char → Option Nat
  | '*' :: '/' :: _ => some 2
  | _ :: rest => (closeComment? rest).map (· + 1)
  | [] => none

/-- A regular expression has a body that does not start with `*` and up to
two flags. -/
def regexp? (cs : List Char) : Option Lexeme :=
  let body := escapedRunLength (fun c => c != '/' && c != '\n') cs
  if body == 0 then none
  else match cs.drop body with
    | '/' :: flags => some ⟨.regexp, body + 2 + min 2 (runLength isAsciiLetter flags)⟩
    | _ => some ⟨.openRegexp, body + 1⟩

/-- A comment, a regular expression, or all the rest of the text when a block
comment is not closed. -/
def slash? : List Char → Option Lexeme
  | '/' :: '/' :: rest => some ⟨.comment, runLength (· != '\n') rest + 2⟩
  | '/' :: '*' :: rest =>
    match closeComment? rest with
    | some n => some ⟨.comment, n + 2⟩
    | none => some ⟨.unknown, rest.length + 2⟩
  | '/' :: rest => regexp? rest
  | _ => none

def newline? : List Char → Option Lexeme
  | '\r' :: '\n' :: _ => some ⟨.newline, 2⟩
  | '\r' :: _ => some ⟨.newline, 1⟩
  | '\n' :: _ => some ⟨.newline, 1⟩
  | _ => none

def blank? (cs : List Char) : Option Lexeme :=
  let run := runLength (fun c => c == ' ' || c == '\t') cs
  if run == 0 then none else some ⟨.blank, run⟩

/-- What nothing else claims: at least one character, and all up to the next
white space. -/
def unknown (cs : List Char) : Lexeme := ⟨.unknown, max 1 (runLength (fun c => !isBlank c) cs)⟩

/-- The token at the front of a text outside of hex patterns. -/
def normal (cs : List Char) : Lexeme :=
  ((word? cs).or <| (number? cs).or <| (symbol? cs).or <| (sigil? cs).or <| (string? cs).or <|
    (slash? cs).or <| (newline? cs).or <| blank? cs).getD (unknown cs)

def isHexByteChar (c : Char) : Bool := isHexDigit c || c == '?'

/-- Two hex digits or question marks, after an optional tilde. -/
def hexByte? : List Char → Option Lexeme
  | '~' :: a :: b :: _ => if isHexByteChar a && isHexByteChar b then some ⟨.hexByte, 3⟩ else none
  | a :: b :: _ => if isHexByteChar a && isHexByteChar b then some ⟨.hexByte, 2⟩ else none
  | _ => none

def hexSymbol? : List Char → Option Lexeme
  | '|' :: _ => some ⟨.symbol .pipe, 1⟩
  | '(' :: _ => some ⟨.symbol .lparen, 1⟩
  | ')' :: _ => some ⟨.symbol .rparen, 1⟩
  | '[' :: _ => some ⟨.symbol .lbracket, 1⟩
  | ']' :: _ => some ⟨.symbol .rbracket, 1⟩
  | _ => none

/-- Characters up to the `*/` that closes a block comment of a hex pattern.
Here an asterisk always takes the next character with it, so only a run of
an odd number of asterisks before the slash closes the comment. -/
def closeHexComment? : List Char → Option Nat
  | '*' :: '/' :: _ => some 2
  | '*' :: _ :: rest => (closeHexComment? rest).map (· + 2)
  | '*' :: [] => none
  | _ :: rest => (closeHexComment? rest).map (· + 1)
  | [] => none

def hexComment? : List Char → Option Lexeme
  | '/' :: '/' :: rest => some ⟨.comment, runLength (· != '\n') rest + 2⟩
  | '/' :: '*' :: rest => (closeHexComment? rest).map fun n => ⟨.comment, n + 2⟩
  | _ => none

/-- The token at the front of a text inside of a hex pattern. -/
def hex? (cs : List Char) : Option Lexeme :=
  (hexByte? cs).or <| (hexSymbol? cs).or <| (hexComment? cs).or <| (newline? cs).or <| blank? cs

/-- An integer without a unit. -/
def jumpInteger? (cs : List Char) : Option Lexeme :=
  (prefixed? cs).or <|
    let digits := runLength Char.isDigit cs
    if digits == 0 then none else some ⟨.integer, digits⟩

def jumpHyphen? : List Char → Option Lexeme
  | '-' :: _ => some ⟨.symbol .hyphen, 1⟩
  | _ => none

/-- The token at the front of a text inside of a jump. -/
def jump? (cs : List Char) : Option Lexeme :=
  (jumpHyphen? cs).or <| (jumpInteger? cs).or <| (newline? cs).or <| blank? cs

end Lexeme

end RuleDesk
