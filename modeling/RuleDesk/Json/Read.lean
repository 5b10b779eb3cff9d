import RuleDesk.Json
import RuleDesk.Number.Double

namespace RuleDesk

namespace Json

/-- A reader takes a value off the front of a text. -/
abbrev Reader (α : Type) := List Char → Option (α × List Char)

def isSpace (c : Char) : Bool := c == ' ' || c == '\n' || c == '\r' || c == '\t'

def skipSpace (cs : List Char) : List Char := cs.dropWhile isSpace

def hexValue? (c : Char) : Option Nat :=
  if c.isDigit then some (c.toNat - '0'.toNat)
  else if 'a' ≤ c && c ≤ 'f' then some (c.toNat - 'a'.toNat + 10)
  else if 'A' ≤ c && c ≤ 'F' then some (c.toNat - 'A'.toNat + 10)
  else none

def readQuad : Reader Nat
  | a :: b :: c :: d :: rest => do
    let a ← hexValue? a
    let b ← hexValue? b
    let c ← hexValue? c
    let d ← hexValue? d
    some (a * 4096 + b * 256 + c * 16 + d, rest)
  | _ => none

/-- The character after a backslash and what it stands for. A surrogate is
read only together with its other half. -/
def readEscape : Reader Char
  | '"' :: rest => some ('"', rest)
  | '\\' :: rest => some ('\\', rest)
  | '/' :: rest => some ('/', rest)
  | 'b' :: rest => some ('\x08', rest)
  | 'f' :: rest => some ('\x0c', rest)
  | 'n' :: rest => some ('\n', rest)
  | 'r' :: rest => some ('\r', rest)
  | 't' :: rest => some ('\t', rest)
  | 'u' :: rest => do
    let (high, rest) ← readQuad rest
    if high < 0xD800 || 0xE000 ≤ high then some (Char.ofNat high, rest)
    else if 0xDC00 ≤ high then none
    else match rest with
      | '\\' :: 'u' :: rest => do
        let (low, rest) ← readQuad rest
        if 0xDC00 ≤ low && low < 0xE000 then
          some (Char.ofNat (0x10000 + (high - 0xD800) * 0x400 + (low - 0xDC00)), rest)
        else none
      | _ => none
  | _ => none

/-- The characters of a string up to its closing quote. -/
def readChars : Nat → Reader (List Char)
  | 0, _ => none
  | _ + 1, [] => none
  | _ + 1, '"' :: rest => some ([], rest)
  | fuel + 1, '\\' :: rest => do
    let (c, rest) ← readEscape rest
    let (cs, rest) ← readChars fuel rest
    some (c :: cs, rest)
  | fuel + 1, c :: rest =>
    if c.toNat < 32 then none
    else do
      let (cs, rest) ← readChars fuel rest
      some (c :: cs, rest)

def readString (cs : List Char) : Option (String × List Char) := do
  let (body, rest) ← readChars (cs.length + 1) cs
  some (String.ofList body, rest)

/-- The value of a run of decimal digits. -/
def digitsValue (cs : List Char) : Nat := cs.foldl (fun n c => n * 10 + (c.toNat - '0'.toNat)) 0

/-- The digits at the front of a text. There must be one. -/
def readDigits (cs : List Char) : Option (List Char × List Char) :=
  match cs.takeWhile Char.isDigit with
  | [] => none
  | digits => some (digits, cs.dropWhile Char.isDigit)

/-- An integer part has no leading zero. -/
def readIntegerPart : Reader (List Char)
  | '0' :: c :: rest => if c.isDigit then none else some (['0'], c :: rest)
  | cs => readDigits cs

def readFraction : Reader (Option (List Char))
  | '.' :: rest => (readDigits rest).map fun (digits, rest) => (some digits, rest)
  | cs => some (none, cs)

def readExponent : Reader (Option Int)
  | c :: rest =>
    if c == 'e' || c == 'E' then
      match rest with
      | '+' :: rest =>
        (readDigits rest).map fun (digits, rest) => (some (digitsValue digits : Int), rest)
      | '-' :: rest =>
        (readDigits rest).map fun (digits, rest) => (some (-(digitsValue digits : Int)), rest)
      | rest => (readDigits rest).map fun (digits, rest) => (some (digitsValue digits : Int), rest)
    else some (none, c :: rest)
  | [] => some (none, [])

/-- True when `mantissa * 10 ^ exponent` does not round to infinity. -/
def fitsDouble (mantissa : Nat) (exponent : Int) : Bool :=
  let digits := (Nat.toDigits 10 mantissa).length
  if mantissa == 0 || exponent + digits < 300 then true
  else if 400 < exponent then false
  else
    match Double.ofFraction (mantissa * tenTo exponent.toNat) (tenTo (-exponent).toNat) with
    | .finite .. => true
    | .infinite _ => false

def readUnsigned (negative : Bool) (cs : List Char) : Option (Json × List Char) := do
  let (whole, rest) ← readIntegerPart cs
  let (fraction, rest) ← readFraction rest
  let (power, rest) ← readExponent rest
  let digits := digitsValue (whole ++ fraction.getD [])
  let signed : Int := if negative then -digits else digits
  let exponent : Int := power.getD 0 - (fraction.getD []).length
  if !fitsDouble digits exponent then none
  else if fraction.isNone && power.isNone then some (int signed, rest)
  else some (real signed exponent, rest)

def readNumber : Reader Json
  | '-' :: rest => readUnsigned true rest
  | cs => readUnsigned false cs

/-- The items of an array after its first one. -/
def readItems (value : Reader Json) : Nat → Reader (List Json)
  | 0, _ => none
  | fuel + 1, cs =>
    match skipSpace cs with
    | ']' :: rest => some ([], rest)
    | ',' :: rest => do
      let (item, rest) ← value (skipSpace rest)
      let (items, rest) ← readItems value fuel rest
      some (item :: items, rest)
    | _ => none

def readField (value : Reader Json) : Reader (String × Json)
  | '"' :: rest => do
    let (name, rest) ← readString rest
    match skipSpace rest with
    | ':' :: rest => do
      let (item, rest) ← value (skipSpace rest)
      some ((name, item), rest)
    | _ => none
  | _ => none

/-- The fields of an object after its first one. -/
def readFields (value : Reader Json) : Nat → Reader (List (String × Json))
  | 0, _ => none
  | fuel + 1, cs =>
    match skipSpace cs with
    | '\x7d' :: rest => some ([], rest)
    | ',' :: rest => do
      let (field, rest) ← readField value (skipSpace rest)
      let (fields, rest) ← readFields value fuel rest
      some (field :: fields, rest)
    | _ => none

/-- A value whose arrays and objects nest less than `depth` deep. -/
def readValue : Nat → Reader Json
  | _, 'n' :: 'u' :: 'l' :: 'l' :: rest => some (null, rest)
  | _, 't' :: 'r' :: 'u' :: 'e' :: rest => some (bool true, rest)
  | _, 'f' :: 'a' :: 'l' :: 's' :: 'e' :: rest => some (bool false, rest)
  | _, '"' :: rest => (readString rest).map fun (s, rest) => (str s, rest)
  | 0, '[' :: _ => none
  | 0, '\x7b' :: _ => none
  | depth + 1, '[' :: rest =>
    match skipSpace rest with
    | ']' :: rest => some (arr [], rest)
    | rest => do
      let (item, rest) ← readValue depth rest
      let (items, rest) ← readItems (readValue depth) rest.length rest
      some (arr (item :: items), rest)
  | depth + 1, '\x7b' :: rest =>
    match skipSpace rest with
    | '\x7d' :: rest => some (obj [], rest)
    | rest => do
      let (field, rest) ← readField (readValue depth) rest
      let (fields, rest) ← readFields (readValue depth) rest.length rest
      some (obj (field :: fields), rest)
  | _, cs => readNumber cs

/-- Arrays and objects that nest deeper than this are refused. -/
def maxDepth : Nat := 127

/-- Reads a whole text as one value. -/
def parse? (text : String) : Option Json := do
  let (value, rest) ← readValue maxDepth (skipSpace text.toList)
  if (skipSpace rest).isEmpty then some value else none

end Json

end RuleDesk
