import RuleDesk.Disk
import RuleDesk.Format
import RuleDesk.Json
import RuleDesk.Lines
import RuleDesk.Number.Double

namespace RuleDesk.Lsp

/-- Why a JSON value is not what a message needs. -/
inductive DecodeError
  | missingField (name : String)
  | wrongType (found expected : String)
  | wrongValue (found expected : String)
  | wrongLength (length : Nat) (expected : String)
  | noVariant (name : String)
deriving DecidableEq, Repr

def DecodeError.message : DecodeError → String
  | missingField name => "missing field `" ++ name ++ "`"
  | wrongType found expected => "invalid type: " ++ found ++ ", expected " ++ expected
  | wrongValue found expected => "invalid value: " ++ found ++ ", expected " ++ expected
  | wrongLength length expected => "invalid length " ++ toString length ++ ", expected " ++ expected
  | noVariant name => "data did not match any variant of untagged enum " ++ name

abbrev Decoder (α : Type) := Json → Except DecodeError α

/-- A character as it stands between the quotes of a description. -/
def quotedChar (c : Char) : List Char :=
  if c == '"' || c == '\\' then ['\\', c]
  else if c == '\n' then ['\\', 'n']
  else if c == '\r' then ['\\', 'r']
  else if c == '\t' then ['\\', 't']
  else if c == '\x00' then ['\\', '0']
  else if c.toNat < 32 || c.toNat == 127 then
    "\\u\x7b".toList ++ Nat.toDigits 16 c.toNat ++ ['\x7d']
  else [c]

/-- A number that is no integer, in the fewest digits. One that is integral
keeps a zero behind the point. -/
def realText (mantissa exponent : Int) : String :=
  let size := Double.ofFraction (mantissa.natAbs * tenTo exponent.toNat) (tenTo (-exponent).toNat)
  let text := (if mantissa < 0 then size.negate else size).text
  if text.contains '.' then text else text ++ ".0"

/-- What a value is, in the words of an error. -/
def describe : Json → String
  | .null => "null"
  | .bool b => "boolean `" ++ toString b ++ "`"
  | .int n => "integer `" ++ toString n ++ "`"
  | .real m e => "floating point `" ++ realText m e ++ "`"
  | .str s => String.ofList ("string \"".toList ++ s.toList.flatMap quotedChar ++ ['"'])
  | .arr _ => "sequence"
  | .obj _ => "map"

def wrongType (j : Json) (expected : String) : Except DecodeError α :=
  .error (.wrongType (describe j) expected)

/-- An integer for which `p` holds. -/
def integer (p : Int → Bool) (expected : String) : Decoder Int
  | .int n => if p n then .ok n else .error (.wrongValue (describe (.int n)) expected)
  | j => wrongType j expected

/-- An unsigned number of 32 bits. -/
def unsigned : Decoder Nat := fun j => (integer isUnsigned32 "u32" j).map Int.toNat

/-- A signed number of 32 bits. -/
def signed : Decoder Int := integer isSigned32 "i32"

def boolean : Decoder Bool
  | .bool b => .ok b
  | j => wrongType j "a boolean"

def string : Decoder String
  | .str s => .ok s
  | j => wrongType j "a string"

/-- True of texts that start with the scheme of a URI: a letter, then letters,
digits, `+`, `-` and `.` up to a colon. -/
def hasScheme (cs : List Char) : Bool :=
  let isPart (c : Char) : Bool := c.isAlphanum || c == '+' || c == '-' || c == '.'
  cs.head?.any Char.isAlpha && (cs.dropWhile isPart).head? == some ':'

/-- The URI of a document. There is no other one that it could be relative to. -/
def uri : Decoder String
  | .str s =>
    if hasScheme s.toList then .ok s
    else .error (.wrongValue (describe (.str s)) "relative URL without a base")
  | j => wrongType j "a string representing an URL"

def list (item : Decoder α) : Decoder (List α)
  | .arr items => items.mapM item
  | j => wrongType j "a sequence"

/-- A value that may be `null`. -/
def optional (value : Decoder α) : Decoder (Option α)
  | .null => .ok none
  | j => (value j).map some

/-- An object with fields of its own and others. -/
def object (name : String) : Decoder Json
  | .obj fields => .ok (.obj fields)
  | j => wrongType j ("struct " ++ name)

/-- A record is an object, or the array of the values of all its fields. -/
def record (name : String) (fields : List String) : Decoder Json
  | .arr items =>
    if items.length < fields.length then
      let elements := if fields.length == 1 then " element" else " elements"
      .error (.wrongLength items.length
        ("struct " ++ name ++ " with " ++ toString fields.length ++ elements))
    else if fields.length < items.length then
      .error (.wrongLength items.length "fewer elements in array")
    else .ok (.obj (fields.zip items))
  | j => object name j

/-- The value of a field, if it is there. Where a record has several fields
they are decoded in the order of their names, before any is required. -/
def present (j : Json) (name : String) (value : Decoder α) : Except DecodeError (Option α) :=
  match j.field? name with
  | none => .ok none
  | some v => (value v).map some

def require (name : String) : Option α → Except DecodeError α
  | some a => .ok a
  | none => .error (.missingField name)

/-- The value of the only field that a record needs. -/
def field (j : Json) (name : String) (value : Decoder α) : Except DecodeError α := do
  require name (← present j name value)

/-- A field that may be missing or `null`. -/
def optionalField (j : Json) (name : String) (value : Decoder α) :
    Except DecodeError (Option α) := do
  return (← present j name (optional value)).join

def position : Decoder Position := fun j => do
  let j ← record "Position" ["line", "character"] j
  let character ← present j "character" unsigned
  let line ← present j "line" unsigned
  return ⟨← require "line" line, ← require "character" character⟩

/-- The URI in a reference to a document. -/
def documentUri : Decoder String := fun j => do
  field (← record "TextDocumentIdentifier" ["uri"] j) "uri" uri

/-- The document and the position that a request is about. -/
def place (j : Json) : Except DecodeError (String × Position) := do
  let position ← present j "position" position
  let document ← present j "textDocument" documentUri
  return (← require "textDocument" document, ← require "position" position)

/-- Formatting options that clients add of their own are simple values. -/
def formattingProperty : Decoder Unit
  | .bool _ => .ok ()
  | .str _ => .ok ()
  | .int n => if isSigned32 n then .ok () else .error (.noVariant "FormattingProperty")
  | _ => .error (.noVariant "FormattingProperty")

def formatOptionNames : List String :=
  ["tabSize", "insertSpaces", "trimTrailingWhitespace", "insertFinalNewline", "trimFinalNewlines"]

/-- Options of a formatting request. A tab size of zero counts as one. -/
def formatOptions : Decoder FormatOptions := fun j => do
  let j ← object "FormattingOptions" j
  let finalNewline ← optionalField j "insertFinalNewline" boolean
  let insertSpaces ← present j "insertSpaces" boolean
  let tabSize ← present j "tabSize" unsigned
  let _ ← optionalField j "trimFinalNewlines" boolean
  let _ ← optionalField j "trimTrailingWhitespace" boolean
  let tabSize := max 1 (← require "tabSize" tabSize)
  let indentation : Indentation :=
    if ← require "insertSpaces" insertSpaces then .spaces tabSize else .tabs
  for (name, value) in j.fields do
    unless formatOptionNames.contains name do formattingProperty value
  return ⟨indentation, tabSize, finalNewline.getD false⟩

/-- The kinds of changes to files have numbers. -/
def fileChange : Decoder FileChange := fun j => do
  match ← signed j with
  | 1 => return .created
  | 2 => return .changed
  | 3 => return .deleted
  | _ => return .other

end RuleDesk.Lsp
