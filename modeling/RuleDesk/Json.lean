namespace RuleDesk

/-- A JSON value. Numbers written without fraction and exponent are integers,
the others are kept as `mantissa * 10 ^ exponent`. Objects keep the order of
their fields. -/
inductive Json
  | null
  | bool (value : Bool)
  | int (value : Int)
  | real (mantissa exponent : Int)
  | str (value : String)
  | arr (items : List Json)
  | obj (fields : List (String × Json))
deriving Inhabited

namespace Json

def nat (n : Nat) : Json := int n

def ofOption (f : α → Json) : Option α → Json
  | none => null
  | some a => f a

/-- An object from fields that may be absent. -/
def objOf (fields : List (String × Option Json)) : Json :=
  obj (fields.filterMap fun field => field.2.map fun value => (field.1, value))

def fields : Json → List (String × Json)
  | obj fields => fields
  | _ => []

def items : Json → List Json
  | arr items => items
  | _ => []

/-- The value of a field; when the name is repeated, its last value. -/
def field? (j : Json) (name : String) : Option Json := j.fields.reverse.lookup name

/-- The value of a field, where a missing field counts as `null`. -/
def field (j : Json) (name : String) : Json := (j.field? name).getD null

/-- The value at the end of a path of fields. -/
def at? (j : Json) : List String → Option Json
  | [] => some j
  | name :: rest => (j.field? name).bind (at? · rest)

def str? : Json → Option String
  | str s => some s
  | _ => none

def int? : Json → Option Int
  | int n => some n
  | _ => none

def nat? : Json → Option Nat
  | int (.ofNat n) => some n
  | _ => none

def bool? : Json → Option Bool
  | bool b => some b
  | _ => none

/-- The four hex digits of a character below 65536. -/
def hexQuad (n : Nat) : List Char :=
  [n / 4096 % 16, n / 256 % 16, n / 16 % 16, n % 16].map Nat.digitChar

/-- A character as it stands between the quotes of a JSON string. -/
def escape (c : Char) : List Char :=
  if c == '"' then ['\\', '"']
  else if c == '\\' then ['\\', '\\']
  else if c == '\n' then ['\\', 'n']
  else if c == '\r' then ['\\', 'r']
  else if c == '\t' then ['\\', 't']
  else if c.toNat == 8 then ['\\', 'b']
  else if c.toNat == 12 then ['\\', 'f']
  else if c.toNat < 32 then '\\' :: 'u' :: hexQuad c.toNat
  else [c]

def quote (s : String) : List Char := '"' :: s.toList.flatMap escape ++ ['"']

mutual

/-- The text of a value without white space. -/
def write : Json → List Char
  | null => ['n', 'u', 'l', 'l']
  | bool true => ['t', 'r', 'u', 'e']
  | bool false => ['f', 'a', 'l', 's', 'e']
  | int n => (toString n).toList
  | real m e => (toString m).toList ++ 'e' :: (toString e).toList
  | str s => quote s
  | arr items => '[' :: writeItems items ++ [']']
  | obj fields => '\x7b' :: writeFields fields ++ ['\x7d']

def writeItems : List Json → List Char
  | [] => []
  | [j] => write j
  | j :: rest => write j ++ ',' :: writeItems rest

def writeFields : List (String × Json) → List Char
  | [] => []
  | [(name, j)] => quote name ++ ':' :: write j
  | (name, j) :: rest => quote name ++ ':' :: write j ++ ',' :: writeFields rest

end

mutual

/-- The same value with the fields of every object sorted by name. -/
def sortFields : Json → Json
  | arr items => arr (sortItems items)
  | obj fields => obj ((sortValues fields).mergeSort fun a b => a.1 ≤ b.1)
  | null => null
  | bool b => bool b
  | int n => int n
  | real m e => real m e
  | str s => str s

def sortItems : List Json → List Json
  | [] => []
  | j :: rest => sortFields j :: sortItems rest

def sortValues : List (String × Json) → List (String × Json)
  | [] => []
  | (name, j) :: rest => (name, sortFields j) :: sortValues rest

end

def text (j : Json) : String := String.ofList j.write

end Json

end RuleDesk
