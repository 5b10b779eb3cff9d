namespace RuleDesk

/-- A step on a path from a module to one of its members. Which item of an
array or dictionary is meant does not matter. -/
inductive Segment
  | field (name : String)
  | index
deriving DecidableEq, Repr

/-- A path, from the module on. -/
abbrev Path := List Segment

namespace Path

/-- A path as it is written in a condition, with empty brackets. -/
def text (p : Path) : String :=
  p.foldl (fun s segment =>
    match segment with
    | .field name => if s == "" then name else s ++ "." ++ name
    | .index => s ++ "[]") ""

end Path

inductive ScalarType
  | integer | float | string | bool
deriving DecidableEq, Repr

def ScalarType.text : ScalarType → String
  | integer => "integer"
  | float => "float"
  | string => "string"
  | bool => "bool"

structure Signature where
  params : List String
  result : String
deriving DecidableEq, Repr

def Signature.text (s : Signature) (name : String) : String :=
  name ++ "(" ++ ", ".intercalate s.params ++ ") -> " ++ s.result

/-- What a module, or a part of it, offers. Members are sorted by name; the
keys of a dictionary are some that are common. -/
inductive SchemaNode
  | root (doc : Option String) (members : List (String × SchemaNode))
  | scalar (doc : Option String) (type : ScalarType)
  | record (doc : Option String) (members : List (String × SchemaNode))
  | array (doc : Option String) (items : SchemaNode)
  | dictionary (doc : Option String) (values : SchemaNode) (keys : List String)
  | function (doc : Option String) (overloads : List Signature)

namespace SchemaNode

/-- The named members. Only modules and records have some. -/
def members : SchemaNode → List (String × SchemaNode)
  | root _ ms | record _ ms => ms
  | _ => []

/-- The node that a step leads to. -/
def child? : SchemaNode → Segment → Option SchemaNode
  | root _ ms, .field name => ms.lookup name
  | record _ ms, .field name => ms.lookup name
  | array _ items, .index => some items
  | dictionary _ values _, .index => some values
  | _, _ => none

def doc? : SchemaNode → Option String
  | root d _ | scalar d _ | record d _ | array d _ | dictionary d _ _ | function d _ => d

def isRoot : SchemaNode → Bool
  | root .. => true
  | _ => false

def isFunction : SchemaNode → Bool
  | function .. => true
  | _ => false

/-- A short description of the type. -/
def typeName : SchemaNode → String
  | root .. => "module"
  | scalar _ t => t.text
  | record .. => "struct"
  | array _ items => "array of " ++ items.typeName
  | dictionary _ values _ => "dictionary of " ++ values.typeName
  | function .. => "function"

/-- The overloads of a function, each one once. -/
def signatures (n : SchemaNode) (name : String) : List String :=
  match n with
  | function _ overloads => (overloads.map (·.text name)).eraseDups
  | _ => []

end SchemaNode

/-- The modules that are known, sorted by name. -/
structure Catalog where
  modules : List (String × SchemaNode)

namespace Catalog

def module? (c : Catalog) (name : String) : Option SchemaNode := c.modules.lookup name

/-- Follows steps from a node as far as they lead somewhere. Gives the last
node and the number of steps taken. -/
def follow (n : SchemaNode) : Path → SchemaNode × Nat
  | [] => (n, 0)
  | segment :: rest =>
    match n.child? segment with
    | none => (n, 0)
    | some child => let (last, steps) := follow child rest; (last, steps + 1)

/-- The longest part of a path that leads somewhere: its last node and its length. -/
def longestPrefix? (c : Catalog) : Path → Option (SchemaNode × Nat)
  | .field name :: rest =>
    (c.module? name).map fun n => let (last, steps) := follow n rest; (last, steps + 1)
  | _ => none

/-- The node at the end of a path. -/
def find? (c : Catalog) (p : Path) : Option SchemaNode :=
  match c.longestPrefix? p with
  | some (n, length) => if length = p.length then some n else none
  | none => none

end Catalog

end RuleDesk
