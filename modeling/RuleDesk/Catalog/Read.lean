import RuleDesk.Catalog
import RuleDesk.Json.Read
import RuleDesk.Json.Record

namespace RuleDesk

/-- Why a text is no catalog. -/
inductive CatalogError
  | malformed
  | notModule (name : String)
deriving DecidableEq, Repr

def CatalogError.message : CatalogError → String
  | malformed => "malformed module schema"
  | notModule name => "malformed module schema: module `" ++ name ++ "` is not a namespace"

/-- Named values sorted by name; of a repeated name the last value stays. -/
def sortByName (xs : List (String × α)) : List (String × α) :=
  (((xs.map (·.1)).eraseDups).mergeSort fun a b => a ≤ b).filterMap fun name =>
    (xs.reverse.lookup name).map fun value => (name, value)

namespace SchemaNode

/-- The kinds of nodes, in the order in which they are numbered. -/
def kindNames : List String := ["namespace", "scalar", "struct", "array", "dictionary", "function"]

/-- A kind, given by its name or, below the modules, by its number. -/
def kind? (nested : Bool) : Json → Option String
  | .str name => if kindNames.contains name then some name else none
  | .int (.ofNat n) => if nested then kindNames[n]? else none
  | _ => none

/-- Documentation is a text or `null`, and may be missing. -/
def docOf? : Option Json → Option (Option String)
  | none => some none
  | some .null => some none
  | some (.str s) => some (some s)
  | _ => none

def scalarTypeNamed? : String → Option ScalarType
  | "integer" => some .integer
  | "float" => some .float
  | "string" => some .string
  | "bool" => some .bool
  | _ => none

/-- A scalar type is its name, or an object with the name as its only field. -/
def scalarType? : Json → Option ScalarType
  | .str name => scalarTypeNamed? name
  | .obj [(name, .null)] => scalarTypeNamed? name
  | .obj [(name, .obj [])] => scalarTypeNamed? name
  | _ => none

def signature? (j : Json) : Option Signature := do
  match ← j.record? ["params", "result"] with
  | [some params, some (.str result)] => some ⟨← params.strings?, result⟩
  | _ => none

/-- The kind of a node and the record of its other fields. -/
def split? : Json → Option (Json × Json)
  | .obj fields =>
    match fields.partition (·.1 == "kind") with
    | ([(_, kind)], rest) => some (kind, .obj rest)
    | _ => none
  | .arr (kind :: rest) => some (kind, .arr rest)
  | _ => none

/-- Reads a node whose parts nest less than `fuel` deep. -/
def ofJson? : Nat → Bool → Json → Option SchemaNode
  | 0, _, _ => none
  | fuel + 1, nested, j => do
    let (kind, body) ← split? j
    let members? (m : Json) : Option (List (String × SchemaNode)) :=
      match m with
      | .obj fields => do
        some (sortByName (← fields.mapM fun field => do
          some (field.1, ← ofJson? fuel true field.2)))
      | _ => none
    match ← kind? nested kind with
    | "namespace" =>
      match ← body.record? ["doc", "members"] with
      | [doc, some ms] => some (root (← docOf? doc) (← members? ms))
      | _ => none
    | "scalar" =>
      match ← body.record? ["doc", "type"] with
      | [doc, some type] => some (scalar (← docOf? doc) (← scalarType? type))
      | _ => none
    | "struct" =>
      match ← body.record? ["doc", "members"] with
      | [doc, some ms] => some (record (← docOf? doc) (← members? ms))
      | _ => none
    | "array" =>
      match ← body.record? ["doc", "items"] with
      | [doc, some items] => some (array (← docOf? doc) (← ofJson? fuel true items))
      | _ => none
    | "dictionary" =>
      match ← body.record? ["doc", "values", "keys"] with
      | [doc, some values, keys] =>
        let keys ← match keys with
          | none => some []
          | some keys => keys.strings?
        some (dictionary (← docOf? doc) (← ofJson? fuel true values) keys)
      | _ => none
    | "function" =>
      match ← body.record? ["doc", "overloads"] with
      | [doc, some (.arr overloads)] => some (function (← docOf? doc) (← overloads.mapM signature?))
      | _ => none
    | _ => none

end SchemaNode

namespace Catalog

/-- The modules of a catalog, whatever their kind. -/
def modules? (j : Json) : Option (List (String × SchemaNode)) :=
  match j with
  | .obj fields => do
    some (sortByName (← fields.mapM fun field => do
      some (field.1, ← SchemaNode.ofJson? (Json.maxDepth + 1) false field.2)))
  | _ => none

def ofJson? (j : Json) : Except CatalogError Catalog :=
  match modules? j with
  | none => .error .malformed
  | some modules =>
    match modules.find? fun m => !m.2.isRoot with
    | some m => .error (.notModule m.1)
    | none => .ok ⟨modules⟩

/-- Reads a catalog from its text. Every module must be the root of a tree. -/
def ofText? (text : String) : Except CatalogError Catalog :=
  match Json.parse? text with
  | some j => ofJson? j
  | none => .error .malformed

end Catalog

end RuleDesk
