import RuleDesk.Feature.Navigation

namespace RuleDesk

/-- The head of a rule and its metas. -/
def RuleSymbol.markdown (r : RuleSymbol) : String :=
  "### rule `" ++ r.name ++ "`\n```\n" ++ r.header ++ "\n" ++
    String.join (r.metas.map fun (key, value) => "    " ++ key ++ " = " ++ value ++ "\n") ++ "```\n"

def PatternSymbol.markdown (p : PatternSymbol) : String :=
  "Pattern value is:\n\n`" ++ p.value ++ "`"

/-- The name of a loop variable, and the type of the items it stands for. -/
def LoopVariable.markdown (catalog : Catalog) (v : LoopVariable) : String :=
  "Loop variable `" ++ v.name ++ "`" ++
    match v.binding with
    | none => ""
    | some path =>
      match catalog.find? path with
      | none => ""
      | some n => "\n\nItem of `" ++ Path.text path.dropLast ++ "`: " ++ n.typeName

/-- The type of a part of a module, its overloads and its documentation. -/
def SchemaNode.markdown (n : SchemaNode) (path : Path) : String :=
  let name := match path.getLast? with
    | some (.field name) => name
    | _ => ""
  let overloads :=
    if n.isFunction then
      "\n\n```\n" ++ String.join ((n.signatures name).map (· ++ "\n")) ++ "```"
    else ""
  "### `" ++ path.text ++ "`\n\n*" ++ n.typeName ++ "*" ++ overloads ++
    match n.doc? with
    | some doc => "\n\n" ++ doc
    | none => ""

namespace Snapshot

/-- What is shown for an entity. -/
def markdown? (s : Snapshot) (catalog : Catalog) : Entity → Option String
  | .rule uri rule => (s.ruleOf? uri rule).map (·.markdown)
  | .pattern uri rule pattern =>
    (s.ruleOf? uri rule).bind fun r => r.patterns[pattern]?.map (·.markdown)
  | .loopVariable uri var => (s.loopVariableOf? uri var).map (·.markdown catalog)
  | .member path => (catalog.find? path).map (·.markdown path)

/-- True at a reference with an index, such as `@a[1]`. It means a match of a
pattern and not the pattern. -/
def atIndexedReference (x : DocumentIndex) (offset : Nat) : Bool :=
  match x.occurrenceAt? offset with
  | some ⟨_, _, .patternReference _ _ true⟩ => true
  | _ => false

/-- What is shown when the pointer rests on a position. -/
def hover (s : Snapshot) (catalog : Catalog) (uri : String) (p : Position) :
    Except RequestError (Option String) := do
  let x ← s.require uri
  if ((x.document.offset? p).map (atIndexedReference x)).getD false then return none
  match ← s.named? uri p with
  | none => return none
  | some (_, r) => return s.markdown? catalog r.entity

end Snapshot

end RuleDesk
