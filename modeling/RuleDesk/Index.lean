import RuleDesk.Document
import RuleDesk.Catalog

namespace RuleDesk

/-- A declared pattern. The name includes the sigil, the value its modifiers. -/
structure PatternSymbol where
  name : String
  nameSpan : Span
  span : Span
  kind : PatternKind
  value : String
deriving DecidableEq, Repr

/-- A declared rule. The values of its metas are as they stand in the source. -/
structure RuleSymbol where
  name : String
  nameSpan : Span
  span : Span
  isPrivate : Bool
  isGlobal : Bool
  tags : List String
  metas : List (String × String)
  patterns : List PatternSymbol
deriving DecidableEq, Repr

/-- The number of the pattern that a reference names. Its sigil does not
matter, and an anonymous reference names none. -/
def patternNamed? (patterns : List PatternSymbol) (name : String) : Option Nat :=
  let bare := bareName name
  if bare == "" then none else patterns.findIdx? fun p => bareName p.name == bare

namespace RuleSymbol

def pattern? (r : RuleSymbol) (name : String) : Option Nat := patternNamed? r.patterns name

/-- The head of the rule as it would be written. -/
def header (r : RuleSymbol) : String :=
  (if r.isPrivate then "private " else "") ++ (if r.isGlobal then "global " else "") ++
    "rule " ++ r.name ++ if r.tags.isEmpty then "" else " : " ++ " ".intercalate r.tags

end RuleSymbol

/-- A variable of a loop. It is visible in `scope`. The binding is the path
of the items it stands for, if the loop goes through a part of a module. -/
structure LoopVariable where
  name : String
  nameSpan : Span
  scope : Span
  binding : Option Path
deriving DecidableEq, Repr

/-- What an occurrence of a name is. A reference to a pattern has no number
if there is no such pattern or if it is a wildcard. -/
inductive OccurrenceKind
  | ruleDeclaration
  | ruleReference (name : String)
  | patternDeclaration (pattern : Nat)
  | patternReference (pattern : Option Nat) (wildcard indexed : Bool)
  | variableDeclaration (var : Nat)
  | variableReference (var : Nat)
  | moduleReference (path : Path) (resolved : Bool)
deriving DecidableEq, Repr

/-- A name in the source, in the rule with a number. -/
structure Occurrence where
  span : Span
  rule : Nat
  kind : OccurrenceKind
deriving DecidableEq, Repr

/-- All that one version of a document declares and mentions. The order is
the one in which documents were registered. -/
structure DocumentIndex where
  document : Document
  order : Nat
  rules : List RuleSymbol
  loopVars : List LoopVariable
  occurrences : List Occurrence
  diagnostics : List Diagnostic

namespace DocumentIndex

def uri (x : DocumentIndex) : String := x.document.uri

/-- The occurrence at an offset. Its end counts as inside, and where one ends
and another starts, the second one is meant. -/
def occurrenceAt? (x : DocumentIndex) (offset : Nat) : Option Occurrence :=
  ((x.occurrences.takeWhile (·.span.start ≤ offset)).reverse.take 2).find? (·.span.touches offset)

def ruleNamed? (x : DocumentIndex) (name : String) : Option Nat := x.rules.findIdx? (·.name == name)

def ruleAt? (x : DocumentIndex) (offset : Nat) : Option Nat := (x.document.ruleAt? offset).map (·.1)

/-- The first variable with the smallest scope among some, with its number. -/
def innermost? : List (LoopVariable × Nat) → Option (LoopVariable × Nat)
  | [] => none
  | v :: rest =>
    match innermost? rest with
    | none => some v
    | some w => if w.1.scope.length < v.1.scope.length then some w else some v

/-- The loop variable of a name that is visible at an offset. -/
def variableAt? (x : DocumentIndex) (name : String) (offset : Nat) : Option Nat :=
  (innermost? (x.loopVars.zipIdx.filter fun v => v.1.name == name && v.1.scope.touches offset)).map
    (·.2)

end DocumentIndex

end RuleDesk
