import RuleDesk.Index
import RuleDesk.Text.Blank

namespace RuleDesk

/-- What is known where an expression stands: the modules, the rule, and the
loop variables in scope, the innermost first. -/
structure Scope where
  catalog : Catalog
  imports : List String
  rule : Nat
  patterns : List PatternSymbol
  vars : List (Nat × LoopVariable)
  insideForOf : Bool

namespace Scope

def varNamed? (s : Scope) (name : String) : Option (Nat × LoopVariable) :=
  s.vars.find? fun v => v.2.name == name

/-- A name is a module if it was imported or is known, so that a module can
be used before its import is written. -/
def isModule (s : Scope) (name : String) : Bool :=
  s.imports.contains name || (s.catalog.module? name).isSome

def resolves (s : Scope) (p : Path) : Bool := (s.catalog.find? p).isSome

end Scope

/-- What was found so far in the conditions of a document. -/
structure Found where
  loopVars : List LoopVariable
  occurrences : List Occurrence
  diagnostics : List Diagnostic

namespace Found

def addOccurrence (out : Found) (s : Scope) (span : Span) (kind : OccurrenceKind) : Found :=
  { out with occurrences := out.occurrences ++ [⟨span, s.rule, kind⟩] }

def addError (out : Found) (span : Span) (message : String) (code : Option String) : Found :=
  { out with diagnostics := out.diagnostics ++ [.error span message code] }

/-- A reference to a pattern. One without a name means the pattern that a
loop over patterns stands at. -/
def addPattern (out : Found) (s : Scope) (ident : Ident) (indexed : Bool) : Found :=
  if bareName ident.name == "" then
    if s.insideForOf then out
    else out.addError ident.span ("`" ++ ident.name ++ "` used outside of `for .. of`") none
  else
    let pattern := patternNamed? s.patterns ident.name
    let out :=
      if pattern.isNone then
        out.addError ident.span ("unknown pattern `" ++ ident.name ++ "`") (some "unknown_pattern")
      else out
    out.addOccurrence s ident.span (.patternReference pattern false indexed)

/-- An item of a pattern set. A wildcard has to match some pattern. -/
def addSetItem (s : Scope) (out : Found) (item : SetItem) : Found :=
  if item.wildcard then
    let start := bareName item.ident.name
    let out :=
      if s.patterns.any fun p => start.toList.isPrefixOf (bareName p.name).toList then out
      else out.addError item.span ("no pattern matches `" ++ item.ident.name ++ "*`") none
    if start == "" then out
    else out.addOccurrence s item.ident.span (.patternReference none true false)
  else out.addPattern s item.ident false

def addSet (s : Scope) (out : Found) : PatternSet → Found
  | .them _ => out
  | .items items => items.foldl (addSetItem s) out

/-- The name at the root of a chain, and the path it stands for: that of the
items of a loop or that of a module. All other names are rules. -/
def addRoot (s : Scope) (out : Found) (ident : Ident) : Found × Option Path :=
  match s.varNamed? ident.name with
  | some (i, v) => (out.addOccurrence s ident.span (.variableReference i), v.binding)
  | none =>
    if s.isModule ident.name then
      let path : Path := [.field ident.name]
      (out.addOccurrence s ident.span (.moduleReference path (s.resolves path)), some path)
    else if ident.name == "" then (out, none)
    else (out.addOccurrence s ident.span (.ruleReference ident.name), none)

/-- A field of a chain. Fields behind a module are occurrences of their own. -/
def addField (s : Scope) (name : Ident) : Found × Option Path → Found × Option Path
  | (out, none) => (out, none)
  | (out, some path) =>
    let path := path ++ [.field name.name]
    (out.addOccurrence s name.span (.moduleReference path (s.resolves path)), some path)

/-- Declares the variables of a loop. Only the last one stands for the items:
with two variables a loop goes through a dictionary. -/
def addVariables (scope : Span) (items : Option Path) :
    List Ident → Scope × Found → Scope × Found
  | [], acc => acc
  | ident :: rest, (s, out) =>
    let v : LoopVariable := ⟨ident.name, ident.span, scope, if rest.isEmpty then items else none⟩
    let i := out.loopVars.length
    let out := { out with loopVars := out.loopVars ++ [v] }
    addVariables scope items rest
      ({ s with vars := (i, v) :: s.vars },
        out.addOccurrence s ident.span (.variableDeclaration i))

end Found

mutual

/-- Finds the names in an expression. For a chain, the result also has the
path of the module member that it leads to. -/
def visit (s : Scope) : Expr → Found → Found × Option Path
  | .atom .., out => (out, none)
  | .integer .., out => (out, none)
  | .ruleWildcard _, out => (out, none)
  | .error _, out => (out, none)
  | .ident ident, out => out.addRoot s ident
  | .field object name _, out => Found.addField s name (visit s object out)
  | .lookup object index _, out =>
    let (out, path) := visit s object out
    ((visit s index out).1, path.map (· ++ [.index]))
  | .call callee args _, out => (visitAll s args (visit s callee out).1, none)
  | .pattern ident anchor _, out => (visitAnchor s anchor (out.addPattern s ident false), none)
  | .count ident range _, out => (visitRange s range (out.addPattern s ident false), none)
  | .offset ident index _, out => (visitIndex s index (out.addPattern s ident index.isSome), none)
  | .length ident index _, out => (visitIndex s index (out.addPattern s ident index.isSome), none)
  | .group inner _, out => ((visit s inner out).1, none)
  | .unary _ operand _, out => ((visit s operand out).1, none)
  | .binary _ operands _, out => (visitAll s operands out, none)
  | .of quantifier items anchor _, out =>
    (visitAnchor s anchor (visitItems s items (visitQuantifier s quantifier out)), none)
  | .forOf quantifier set body _, out =>
    ((visit { s with insideForOf := true } body
      (Found.addSet s (visitQuantifier s quantifier out) set)).1, none)
  | .forIn quantifier vars iterable body _, out =>
    let (out, items) := visitIterable s iterable (visitQuantifier s quantifier out)
    let (inner, out) := Found.addVariables body.span items vars (s, out)
    ((visit inner body out).1, none)

def visitAll (s : Scope) : List Expr → Found → Found
  | [], out => out
  | e :: rest, out => visitAll s rest (visit s e out).1

def visitBounds (s : Scope) : Bounds Expr → Found → Found
  | ⟨_, lower, upper⟩, out => (visit s upper (visit s lower out).1).1

def visitRange (s : Scope) : Option (Bounds Expr) → Found → Found
  | none, out => out
  | some bounds, out => visitBounds s bounds out

def visitIndex (s : Scope) : Option Expr → Found → Found
  | none, out => out
  | some e, out => (visit s e out).1

def visitAnchor (s : Scope) : Anchor Expr → Found → Found
  | .anywhere, out => out
  | .at e, out => (visit s e out).1
  | .within bounds, out => visitBounds s bounds out

def visitQuantifier (s : Scope) : Quantifier Expr → Found → Found
  | .percentage e, out => (visit s e out).1
  | .count e, out => (visit s e out).1
  | .none _, out => out
  | .all _, out => out
  | .any _, out => out

def visitItems (s : Scope) : OfItems Expr → Found → Found
  | .patterns set, out => Found.addSet s out set
  | .tuple items, out => visitAll s items out

/-- The result also has the path of the items of what a loop goes through. -/
def visitIterable (s : Scope) : Iterable Expr → Found → Found × Option Path
  | .range bounds, out => (visitBounds s bounds out, none)
  | .tuple items, out => (visitAll s items out, none)
  | .value e, out =>
    let (out, path) := visit s e out
    (out, path.map (· ++ [.index]))

end

namespace Document

def patternSymbol (d : Document) (p : Pattern) : PatternSymbol :=
  ⟨p.ident.name, p.ident.span, p.span, p.kind,
    String.ofList (trim (d.textAt ⟨p.value.start, p.span.stop⟩))⟩

def ruleSymbol (d : Document) (r : Rule) : RuleSymbol where
  name := r.ident.name
  nameSpan := r.ident.span
  span := r.span
  isPrivate := r.isPrivate
  isGlobal := r.isGlobal
  tags := r.tags.map (·.name)
  metas := r.metas.map fun m => (m.ident.name, m.value.text)
  patterns := r.patterns.map d.patternSymbol

/-- The declarations of a rule and its named patterns. -/
def declarations (i : Nat) (r : Rule) : List Occurrence :=
  (if r.ident.name == "" then [] else [⟨r.ident.span, i, .ruleDeclaration⟩]) ++
    r.patterns.zipIdx.filterMap fun (p, n) =>
      if bareName p.ident.name == "" then none
      else some ⟨p.ident.span, i, .patternDeclaration n⟩

/-- Finds the names of a rule: its declarations, then those of its condition. -/
def visitRule (d : Document) (catalog : Catalog) (out : Found) : Rule × Nat → Found
  | (r, i) =>
    let out := { out with occurrences := out.occurrences ++ declarations i r }
    match r.condition with
    | none => out
    | some condition =>
      let scope : Scope :=
        { catalog, imports := d.file.imports.map (·.moduleName), rule := i,
          patterns := (d.ruleSymbol r).patterns, vars := [], insideForOf := false }
      (visit scope condition out).1

/-- All that is found in the rules of a document, in the order of the walk. -/
def found (d : Document) (catalog : Catalog) : Found :=
  d.file.rules.zipIdx.foldl (d.visitRule catalog) ⟨[], [], d.syntaxDiagnostics⟩

/-- Indexes a document. Occurrences and diagnostics are sorted by their spans. -/
def index (d : Document) (catalog : Catalog) (order : Nat) : DocumentIndex :=
  let found := d.found catalog
  { document := d
    order
    rules := d.file.rules.map d.ruleSymbol
    loopVars := found.loopVars
    occurrences := found.occurrences.mergeSort fun a b => a.span.notAfter b.span
    diagnostics := Diagnostic.sortBySpan found.diagnostics }

end Document

end RuleDesk
