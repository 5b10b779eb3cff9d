import RuleDesk.Index
import RuleDesk.RequestError

namespace RuleDesk

/-- The indexes of all the documents of a workspace at one moment. No two of
them have one URI. Each newer snapshot has a larger generation. -/
structure Snapshot where
  generation : Nat
  indexes : List DocumentIndex

/-- What a name can stand for. Rules and patterns are numbered in their
documents and rules. -/
inductive Entity
  | rule (uri : String) (rule : Nat)
  | pattern (uri : String) (rule pattern : Nat)
  | loopVariable (uri : String) (var : Nat)
  | member (path : Path)
deriving DecidableEq, Repr

/-- A place is on the name that declares an entity, on one that refers to it,
or elsewhere inside of its declaration. -/
inductive Role
  | declaration | reference | enclosing
deriving DecidableEq, Repr

/-- The entity at a place. The span is that of the name, or for `enclosing`
that of the declaration. -/
structure Resolved where
  entity : Entity
  role : Role
  span : Span
deriving DecidableEq, Repr

namespace Snapshot

def empty : Snapshot := ⟨0, []⟩

/-- The snapshot with documents added. Each replaces the one of its URI. -/
def withDocuments (s : Snapshot) (added : List DocumentIndex) : Snapshot :=
  ⟨s.generation + 1,
    added.foldl (fun all x => all.filter (fun y => y.uri != x.uri) ++ [x]) s.indexes⟩

def withDocument (s : Snapshot) (x : DocumentIndex) : Snapshot := s.withDocuments [x]

/-- The snapshot without the documents that satisfy `p`. -/
def withoutDocuments (s : Snapshot) (p : DocumentIndex → Bool) : Snapshot :=
  ⟨s.generation + 1, s.indexes.filter fun x => !p x⟩

def withoutDocument (s : Snapshot) (uri : String) : Snapshot := s.withoutDocuments (·.uri == uri)

def document? (s : Snapshot) (uri : String) : Option DocumentIndex := s.indexes.find? (·.uri == uri)

def require (s : Snapshot) (uri : String) : Except RequestError DocumentIndex :=
  match s.document? uri with
  | some x => .ok x
  | none => .error (.unknownDocument uri)

/-- The documents in the order in which they were registered. -/
def documents (s : Snapshot) : List DocumentIndex :=
  s.indexes.mergeSort fun x y => x.order ≤ y.order

/-- The rules of a name in one document, each with its URI and number. -/
def declarationsIn (name : String) (x : DocumentIndex) : List (String × Nat) :=
  (x.rules.zipIdx.filter fun r => r.1.name == name).map fun r => (x.uri, r.2)

/-- All the rules of a name: by the order of their documents, then by their
places. The first one is the one that other documents mean. -/
def ruleDeclarations (s : Snapshot) (name : String) : List (String × Nat) :=
  if name == "" then [] else s.documents.flatMap (declarationsIn name)

/-- The rule that a reference in a document means: the first of its name in
the same document, or else the first of all. -/
def resolveRule? (s : Snapshot) (source name : String) : Option (String × Nat) :=
  let all := s.ruleDeclarations name
  (all.find? fun d => d.1 == source).or all.head?

/-- The entity that an occurrence in a document stands for. -/
def resolveOccurrence? (s : Snapshot) (uri : String) (o : Occurrence) : Option Resolved :=
  match o.kind with
  | .ruleDeclaration => some ⟨.rule uri o.rule, .declaration, o.span⟩
  | .ruleReference name =>
    (s.resolveRule? uri name).map fun (uri, rule) => ⟨.rule uri rule, .reference, o.span⟩
  | .patternDeclaration p => some ⟨.pattern uri o.rule p, .declaration, o.span⟩
  | .patternReference (some p) false _ => some ⟨.pattern uri o.rule p, .reference, o.span⟩
  | .patternReference .. => none
  | .variableDeclaration v => some ⟨.loopVariable uri v, .declaration, o.span⟩
  | .variableReference v => some ⟨.loopVariable uri v, .reference, o.span⟩
  | .moduleReference path _ => some ⟨.member path, .reference, o.span⟩

/-- The innermost declaration around an offset: a pattern or else a rule. -/
def enclosing? (x : DocumentIndex) (offset : Nat) : Option Resolved := do
  let i ← x.ruleAt? offset
  let rule ← x.rules[i]?
  match rule.patterns.zipIdx.find? fun p => p.1.span.touches offset with
  | some (p, n) => some ⟨.pattern x.uri i n, .enclosing, p.span⟩
  | none => some ⟨.rule x.uri i, .enclosing, rule.span⟩

/-- The entity at an offset of a document. -/
def resolve? (s : Snapshot) (uri : String) (offset : Nat) : Option Resolved :=
  (s.document? uri).bind fun x =>
    match x.occurrenceAt? offset with
    | some o => s.resolveOccurrence? uri o
    | none => enclosing? x offset

def ruleOf? (s : Snapshot) (uri : String) (rule : Nat) : Option RuleSymbol :=
  (s.document? uri).bind fun x => x.rules[rule]?

def loopVariableOf? (s : Snapshot) (uri : String) (var : Nat) : Option LoopVariable :=
  (s.document? uri).bind fun x => x.loopVars[var]?

/-- The name that declares an entity. Modules are declared in no document. -/
def declaration? (s : Snapshot) : Entity → Option (String × Span)
  | .rule uri rule => (s.ruleOf? uri rule).map fun r => (uri, r.nameSpan)
  | .pattern uri rule pattern =>
    (s.ruleOf? uri rule).bind fun r => r.patterns[pattern]?.map fun p => (uri, p.nameSpan)
  | .loopVariable uri var => (s.loopVariableOf? uri var).map fun v => (uri, v.nameSpan)
  | .member _ => none

/-- The spans of the occurrences of a document that satisfy `p`. -/
def spansWhere (x : DocumentIndex) (p : Occurrence → Bool) : List (String × Span) :=
  (x.occurrences.filter p).map fun o => (x.uri, o.span)

def refersToPattern (rule pattern : Nat) (o : Occurrence) : Bool :=
  o.rule == rule &&
    match o.kind with
    | .patternReference (some p) false _ => p == pattern
    | _ => false

def refersToMember (path : Path) (o : Occurrence) : Bool :=
  match o.kind with
  | .moduleReference p _ => p == path
  | _ => false

/-- The names that refer to an entity. Those of patterns and loop variables
are in one document, those of rules and modules in any. -/
def referencesTo (s : Snapshot) : Entity → List (String × Span)
  | .rule uri rule =>
    match s.ruleOf? uri rule with
    | none => []
    | some r =>
      (s.documents.filter fun x => s.resolveRule? x.uri r.name == some (uri, rule)).flatMap fun x =>
        spansWhere x fun o => o.kind == .ruleReference r.name
  | .pattern uri rule pattern =>
    (s.document? uri).toList.flatMap fun x => spansWhere x (refersToPattern rule pattern)
  | .loopVariable uri var =>
    (s.document? uri).toList.flatMap fun x => spansWhere x fun o => o.kind == .variableReference var
  | .member path => s.documents.flatMap fun x => spansWhere x (refersToMember path)

/-- The names of an entity: its declaration, if wanted, and its references. -/
def findReferences (s : Snapshot) (entity : Entity) (declaration : Bool) : List (String × Span) :=
  (if declaration then (s.declaration? entity).toList else []) ++ s.referencesTo entity

/-- What is wrong with a rule whose name was taken before, by the rule that
is first of the name. -/
def conflict? (s : Snapshot) (uri : String) (i : Nat) (rule : RuleSymbol) : Option Diagnostic :=
  (s.ruleDeclarations rule.name).head?.bind fun (firstUri, first) =>
    if firstUri == uri && first == i then none
    else
      let place := if firstUri == uri then "in this file" else "in `" ++ firstUri ++ "`"
      some (.error rule.nameSpan
        ("duplicate rule `" ++ rule.name ++ "`, already declared " ++ place)
          (some "duplicate_rule"))

/-- One diagnostic for every rule of a document whose name was taken before. -/
def conflicts (s : Snapshot) (uri : String) : List Diagnostic :=
  (s.document? uri).toList.flatMap fun x =>
    x.rules.zipIdx.filterMap fun (rule, i) => s.conflict? uri i rule

/-- All that is found in a document without the compiler, sorted by span. -/
def diagnostics (s : Snapshot) (uri : String) : Except RequestError (List Diagnostic) := do
  let x ← s.require uri
  return Diagnostic.sortBySpan (x.diagnostics ++ s.conflicts uri)

end Snapshot

end RuleDesk
