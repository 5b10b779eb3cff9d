import RuleDesk.Snapshot

namespace RuleDesk

structure Location where
  uri : String
  range : PositionRange
deriving DecidableEq, Repr

/-- A highlighted name is written where it is declared and read elsewhere. -/
inductive HighlightKind
  | read | write
deriving DecidableEq, Repr

structure Highlight where
  range : PositionRange
  kind : HighlightKind
deriving DecidableEq, Repr

namespace Snapshot

def location? (s : Snapshot) (place : String × Span) : Option Location :=
  (s.document? place.1).map fun x => ⟨place.1, x.document.range place.2⟩

/-- The entity whose name is at a position, with the document. Places inside
of a declaration but not on a name count for nothing. -/
def named? (s : Snapshot) (uri : String) (p : Position) :
    Except RequestError (Option (DocumentIndex × Resolved)) := do
  let x ← s.require uri
  return ((x.document.offset? p).bind (s.resolve? uri)).bind fun r =>
    if r.role = .enclosing then none else some (x, r)

/-- Where the entity at a position is declared. -/
def definition (s : Snapshot) (uri : String) (p : Position) :
    Except RequestError (Option Location) := do
  match ← s.named? uri p with
  | none => return none
  | some (_, r) => return (s.declaration? r.entity).bind s.location?

/-- The names of the entity at a position, in all documents. -/
def references (s : Snapshot) (uri : String) (p : Position) (declaration : Bool) :
    Except RequestError (Option (List Location)) := do
  match ← s.named? uri p with
  | none => return none
  | some (_, r) => return some ((s.findReferences r.entity declaration).filterMap s.location?)

/-- The names of the entity at a position, in the same document. -/
def highlights (s : Snapshot) (uri : String) (p : Position) :
    Except RequestError (Option (List Highlight)) := do
  match ← s.named? uri p with
  | none => return none
  | some (x, r) =>
    let here (places : List (String × Span)) (kind : HighlightKind) : List Highlight :=
      (places.filter (·.1 == uri)).map fun place => ⟨x.document.range place.2, kind⟩
    return some (here (s.declaration? r.entity).toList .write ++
      here (s.referencesTo r.entity) .read)

end Snapshot

end RuleDesk
