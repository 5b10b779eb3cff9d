import RuleDesk.Feature.Navigation

namespace RuleDesk

/-- A piece of text that replaces a range. -/
structure TextEdit where
  range : PositionRange
  newText : String
deriving DecidableEq, Repr

/-- The edits of each document. -/
abbrev WorkspaceEdit := List (String × List TextEdit)

/-- The longest name in bytes that is accepted. -/
def maxNameLength : Nat := 128

def isAsciiWordPart (c : Char) : Bool := isWordStart c || c.isDigit

/-- True of the ASCII names that a rule or a loop variable can have. -/
def isValidIdentifier (name : String) : Bool :=
  match name.toList with
  | [] => false
  | c :: rest =>
    isWordStart c && rest.all isAsciiWordPart && name.utf8ByteSize ≤
      maxNameLength && !isKeyword name

/-- True of the ASCII names that a pattern can have behind its sigil. -/
def isValidBareName (bare : String) : Bool :=
  bare != "" && bare.utf8ByteSize ≤ maxNameLength && bare.toList.all isAsciiWordPart

namespace Snapshot

/-- Replaces all the names of an entity, with each span narrowed by `narrow`. -/
def replaceNames (s : Snapshot) (entity : Entity) (narrow : Span → Span) (newText : String) :
    List (String × Span × String) :=
  (s.findReferences entity true).map fun (uri, span) => (uri, narrow span, newText)

/-- The spans to replace for a new name, in all documents, or why the name is
refused. The sigil of a pattern stays at each of its names. -/
def renameEdits (s : Snapshot) (entity : Entity) (newName : String) :
    Except RequestError (List (String × Span × String)) :=
  match entity with
  | .member path => .error (.notRenameable path.text)
  | .rule uri rule =>
    if !isValidIdentifier newName then .error (.invalidIdentifier newName .rule)
    else if (s.ruleOf? uri rule).map (·.name) = some newName then .ok []
    else if !(s.ruleDeclarations newName).isEmpty then .error (.ruleExists newName)
    else .ok (s.replaceNames entity id newName)
  | .pattern uri rule pattern =>
    let bare := bareName newName
    if !isValidBareName bare then .error (.invalidIdentifier newName .pattern)
    else
      let patterns := ((s.ruleOf? uri rule).map (·.patterns)).getD []
      if (patterns[pattern]?).map (fun p => bareName p.name) = some bare then .ok []
      else if (patternNamed? patterns bare).isSome then .error (.patternExists ("$" ++ bare))
      else .ok (s.replaceNames entity (fun span => ⟨span.start + 1, span.stop⟩) bare)
  | .loopVariable uri var =>
    if !isValidIdentifier newName then .error (.invalidIdentifier newName .loopVariable)
    else if (s.loopVariableOf? uri var).map (·.name) = some newName then .ok []
    else .ok (s.replaceNames entity id newName)

/-- The edits of one document, in the order of their places. -/
def editsOf (s : Snapshot) (spans : List (String × Span × String)) (uri : String) : List TextEdit :=
  let edits := (spans.filter (·.1 == uri)).filterMap fun (_, span, newText) =>
    (s.document? uri).map fun x => (⟨x.document.range span, newText⟩ : TextEdit)
  edits.mergeSort fun a b =>
    a.range.start.line < b.range.start.line ||
      (a.range.start.line == b.range.start.line && a.range.start.column ≤ b.range.start.column)

/-- Gives the entity at a position a new name. The edit is empty if the name
stays the same. -/
def rename (s : Snapshot) (uri : String) (p : Position) (newName : String) :
    Except RequestError (Option WorkspaceEdit) := do
  match ← s.named? uri p with
  | none => return none
  | some (_, r) =>
    let spans ← s.renameEdits r.entity newName
    return some ((spans.map (·.1)).eraseDups.map fun uri => (uri, s.editsOf spans uri))

end Snapshot

end RuleDesk
