import RuleDesk.Compiler
import RuleDesk.Disk
import RuleDesk.Index.Visit
import RuleDesk.Settings
import RuleDesk.Snapshot

namespace RuleDesk

/-- How far the analysis of a document has come. A pass starts by parsing; then
the document is indexed, compiled if a compiler is used, and indexed again. -/
inductive Phase
  | unanalyzed | parsing | indexed | compiling | compileComplete
deriving DecidableEq, Repr

/-- What the compiler found in a version of a document. -/
structure Compiled where
  version : Option Int
  diagnostics : List Diagnostic
deriving DecidableEq, Repr

/-- A document that is open in the editor. `version` is the last one that the
editor gave, `pass` the number of the last pass that was started. -/
structure OpenDocument where
  uri : String
  version : Option Int
  phase : Phase
  pass : Nat
  lastPublished : Option Int
  compiled : Option Compiled
  compilerAvailable : Bool
deriving DecidableEq, Repr

/-- A pass waits until the document has been left alone for a while, and then
for the compiler, which got one state of the document. -/
inductive Stage
  | waiting
  | compiling (document : Document) (answer : CompilerAnswer)

/-- A pass over one version of a document that goes on when time comes to `due`. -/
structure Pass where
  number : Nat
  uri : String
  version : Option Int
  due : Nat
  stage : Stage

/-- Diagnostics as they are sent to the editor, with the version and the text
that their spans are about. A document that is closed has neither. -/
structure Publication where
  uri : String
  version : Option Int
  text : List Char
  diagnostics : List Diagnostic
deriving DecidableEq, Repr

/-- What happens in the course of an analysis and is seen from the outside. -/
inductive Event
  | published (p : Publication)
  | compiled (files : List SourceText)
  | moved (uri : String) (before after : Phase)
deriving DecidableEq, Repr

/-- The analysis of a workspace: the snapshot that answers requests, and the
documents that are open. Documents read from disk are in the snapshot only.
The journal has the newest event first. -/
structure Analysis where
  catalog : Catalog
  settings : Settings
  compiler : Option Compiler
  snapshot : Snapshot
  opened : List OpenDocument
  passes : List Pass
  nextOrder : Nat
  nextPass : Nat
  now : Nat
  journal : List Event

namespace OpenDocument

/-- A document before its first pass. -/
def unanalyzed (uri : String) : OpenDocument := ⟨uri, none, .unanalyzed, 0, none, none, true⟩

/-- A new version is taken if it is larger than the current one, or equal to
it where that is allowed. Without versions there is nothing to compare. -/
def accepts (d : OpenDocument) (version : Option Int) (sameVersion : Bool) : Bool :=
  match version, d.version with
  | some new, some current => current < new || (current == new && sameVersion)
  | _, _ => true

/-- What the compiler found, if it was about this version. -/
def compiledFor (d : OpenDocument) (version : Option Int) : List Diagnostic :=
  match d.compiled with
  | some c => if c.version = version then c.diagnostics else []
  | none => []

/-- True if diagnostics of a newer version were published before. No version
is older than any. -/
def publishedAfter (d : OpenDocument) (version : Option Int) : Bool :=
  match d.lastPublished, version with
  | some last, some v => v < last
  | some _, none => true
  | none, _ => false

end OpenDocument

namespace Analysis

def start (catalog : Catalog) (settings : Settings) (compiler : Option Compiler) : Analysis where
  catalog
  settings
  compiler
  snapshot := .empty
  opened := []
  passes := []
  nextOrder := 0
  nextPass := 0
  now := 0
  journal := []

def open? (a : Analysis) (uri : String) : Option OpenDocument := a.opened.find? (·.uri == uri)

def isOpen (a : Analysis) (uri : String) : Bool := a.opened.any (·.uri == uri)

/-- The phase of any document. Documents that are not open have none of their
own, they are indexed or unknown. -/
def phase (a : Analysis) (uri : String) : Phase :=
  match a.open? uri with
  | some d => d.phase
  | none => if (a.snapshot.document? uri).isSome then .indexed else .unanalyzed

/-- False if the last compilation of an open document had no compiler. -/
def compilerAvailable (a : Analysis) (uri : String) : Bool :=
  match a.open? uri with
  | some d => d.compilerAvailable
  | none => true

/-- A snapshot is current until another one takes its place. -/
def requireCurrent (a : Analysis) (s : Snapshot) : Except RequestError Unit :=
  if a.snapshot.generation = s.generation then .ok () else .error .staleSnapshot

/-- All diagnostics of the current version of a document. Those of the compiler
come last. -/
def diagnostics (a : Analysis) (uri : String) : Except RequestError (List Diagnostic) := do
  let x ← a.snapshot.require uri
  let found ← a.snapshot.diagnostics uri
  return found ++ match a.open? uri with
    | some d => d.compiledFor x.document.version
    | none => []

def record (a : Analysis) (e : Event) : Analysis := { a with journal := e :: a.journal }

/-- Changes an open document. -/
def update (a : Analysis) (uri : String) (f : OpenDocument → OpenDocument) : Analysis :=
  { a with opened := a.opened.map fun d => if d.uri == uri then f d else d }

/-- Moves an open document to a phase. -/
def moveTo (a : Analysis) (uri : String) (phase : Phase) : Analysis :=
  match a.open? uri with
  | none => a
  | some d => (a.update uri ({ · with phase })).record (.moved uri d.phase phase)

/-- Publishes the diagnostics of a version of an open document together with
those of the compiler. Nothing is published if the version is no longer the
current one, or if a newer one was published before. -/
def publish (a : Analysis) (uri : String) (version : Option Int) (compiled : List Diagnostic) :
    Analysis :=
  match a.snapshot.document? uri, a.snapshot.diagnostics uri, a.open? uri with
  | some x, .ok found, some d =>
    if x.document.version = version && d.version = version && !d.publishedAfter version then
      (a.update uri ({ · with lastPublished := version })).record
        (.published ⟨uri, version, x.document.text, found ++ compiled⟩)
    else a
  | _, _, _ => a

/-- Publishes the current version of an open document once more. -/
def republish (a : Analysis) (uri : String) : Analysis :=
  match a.open? uri with
  | some d => a.publish uri d.version (d.compiledFor d.version)
  | none => a

/-- Puts another snapshot in place. Open documents whose rules are in conflict
with others in a new way are published again, except `changed`, which has a
pass of its own. -/
def replaceSnapshot (a : Analysis) (changed : Option String) (new : Snapshot) : Analysis :=
  let affected := (a.opened.map (·.uri)).filter fun uri =>
    changed != some uri && a.snapshot.conflicts uri != new.conflicts uri
  affected.foldl republish { a with snapshot := new }

/-- The place of a document in the order of registration. It keeps the one
that it has, and otherwise gets the next one. -/
def orderOf (a : Analysis) (uri : String) : Nat × Analysis :=
  match a.snapshot.document? uri with
  | some x => (x.order, a)
  | none => (a.nextOrder, { a with nextOrder := a.nextOrder + 1 })

/-- Reads and indexes a file. Files that cannot be read take no order. -/
def readFile (a : Analysis) (disk : Disk) (uri : String) : Option DocumentIndex × Analysis :=
  match disk.read? uri with
  | none => (none, a)
  | some text =>
    let (order, a) := a.orderOf uri
    (some ((Document.ofText uri none text).index a.catalog order), a)

end Analysis

end RuleDesk
