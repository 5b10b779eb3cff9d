import RuleDesk.Analysis

namespace RuleDesk

namespace Analysis

/-- Starts a pass over a version of a document, unless the version is too old.
The document is open from then on, and the pass takes the place of the one
that was started before. -/
def startPass? (a : Analysis) (uri : String) (version : Option Int) (sameVersion : Bool) :
    Option (Nat × Analysis) :=
  let d := (a.open? uri).getD (.unanalyzed uri)
  if d.accepts version sameVersion then
    let opened := if a.isOpen uri then a.opened else a.opened ++ [d]
    let started := { a with opened, nextPass := a.nextPass + 1 }
    some (a.nextPass,
      (started.update uri ({ · with version, pass := a.nextPass })).moveTo uri .parsing)
  else none

/-- True of the pass that was started last for a document that is open. -/
def isCurrent (a : Analysis) (p : Pass) : Bool :=
  match a.open? p.uri with
  | some d => d.pass == p.number
  | none => false

/-- Puts a new index of an open document into the snapshot. -/
def commit (a : Analysis) (x : DocumentIndex) : Analysis :=
  (a.replaceSnapshot (some x.uri) (a.snapshot.withDocument x)).moveTo x.uri .indexed

/-- How long a pass waits before it compiles, if it is to compile at all. What
was saved is compiled at once. -/
def compileDelay? (a : Analysis) (saved : Bool) : Option Nat :=
  if a.compiler.isNone then none
  else if saved then (if a.settings.compileOnSave then some 0 else none)
  else if a.settings.compileOnChange then some a.settings.debounce else none

/-- Has a pass wait for its compilation, or publishes the diagnostics at once
if there will be none. -/
def schedule (a : Analysis) (number : Nat) (uri : String) (version : Option Int) (saved : Bool) :
    Analysis :=
  match a.compileDelay? saved with
  | none => a.publish uri version []
  | some delay => { a with passes := a.passes ++ [⟨number, uri, version, a.now + delay, .waiting⟩] }

/-- The files for the compilation of a document: its own, and the others in
the order of registration. -/
def sourcesFor (a : Analysis) (x : DocumentIndex) : List SourceText :=
  (x :: a.snapshot.documents.filter (·.uri != x.uri)).map fun y => ⟨y.uri, y.document.text⟩

/-- Hands a version of a document to the compiler. -/
def startCompiling (a : Analysis) (number : Nat) (uri : String) (version : Option Int) : Analysis :=
  match a.compiler with
  | none => a.publish uri version []
  | some c =>
    match a.snapshot.document? uri with
    | none => a
    | some x =>
      if x.document.version = version then
        let files := a.sourcesFor x
        let pass := ⟨number, uri, version, a.now + c.delay, .compiling x.document (c.compile files)⟩
        ({ a with passes := a.passes ++ [pass] }.moveTo uri .compiling).record (.compiled files)
      else a

/-- Keeps and publishes what the compiler found. -/
def finishCompiling (a : Analysis) (uri : String) (version : Option Int)
    (found : Option (List Diagnostic)) : Analysis :=
  let kept := a.update uri fun d =>
    { d with compilerAvailable := found.isSome, compiled := found.map fun ds => ⟨version, ds⟩ }
  ((kept.moveTo uri .compileComplete).publish uri version (found.getD [])).moveTo uri .indexed

/-- Goes on with a pass once it is due. If another pass was started for its
document, or the document was closed, the pass ends and has no effect.

A cancellation is taken first here. In the program a pass that waits looks at its timer and at its
cancellation in no fixed order: where both are there at once and the document still has the version
of the pass, the pass may move it to compiling, and even ask the compiler, before it ends. That race
is left out. -/
def wake (a : Analysis) (number : Nat) : Analysis :=
  match a.passes.find? (·.number == number) with
  | none => a
  | some p =>
    if a.now < p.due then a
    else
      let rest := { a with passes := a.passes.filter (·.number != number) }
      if a.isCurrent p then
        match p.stage with
        | .waiting => rest.startCompiling number p.uri p.version
        | .compiling document answer =>
          rest.finishCompiling p.uri p.version (answer.diagnostics? document)
      else rest

end Analysis

end RuleDesk
