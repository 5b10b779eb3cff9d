import RuleDesk.Analysis.Pass

namespace RuleDesk

/-- What the editor, the user, the disk and the clock do to an analysis. -/
inductive Action
  | change (uri : String) (version : Int) (text : List Char)
  | save (uri : String) (text : Option (List Char))
  | close (uri : String)
  | compile (uri : String)
  | compileAll
  | configure (settings : Settings)
  | useCompiler (compiler : Option Compiler)
  | cache (folder : String)
  | clearCache
  | watched (changes : List (String × FileChange))
  | tick (time : Nat)
  | wake (pass : Nat)

namespace Analysis

/-- True if a version that comes from the editor is newer than the one before. -/
def acceptsChange (a : Analysis) (uri : String) (version : Int) : Bool :=
  ((a.open? uri).getD (.unanalyzed uri)).accepts (some version) false

/-- A document is opened or changed in the editor. Versions that are not newer
than the last one are ignored. -/
def change (a : Analysis) (uri : String) (version : Int) (text : List Char) : Analysis :=
  match a.startPass? uri (some version) false with
  | none => a
  | some (number, a) =>
    let (order, a) := a.orderOf uri
    let x := (Document.ofText uri (some version) text).index a.catalog order
    (a.commit x).schedule number uri (some version) false

/-- A document is saved. Text that differs from the current one takes its
place under the same version. -/
def save (a : Analysis) (uri : String) (text : Option (List Char)) : Analysis :=
  match a.snapshot.document? uri with
  | none => a
  | some current =>
    let version := current.document.version
    match a.startPass? uri version true with
    | none => a
    | some (number, a) =>
      let saved := match text with
        | some text =>
          if text = current.document.text then a.moveTo uri .indexed
          else a.commit ((Document.ofText uri version text).index a.catalog current.order)
        | none => a.moveTo uri .indexed
      saved.schedule number uri version true

/-- A document is closed in the editor. Its diagnostics are taken back. If the
workspace is cached, the document is what is on disk from now on. -/
def close (a : Analysis) (disk : Disk) (uri : String) : Analysis :=
  let closed := { a with opened := a.opened.filter (·.uri != uri) }
  let (file, a) := if a.settings.cacheWorkspace then closed.readFile disk uri else (none, closed)
  let cleared := a.record (.published ⟨uri, none, [], []⟩)
  cleared.replaceSnapshot (some uri) <|
    match file with
    | some x => a.snapshot.withDocument x
    | none => a.snapshot.withoutDocument uri

/-- An open document is compiled without any delay. -/
def compile (a : Analysis) (uri : String) : Analysis :=
  match a.open? uri with
  | none => a
  | some d =>
    match a.startPass? uri d.version true with
    | none => a
    | some (number, a) => (a.moveTo uri .indexed).startCompiling number uri d.version

def compileAll (a : Analysis) : Analysis := (a.opened.map (·.uri)).foldl compile a

/-- Reads files one after the other, and leaves out those that cannot be read. -/
def readFiles (a : Analysis) (disk : Disk) : List String → List DocumentIndex × Analysis
  | [] => ([], a)
  | uri :: rest =>
    let (file, a) := a.readFile disk uri
    let (files, a) := a.readFiles disk rest
    (file.toList ++ files, a)

/-- Adds the files with rules in a folder to the snapshot. Open documents stay
as they are in the editor. -/
def cache (a : Analysis) (disk : Disk) (folder : String) : Analysis :=
  let (files, a) := a.readFiles disk ((disk.ruleFiles folder).filter fun uri => !a.isOpen uri)
  a.replaceSnapshot none (a.snapshot.withDocuments files)

/-- Takes all documents that are not open out of the snapshot. -/
def clearCache (a : Analysis) : Analysis :=
  a.replaceSnapshot none (a.snapshot.withoutDocuments fun x => !a.isOpen x.uri)

/-- A file has changed on disk. What is open in the editor does not follow. -/
def fileChanged (disk : Disk) (a : Analysis) (change : String × FileChange) : Analysis :=
  let (uri, kind) := change
  if a.isOpen uri then a
  else
    match kind with
    | .created | .changed =>
      match a.readFile disk uri with
      | (some x, a) => a.replaceSnapshot none (a.snapshot.withDocument x)
      | (none, a) => a
    | .deleted => a.replaceSnapshot none (a.snapshot.withoutDocument uri)
    | .other => a

/-- Files that are being watched matter only to a workspace that is cached. -/
def watched (a : Analysis) (disk : Disk) (changes : List (String × FileChange)) : Analysis :=
  if a.settings.cacheWorkspace then changes.foldl (fileChanged disk) a else a

/-- What the analysis is after an action. -/
def apply (disk : Disk) (a : Analysis) : Action → Analysis
  | .change uri version text => a.change uri version text
  | .save uri text => a.save uri text
  | .close uri => a.close disk uri
  | .compile uri => a.compile uri
  | .compileAll => a.compileAll
  | .configure settings => { a with settings }
  | .useCompiler compiler => { a with compiler }
  | .cache folder => a.cache disk folder
  | .clearCache => a.clearCache
  | .watched changes => a.watched disk changes
  | .tick time => { a with now := a.now + time }
  | .wake number => a.wake number

end Analysis

end RuleDesk
