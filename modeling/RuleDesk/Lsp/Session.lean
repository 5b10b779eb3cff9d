import RuleDesk.Analysis.Clock
import RuleDesk.Feature.Formatting
import RuleDesk.Feature.Hover
import RuleDesk.Lsp.Encode
import RuleDesk.Lsp.Message
import RuleDesk.Lsp.Notification
import RuleDesk.Lsp.Request

namespace RuleDesk.Lsp

/-- What a session needs from the place where it runs. Compilers are found by
their paths. -/
structure Host where
  catalog : Catalog
  disk : Disk
  compilerAt : String → Compiler

/-- A client first starts a session, then declares it ready, and in the end
shuts it down. -/
inductive Lifecycle
  | fresh | starting | ready | shuttingDown
deriving DecidableEq, Repr

/-- A session with a client. Diagnostics are sent to the client, or pulled by
it. The requests of the server have numbers of their own; those for the
settings wait for their replies. -/
structure Session where
  host : Host
  lifecycle : Lifecycle
  pulled : Bool
  folder : Option String
  analysis : Analysis
  nextRequest : Nat
  settingsRequests : List Nat
  outbox : List Outgoing
  closed : Bool

namespace Session

open Json

/-- A session before its first message. -/
def fresh (host : Host) : Session where
  host
  lifecycle := .fresh
  pulled := false
  folder := none
  analysis := .start host.catalog .standard (some (host.compilerAt Settings.standard.compilerPath))
  nextRequest := 0
  settingsRequests := []
  outbox := []
  closed := false

def send (s : Session) (m : Outgoing) : Session := { s with outbox := s.outbox ++ [m] }

/-- Sends a request to the client. -/
def ask (s : Session) (method : String) (params : Option Json) : Session :=
  { s.send (.request s.nextRequest method params) with nextRequest := s.nextRequest + 1 }

def act (s : Session) (x : Action) : Session :=
  { s with analysis := s.analysis.apply s.host.disk x }

/-- Tells the client about diagnostics that have been published. A client that
pulls them is asked to do so again. -/
def announce (s : Session) : Event → Session
  | .published p =>
    if s.pulled then s.ask "workspace/diagnostic/refresh" none
    else s.send (.notification "textDocument/publishDiagnostics" (ofPublication p))
  | .compiled _ => s
  | .moved .. => s

/-- Lets the analysis come to its end and tells the client about its events. -/
def settle (s : Session) : Session :=
  let a := s.analysis.settle
  a.journal.reverse.foldl announce { s with analysis := { a with journal := [] } }

def registration (id method : String) (options : Option Json) : Json :=
  obj [("registrations",
    arr [objOf [("id", some (str id)), ("method", some (str method)),
      ("registerOptions", options)]])]

def watchedFilesId : String := "yarals/watchedFiles"

def watchedFilesMethod : String := "workspace/didChangeWatchedFiles"

/-- The files to be watched. All kinds of changes are of interest. -/
def watchers : Json :=
  obj [("watchers", arr [obj [("globPattern", str "**/*.\x7byar,yara\x7d"), ("kind", int 7)]])]

/-- Watches and indexes the files in the folder of the workspace, if it has one. -/
def startCaching (s : Session) : Session :=
  match s.folder with
  | none => s
  | some folder =>
    (s.ask "client/registerCapability"
      (some (registration watchedFilesId watchedFilesMethod (some watchers)))).act (.cache folder)

def stopCaching (s : Session) : Session :=
  (s.ask "client/unregisterCapability" (some (obj [("unregisterations",
    arr [obj [("id", str watchedFilesId), ("method", str watchedFilesMethod)]])]))).act .clearCache

/-- Asks the client for the settings. -/
def askSettings (s : Session) : Session :=
  { s.ask "workspace/configuration"
      (some (obj [("items", arr [obj [("section", str "YARA")]])])) with
    settingsRequests := s.nextRequest :: s.settingsRequests }

/-- Uses other settings from now on. -/
def configure (s : Session) (settings : Settings) : Session :=
  let before := s.analysis.settings
  let s :=
    if settings.compilerPath = before.compilerPath then s
    else s.act (.useCompiler (some (s.host.compilerAt settings.compilerPath)))
  let s := s.act (.configure settings)
  match before.cacheWorkspace, settings.cacheWorkspace with
  | false, true => s.startCaching
  | true, false => s.stopCaching
  | _, _ => s

/-- The settings in a reply: the last item that it has. -/
def repliedSettings? : Option Json → Option Settings
  | some (.arr items) => items.getLast?.bind Settings.ofJson?
  | _ => none

/-- Takes the reply to a request for the settings. No other reply matters. -/
def replied (s : Session) (id : Json) (result : Option Json) : Session :=
  match id with
  | .int (.ofNat number) =>
    if s.settingsRequests.contains number then
      let s := { s with settingsRequests := s.settingsRequests.filter (· != number) }
      match repliedSettings? result with
      | some settings => s.configure settings
      | none => s.send (.notification "window/showMessage"
          (obj [("type", int 1), ("message", str "YARA: failed to parse configuration")]))
    else s
  | _ => s

def compileRule : String := "yara.CompileRule"

def compileAllRules : String := "yara.CompileAllRules"

/-- What the server can do. -/
def capabilities : Json :=
  obj [("textDocumentSync",
      obj [("openClose", bool true), ("change", int 1),
        ("save", obj [("includeText", bool true)])]),
    ("hoverProvider", bool true),
    ("completionProvider",
      obj [("resolveProvider", bool false),
        ("triggerCharacters", arr ([".", "!", "$", "@", "#", "[", "\""].map str))]),
    ("definitionProvider", bool true),
    ("referencesProvider", bool true),
    ("documentHighlightProvider", bool true),
    ("documentFormattingProvider", bool true),
    ("renameProvider", bool true),
    ("executeCommandProvider", obj [("commands", arr [str compileRule, str compileAllRules])]),
    ("diagnosticProvider",
      obj [("interFileDependencies", bool false), ("workspaceDiagnostics", bool false)])]

def serverInfo : Json := obj [("name", str "yarals"), ("version", str "0.1.0")]

/-- Starts the analysis anew, with the settings of the client. -/
def start (s : Session) (client : ClientInfo) : Session :=
  { s with
    pulled := client.pullsDiagnostics
    folder := client.folder
    analysis := .start s.host.catalog client.settings
      (some (s.host.compilerAt client.settings.compilerPath)) }

/-- A result that a request may do without. -/
def optionalResult (f : α → Json) (r : Except RequestError (Option α)) :
    Except ResponseError Json :=
  match r with
  | .ok value => .ok (ofOption f value)
  | .error e => .error (.ofRequest e)

/-- Runs a command of the client. -/
def runCommand (s : Session) (name : String) (arguments : List Json) :
    Except ResponseError Json × Session :=
  if name = compileRule then
    match arguments.head?.map uri with
    | some (.ok uri) => (.ok null, (s.act (.compile uri)).settle)
    | _ => (.error (.invalidParams (compileRule ++ " expects a document URI")), s)
  else if name = compileAllRules then (.ok null, s.act .compileAll)
  else (.error (.invalidParams ("unknown command `" ++ name ++ "`")), s)

/-- The diagnostics of a document for a client that pulls them. -/
def diagnosticReport (a : Analysis) (uri : String) : Except RequestError Json := do
  let x ← a.snapshot.require uri
  return obj [("kind", str "full"),
    ("items", arr ((← a.diagnostics uri).map (ofDiagnostic x.document.text)))]

/-- Answers a request. All but the first two and the last one only read. -/
def answer (s : Session) : Request → Except ResponseError Json × Session
  | .start client =>
    (.ok (obj [("capabilities", capabilities), ("serverInfo", serverInfo)]), s.start client)
  | .shutdown => (.ok null, s)
  | .hover uri p =>
    (optionalResult (fun text => obj [("contents", ofMarkdown text)])
      (s.analysis.snapshot.hover s.host.catalog uri p), s)
  | .definition uri p => (optionalResult ofLocation (s.analysis.snapshot.definition uri p), s)
  | .references uri p declaration =>
    (optionalResult (fun places => arr (places.map ofLocation))
      (s.analysis.snapshot.references uri p declaration), s)
  | .completion uri p =>
    (optionalResult (fun items => arr (items.map ofCompletionItem))
      (s.analysis.snapshot.completion s.host.catalog uri p), s)
  | .highlights uri p =>
    (optionalResult (fun places => arr (places.map ofHighlight))
      (s.analysis.snapshot.highlights uri p), s)
  | .rename uri p name =>
    (optionalResult ofWorkspaceEdit (s.analysis.snapshot.rename uri p name), s)
  | .diagnostics uri => (optionalResult id ((diagnosticReport s.analysis uri).map some), s)
  | .formatting uri options =>
    (optionalResult (fun edits => arr (edits.map ofTextEdit))
      (s.analysis.snapshot.formatting uri options), s)
  | .command name arguments => s.runCommand name arguments

/-- Requests are refused before the session is ready and after it is shut
down. It is started by the first request that says so, and only once. -/
def refusal? (s : Session) (method : String) : Option ResponseError :=
  match s.lifecycle with
  | .fresh => if method = "initialize" then none else some .notInitialized
  | .starting => some .notInitialized
  | .ready => if method = "initialize" then some .alreadyInitialized else none
  | .shuttingDown => some (if method = "initialize" then .alreadyInitialized else .shuttingDown)

/-- Moves on in the lifecycle for a request that is not refused. -/
def enter (s : Session) (method : String) : Session :=
  match s.lifecycle with
  | .fresh => { s with lifecycle := .starting }
  | .ready => if method = "shutdown" then { s with lifecycle := .shuttingDown } else s
  | _ => s

def requested (s : Session) (id : Json) (method : String) (params : Json) : Session :=
  match s.refusal? method with
  | some e => s.send (.failure id e)
  | none =>
    let s := s.enter method
    match Request.decode? method params with
    | none => s.send (.failure id (.unknownMethod method))
    | some (.error e) => s.send (.failure id (.ofDecode e))
    | some (.ok r) =>
      match s.answer r with
      | (.ok value, s) => s.send (.result id value)
      | (.error e, s) => s.send (.failure id e)

def close (s : Session) : Session := { s with closed := true }

/-- The client is ready. From now on it tells when its settings change, and
the workspace is cached if that was set from the start. -/
def becomeReady (s : Session) : Session :=
  if s.lifecycle = .starting then
    let s := { s with lifecycle := .ready }.ask "client/registerCapability"
      (some (registration "yarals/didChangeConfiguration" "workspace/didChangeConfiguration" none))
    if s.analysis.settings.cacheWorkspace then s.startCaching else s
  else s.close

/-- Takes a notification. Only the last one of several changes matters, since
each of them replaces the whole text. -/
def notified (s : Session) : Notification → Session
  | .initialized => s.becomeReady
  | .exit => s.close
  | .opened uri version text => s.act (.change uri version text.toList)
  | .changed uri version texts =>
    match texts.getLast? with
    | some text => s.act (.change uri version text.toList)
    | none => s
  | .saved uri text => s.act (.save uri (text.map String.toList))
  | .closed uri => s.act (.close uri)
  | .configurationChanged => s.askSettings
  | .filesChanged changes => s.act (.watched changes)
  | .ignored => s

/-- Takes a message. What is no message, or a notification that cannot be
handled, ends the session. -/
def handle (s : Session) (message : Json) : Session :=
  match Incoming.ofJson? message with
  | none => s.close
  | some (.request id method params) => s.requested id method params
  | some (.reply id result) => s.replied id result
  | some (.notification method params) =>
    match Notification.decode? method params with
    | some (.ok n) => s.notified n
    | _ => s.close

/-- The answers to a message, and the session after all that it has caused. -/
def receive (s : Session) (message : Json) : List Outgoing × Session :=
  let s := (s.handle message).settle
  (s.outbox, { s with outbox := [] })

end Session

end RuleDesk.Lsp
