import RuleDesk.Lsp.Decode
import RuleDesk.Settings

namespace RuleDesk.Lsp

/-- What a client tells about itself when it starts a session. -/
structure ClientInfo where
  pullsDiagnostics : Bool
  folder : Option String
  settings : Settings

/-- What a client can ask for. -/
inductive Request
  | start (client : ClientInfo)
  | shutdown
  | hover (uri : String) (position : Position)
  | definition (uri : String) (position : Position)
  | references (uri : String) (position : Position) (declaration : Bool)
  | completion (uri : String) (position : Position)
  | highlights (uri : String) (position : Position)
  | rename (uri : String) (position : Position) (name : String)
  | diagnostics (uri : String)
  | formatting (uri : String) (options : FormatOptions)
  | command (name : String) (arguments : List Json)

namespace Request

/-- True if the client can pull diagnostics. It says so in a field that may
well be empty. -/
def pullsDiagnostics : Decoder Bool := fun j => do
  let j ← object "ClientCapabilities" j
  let document ← optionalField j "textDocument" (object "TextDocumentClientCapabilities")
  match document with
  | none => return false
  | some document =>
    return (← optionalField document "diagnostic" (object "DiagnosticClientCapabilities")).isSome

/-- The URI of a folder of the workspace. -/
def workspaceFolder : Decoder String := fun j => do
  let j ← record "WorkspaceFolder" ["uri", "name"] j
  let name ← present j "name" string
  let folder ← present j "uri" uri
  let folder ← require "uri" folder
  let _ ← require "name" name
  return folder

/-- The first one of the folders counts, if it is on the disk of the server.
Settings that cannot be read are as if they were missing. -/
def clientInfo : Decoder ClientInfo := fun j => do
  let j ← object "InitializeParams" j
  let pulls ← present j "capabilities" pullsDiagnostics
  let _ ← optionalField j "processId" unsigned
  let _ ← optionalField j "rootPath" string
  let _ ← optionalField j "rootUri" uri
  let folders ← optionalField j "workspaceFolders" (list workspaceFolder)
  return {
    pullsDiagnostics := ← require "capabilities" pulls
    folder := (folders.bind List.head?).filter fun uri => "file:///".toList.isPrefixOf uri.toList
    settings := ((j.field? "initializationOptions").bind Settings.ofJson?).getD .standard }

def includeDeclaration : Decoder Bool := fun j => do
  field (← record "ReferenceContext" ["includeDeclaration"] j) "includeDeclaration" boolean

/-- The request of a method, if there is one, or what is wrong with its parameters. -/
def decode? (method : String) (params : Json) : Option (Except DecodeError Request) :=
  match method with
  | "initialize" => some do return start (← clientInfo params)
  | "shutdown" => some <|
    match params with
    | .null => .ok shutdown
    | _ => wrongType params "unit"
  | "textDocument/hover" => some do
    let (uri, position) ← place (← object "HoverParams" params)
    return hover uri position
  | "textDocument/definition" => some do
    let (uri, position) ← place (← object "GotoDefinitionParams" params)
    return definition uri position
  | "textDocument/references" => some do
    let params ← object "ReferenceParams" params
    let declaration ← field params "context" includeDeclaration
    let (uri, position) ← place params
    return references uri position declaration
  | "textDocument/completion" => some do
    let (uri, position) ← place (← object "CompletionParams" params)
    return completion uri position
  | "textDocument/documentHighlight" => some do
    let (uri, position) ← place (← object "DocumentHighlightParams" params)
    return highlights uri position
  | "textDocument/rename" => some do
    let params ← object "RenameParams" params
    let name ← field params "newName" string
    let (uri, position) ← place params
    return rename uri position name
  | "textDocument/diagnostic" => some do
    let params ← object "DocumentDiagnosticParams" params
    return diagnostics (← field params "textDocument" documentUri)
  | "textDocument/formatting" => some do
    let params ← object "DocumentFormattingParams" params
    let options ← present params "options" formatOptions
    let document ← present params "textDocument" documentUri
    return formatting (← require "textDocument" document) (← require "options" options)
  | "workspace/executeCommand" => some do
    let params ← object "ExecuteCommandParams" params
    let arguments ← present params "arguments" (list .ok)
    return command (← field params "command" string) (arguments.getD [])
  | _ => none

end Request

end RuleDesk.Lsp
