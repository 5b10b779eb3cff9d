import RuleDesk.Lsp.Decode

namespace RuleDesk.Lsp

/-- What a client tells a server. -/
inductive Notification
  | initialized
  | exit
  | opened (uri : String) (version : Int) (text : String)
  | changed (uri : String) (version : Int) (texts : List String)
  | saved (uri : String) (text : Option String)
  | closed (uri : String)
  | configurationChanged
  | filesChanged (changes : List (String × FileChange))
  | ignored
deriving DecidableEq, Repr

namespace Notification

def openedDocument : Decoder Notification := fun j => do
  let j ← record "TextDocumentItem" ["uri", "languageId", "version", "text"] j
  let _ ← field j "languageId" string
  return opened (← field j "uri" uri) (← field j "version" signed) (← field j "text" string)

/-- The URI and the version of a document. -/
def versionedDocument : Decoder (String × Int) := fun j => do
  let j ← record "VersionedTextDocumentIdentifier" ["uri", "version"] j
  return (← field j "uri" uri, ← field j "version" signed)

/-- A change replaces the whole text. A range in it says nothing more. -/
def contentChange : Decoder String := fun j => do
  let j ← record "TextDocumentContentChangeEvent" ["range", "rangeLength", "text"] j
  field j "text" string

def watchedFile : Decoder (String × FileChange) := fun j => do
  let j ← record "FileEvent" ["uri", "type"] j
  return (← field j "uri" uri, ← field j "type" fileChange)

/-- The notification of a method, or what is wrong with its parameters. There
is none for methods that have to be handled but are not; methods that start
with `$/` need not be handled. -/
def decode? (method : String) (params : Json) : Option (Except DecodeError Notification) :=
  match method with
  | "initialized" => some do
    let _ ← record "InitializedParams" [] params
    return initialized
  | "exit" => some (.ok exit)
  | "textDocument/didOpen" => some do
    field (← record "DidOpenTextDocumentParams" ["textDocument"] params) "textDocument"
      openedDocument
  | "textDocument/didChange" => some do
    let params ← record "DidChangeTextDocumentParams" ["textDocument", "contentChanges"] params
    let (uri, version) ← field params "textDocument" versionedDocument
    return changed uri version (← field params "contentChanges" (list contentChange))
  | "textDocument/didSave" => some do
    let params ← record "DidSaveTextDocumentParams" ["textDocument", "text"] params
    return saved (← field params "textDocument" documentUri) (← optionalField params "text" string)
  | "textDocument/didClose" => some do
    let params ← record "DidCloseTextDocumentParams" ["textDocument"] params
    return closed (← field params "textDocument" documentUri)
  | "workspace/didChangeConfiguration" => some do
    let params ← record "DidChangeConfigurationParams" ["settings"] params
    let _ ← field params "settings" .ok
    return configurationChanged
  | "workspace/didChangeWatchedFiles" => some do
    let params ← record "DidChangeWatchedFilesParams" ["changes"] params
    return filesChanged (← field params "changes" (list watchedFile))
  | _ => if "$/".toList.isPrefixOf method.toList then some (.ok ignored) else none

end Notification

end RuleDesk.Lsp
