import RuleDesk.Json
import RuleDesk.Lsp.Decode
import RuleDesk.RequestError

namespace RuleDesk.Lsp

/-- Why a request failed, as its client gets to know. -/
structure ResponseError where
  code : Int
  message : String
deriving DecidableEq, Repr

namespace ResponseError

def invalidParams (message : String) : ResponseError := ⟨-32602, message⟩

def ofDecode (e : DecodeError) : ResponseError :=
  invalidParams ("Failed to deserialize parameters: " ++ e.message)

def ofRequest (e : RequestError) : ResponseError := ⟨e.code, e.message⟩

def unknownMethod (method : String) : ResponseError := ⟨-32601, "No such method " ++ method⟩

def notInitialized : ResponseError := ⟨-32002, "Server is not initialized yet"⟩

def alreadyInitialized : ResponseError := ⟨-32600, "Server is already initialized"⟩

def shuttingDown : ResponseError := ⟨-32600, "Server is shutting down"⟩

end ResponseError

/-- A message from the client. The result of a reply is missing if it is an
error. -/
inductive Incoming
  | request (id : Json) (method : String) (params : Json)
  | reply (id : Json) (result : Option Json)
  | notification (method : String) (params : Json)

/-- A message to the client. -/
inductive Outgoing
  | result (id : Json) (value : Json)
  | failure (id : Json) (error : ResponseError)
  | request (number : Nat) (method : String) (params : Option Json)
  | notification (method : String) (params : Json)

/-- Requests are identified by numbers or by texts. -/
def requestId? (j : Json) : Option Json := do
  match ← j.field? "id" with
  | .str s => some (.str s)
  | .int n => if isSigned32 n then some (.int n) else none
  | _ => none

/-- The error of a reply has a code and a message. -/
def isError (j : Json) : Bool :=
  match j.field "code", j.field "message" with
  | .int n, .str _ => isSigned32 n
  | _, _ => false

/-- What a message is: a request has an identifier and a method, a reply only
the first, a notification only the second. -/
def Incoming.ofJson? (j : Json) : Option Incoming :=
  let params := j.field "params"
  match requestId? j, (j.field "method").str? with
  | some id, some method => some (request id method params)
  | some id, none =>
    match j.field "error" with
    | .null => some (reply id (some (j.field "result")))
    | error => if isError error then some (reply id none) else none
  | none, some method => some (notification method params)
  | none, none => none

open Json in
def Outgoing.json : Outgoing → Json
  | result id value => obj [("id", id), ("result", value)]
  | failure id error =>
    obj [("id", id), ("error", obj [("code", int error.code), ("message", str error.message)])]
  | request number method params =>
    objOf [("id", some (nat number)), ("method", some (str method)), ("params", params)]
  | notification method params => obj [("method", str method), ("params", params)]

end RuleDesk.Lsp
