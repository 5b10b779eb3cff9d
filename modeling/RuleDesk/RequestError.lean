namespace RuleDesk

/-- What a new name is for. -/
inductive NameKind
  | rule | loopVariable | pattern
deriving DecidableEq, Repr

def NameKind.text : NameKind → String
  | rule => "rule"
  | loopVariable => "variable"
  | pattern => "pattern"

/-- Why a request has no answer. -/
inductive RequestError
  | invalidIdentifier (name : String) (kind : NameKind)
  | ruleExists (name : String)
  | patternExists (name : String)
  | notRenameable (path : String)
  | staleSnapshot
  | unknownDocument (uri : String)
  | insideCharacter
  | columnOverflow
deriving DecidableEq, Repr

namespace RequestError

def message : RequestError → String
  | invalidIdentifier name kind => "`" ++ name ++ "` is not a valid " ++ kind.text ++ " identifier"
  | ruleExists name => "a rule named `" ++ name ++ "` already exists"
  | patternExists name => "pattern `" ++ name ++ "` already exists in this rule"
  | notRenameable path => "`" ++ path ++ "` can't be renamed"
  | staleSnapshot => "symbol index changed while the request was in progress"
  | unknownDocument uri => "unknown document `" ++ uri ++ "`"
  | insideCharacter => "internal error: offset inside of a character"
  | columnOverflow => "internal error: too many columns"

/-- The error codes of the protocol: invalid parameters, modified content,
internal error. -/
def code : RequestError → Int
  | invalidIdentifier .. | ruleExists _ | patternExists _ | notRenameable _ | unknownDocument _ =>
    -32602
  | staleSnapshot => -32801
  | insideCharacter | columnOverflow => -32603

end RequestError

end RuleDesk
