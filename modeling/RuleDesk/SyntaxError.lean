import RuleDesk.Token

namespace RuleDesk

/-- What the grammar allows at a place where it met something else. -/
inductive Expectation
  | token (kind : Kind)
  | topLevelItem | ruleName | ruleSection | endOfSection | metaValue | number | patternValue
  | hexByteOrBrace | hexByteOrAlternative | expression | rangeDots | quantifier
deriving DecidableEq, Repr

def Expectation.text : Expectation → String
  | token k => k.description
  | topLevelItem => "`import`, `include` or `rule`"
  | ruleName => "rule identifier"
  | ruleSection => "`meta`, `strings` or `condition`"
  | endOfSection => "end of section"
  | metaValue => "meta value"
  | number => "number"
  | patternValue => "pattern value"
  | hexByteOrBrace => "BYTE or `\x7d`"
  | hexByteOrAlternative => "BYTE, `|` or `)`"
  | expression => "expression"
  | rangeDots => "`..`"
  | quantifier => "quantifier"

inductive SyntaxFault
  | unexpectedToken (expected : Expectation) (found : String)
  | unexpectedEnd (expected : Expectation)
  | unterminatedString
  | unterminatedRegexp
  | unbalancedBraces
  | unknownToken (token : String)
  | invalidPatternIdentifier (ident : String)
  | duplicatePattern (ident : String) (existing : Span)
  | duplicateTag (tag : String)
  | duplicateSection (name : String)
  | duplicateModifier (modifier : String)
  | missingCondition (rule : String)
  | invalidInteger (literal : String)
  | nestingTooDeep
deriving DecidableEq, Repr

namespace SyntaxFault

def message : SyntaxFault → String
  | unexpectedToken expected found =>
    "syntax error: expected " ++ expected.text ++ ", found " ++ found
  | unexpectedEnd expected => "syntax error: unexpected end of file, expected " ++ expected.text
  | unterminatedString => "unterminated string"
  | unterminatedRegexp => "unterminated regular expression"
  | unbalancedBraces => "unbalanced braces, missing `\x7d`"
  | unknownToken token => "unknown token `" ++ token ++ "`"
  | invalidPatternIdentifier ident =>
    "pattern identifiers must start with `$`, found `" ++ ident ++ "`"
  | duplicatePattern ident _ => "duplicate pattern `" ++ ident ++ "`"
  | duplicateTag tag => "duplicate tag `" ++ tag ++ "`"
  | duplicateSection name => "duplicate `" ++ name ++ "` section"
  | duplicateModifier modifier => "duplicate rule modifier `" ++ modifier ++ "`"
  | missingCondition rule => "missing `condition` section in rule `" ++ rule ++ "`"
  | invalidInteger literal => "invalid integer `" ++ literal ++ "`"
  | nestingTooDeep => "expression nested too deeply"

/-- A stable code for the kind of fault. -/
def code : SyntaxFault → String
  | unexpectedToken .. => "E001"
  | unexpectedEnd .. => "E002"
  | unterminatedString => "E003"
  | unterminatedRegexp => "E004"
  | unbalancedBraces => "E005"
  | unknownToken .. => "E006"
  | invalidPatternIdentifier .. => "E007"
  | duplicatePattern .. => "E008"
  | duplicateTag .. => "E009"
  | duplicateSection .. => "E010"
  | duplicateModifier .. => "E011"
  | missingCondition .. => "E012"
  | invalidInteger .. => "E013"
  | nestingTooDeep => "E014"

end SyntaxFault

/-- A fault and the part of the source that shows it. -/
structure SyntaxError where
  fault : SyntaxFault
  span : Span
deriving DecidableEq, Repr

namespace SyntaxError

def message (e : SyntaxError) : String := e.fault.message

def code (e : SyntaxError) : String := e.fault.code

end SyntaxError

end RuleDesk
