import RuleDesk.Span

namespace RuleDesk

inductive Severity
  | error | warning | information
deriving DecidableEq, Repr

/-- Whether a problem was found in the text itself or by the rule compiler. -/
inductive Origin
  | analysis | compiler
deriving DecidableEq, Repr

/-- A problem found in a document. -/
structure Diagnostic where
  severity : Severity
  message : String
  span : Span
  origin : Origin
  code : Option String
deriving DecidableEq, Repr

namespace Diagnostic

/-- An error found in the text. -/
def error (span : Span) (message : String) (code : Option String) : Diagnostic :=
  ⟨.error, message, span, .analysis, code⟩

/-- In the order of their spans; those of one span keep their order. -/
def sortBySpan (ds : List Diagnostic) : List Diagnostic :=
  ds.mergeSort fun a b => a.span.notAfter b.span

end Diagnostic

end RuleDesk
