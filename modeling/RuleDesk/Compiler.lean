import RuleDesk.Compiler.Message

namespace RuleDesk

/-- A file as the compiler gets it. -/
structure SourceText where
  uri : String
  text : List Char
deriving DecidableEq, Repr

/-- What comes back from a compiler. -/
inductive CompilerAnswer
  | messages (found : List CompilerMessage)
  | unavailable
  | failed (reason : String)
deriving DecidableEq, Repr

/-- A rule compiler. It compiles the first of its files; the others are the
rest of the workspace, where included files may come from. The answer comes
after the delay. -/
structure Compiler where
  delay : Nat
  compile : List SourceText → CompilerAnswer

/-- What is found in the place of a compiler that is not installed. -/
def Compiler.absent : Compiler := ⟨0, fun _ => .unavailable⟩

/-- The diagnostics of a document in an answer, if the compiler did its work.
Messages about other files are left out. -/
def CompilerAnswer.diagnostics? (d : Document) : CompilerAnswer → Option (List Diagnostic)
  | messages found => some ((found.filter (·.file == d.uri)).map (·.diagnostic d))
  | unavailable => none
  | failed _ => none

end RuleDesk
