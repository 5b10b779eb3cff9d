import RuleDesk.Parse.Rule
import RuleDesk.Diagnostic
import RuleDesk.Lines

namespace RuleDesk

/-- A source file, open in the editor or read from the workspace folder. The
version is the one the editor gave; files read from disk have none. -/
structure Document where
  uri : String
  version : Option Int
  text : List Char
  file : SourceFile

namespace Document

def ofText (uri : String) (version : Option Int) (text : List Char) : Document :=
  ⟨uri, version, text, parse text⟩

/-- The errors of the parse as diagnostics. -/
def syntaxDiagnostics (d : Document) : List Diagnostic :=
  d.file.errors.map fun e => .error e.span e.message (some e.code)

def offset? (d : Document) (p : Position) : Option Nat := Lines.offset? d.text p

def range (d : Document) (s : Span) : PositionRange := Lines.range d.text s

/-- The text of a span, empty if the span does not fit the text. -/
def textAt (d : Document) (s : Span) : List Char := (sliceBytes? d.text s.start s.stop).getD []

/-- Where a rule ends. Without a closing brace it goes on up to the next
rule, so that what is typed at the end of an unfinished rule belongs to it. -/
def ruleStop (d : Document) (rule : Rule) (next : Option Rule) : Nat :=
  match rule.rbrace, next with
  | some rbrace, _ => rbrace.stop
  | none, some next => next.span.start
  | none, none => byteLength d.text

/-- The first of some rules that encloses an offset, with its number counted
from `i`. -/
def ruleFrom? (d : Document) (offset : Nat) : Nat → List Rule → Option (Nat × Rule)
  | _, [] => none
  | i, rule :: rest =>
    if rule.span.start ≤ offset && offset ≤ d.ruleStop rule rest.head? then some (i, rule)
    else ruleFrom? d offset (i + 1) rest

def ruleAt? (d : Document) (offset : Nat) : Option (Nat × Rule) := d.ruleFrom? offset 0 d.file.rules

end Document

/-- The last component of a path. Slashes at the end and components that
mean the folder itself do not count. -/
def lastComponent? (path : List Char) : Option (List Char) :=
  ((path.splitOn '/').filter fun part => part != [] && part != ['.']).getLast?

/-- What follows the last dot of a file name, unless the dot comes first. -/
def extension? (name : List Char) : Option (List Char) :=
  let extension := (name.reverse.takeWhile (· != '.')).reverse
  if extension.length + 1 < name.length && name != ['.', '.'] then some extension else none

/-- True of the paths of files with rules, by their extension. -/
def isRuleFile (path : String) : Bool :=
  match (lastComponent? path.toList).bind extension? with
  | some e => e == ['y', 'a', 'r'] || e == ['y', 'a', 'r', 'a']
  | none => false

end RuleDesk
