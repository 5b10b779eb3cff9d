import RuleDesk.Parse.Rule
import RuleDesk.Text.Blank

namespace RuleDesk

inductive Indentation
  | spaces (width : Nat)
  | tabs
deriving DecidableEq, Repr

/-- How to lay out a text. The tab size only measures indentation. Without
`finalNewline` the text ends with a newline only if it did before. -/
structure FormatOptions where
  indentation : Indentation
  tabSize : Nat
  finalNewline : Bool
deriving DecidableEq, Repr

/-- Texts with errors are not laid out, and no text is where the columns of a line
do not fit a word. -/
inductive FormatError
  | syntaxErrors (count : Nat) (first : String)
  | columnOverflow
deriving DecidableEq, Repr

def FormatError.message : FormatError → String
  | syntaxErrors count first =>
    "source code has " ++ toString count ++ " syntax error(s), first one: " ++ first
  | columnOverflow => "internal error: too many columns"

namespace Format

/-- Lines without their terminators. -/
abbrev Lines := List (List Char)

def indent (o : FormatOptions) (level : Nat) : List Char :=
  match o.indentation with
  | .spaces width => List.replicate (width * level) ' '
  | .tabs => List.replicate level '\t'

/-- Ends the lines with a blank one, unless there is one or there are none. -/
def pushBlank (lines : Lines) : Lines :=
  match lines.getLast? with
  | some (_ :: _) => lines ++ [[]]
  | _ => lines

/-- The lines with a text behind the last one. -/
def extendLast (lines : Lines) (text : List Char) : Lines :=
  if text.isEmpty then lines
  else match lines.getLast? with
    | none => lines
    | some last => lines.dropLast ++ [last ++ ' ' :: text]

/-- Collects lines with at most one blank line between two of them. The flag
is set while a blank line waits for the next one. -/
def collapse : Lines → Lines → Bool → Lines × Bool
  | [], content, pending => (content, pending)
  | [] :: rest, content, _ => collapse rest content (!content.isEmpty)
  | line :: rest, content, pending =>
    collapse rest (content ++ (if pending then [[]] else []) ++ [line]) false

/-- The text between two rules: imports, includes and comments. After a rule
it starts right behind the closing brace. -/
def gap (lines : Lines) (text : List Char) (afterRule : Bool) : Lines :=
  let parts := (text.splitOn '\n').map trim
  let (lines, parts) :=
    if afterRule then (extendLast lines (parts.head?.getD []), parts.drop 1) else (lines, parts)
  -- the last part stands before the next rule on its own line
  let parts := if parts.getLast? == some [] then parts.dropLast else parts
  let (content, pending) := collapse parts [] false
  let lines := if afterRule then pushBlank lines else lines
  if content.isEmpty then lines else lines ++ content ++ if pending then [[]] else []

/-- The width of the white space at the front of a line. -/
def leadingColumns (o : FormatOptions) : List Char → Nat
  | [] => 0
  | c :: rest =>
    if isBlank c then (if c == '\t' then o.tabSize else 1) + leadingColumns o rest else 0

/-- The lines of a text behind its first one that are not blank. -/
def laterLines (text : List Char) : Lines :=
  ((text.splitOn '\n').drop 1).filter fun line => !(trim line).isEmpty

/-- True if a line of a text has more columns than a word of 64 bits can count. -/
def overflows (o : FormatOptions) (text : List Char) : Bool :=
  (laterLines text).any fun line => 0x10000000000000000 ≤ leadingColumns o line

/-- The lines of a text that are not blank, at a level. They keep their
indentation relative to the least indented one; the first one has none of
its own, since it starts inside of a line. -/
def block (o : FormatOptions) (text : List Char) (level : Nat) : Lines :=
  let first := trim ((text.splitOn '\n').head?.getD [])
  let rest := laterLines text
  let least := ((rest.map (leadingColumns o)).min?).getD 0
  (if first.isEmpty then [] else [indent o level ++ first]) ++
    rest.map fun line =>
      indent o level ++ List.replicate (leadingColumns o line - least) ' ' ++ trim line

def containsInfix (part : List Char) : List Char → Bool
  | [] => part.isEmpty
  | c :: rest => part.isPrefixOf (c :: rest) || containsInfix part rest

/-- The head of a rule with its modifiers, name and tags, one space apart. -/
def header (r : Rule) : List Char :=
  ((if r.isPrivate then "private " else "") ++ (if r.isGlobal then "global " else "") ++ "rule " ++
    r.ident.name ++
    if r.tags.isEmpty then "" else " : " ++ " ".intercalate (r.tags.map (·.name))).toList

def slice (source : List Char) (span : Span) : List Char :=
  (sliceBytes? source span.start span.stop).getD []

/-- The text of a rule between its opening brace and its first section. -/
def foreword (source : List Char) (r : Rule) (lbrace rbrace : Span) : List Char :=
  slice source ⟨lbrace.stop, (r.sections.head?.map (·.span.start)).getD rbrace.start⟩

/-- A rule. Its head is kept as it is if there is a comment in it. -/
def rule (o : FormatOptions) (source : List Char) (r : Rule) (lbrace rbrace : Span) :
    Except FormatError Lines :=
  let written := trim (slice source r.headerSpan)
  let head :=
    if containsInfix ['/', '/'] written || containsInfix ['/', '*'] written then written
      else header r
  let front := foreword source r lbrace rbrace
  if (front :: r.sections.map (slice source ·.body)).any (overflows o) then .error .columnOverflow
  else .ok <| [head, ['\x7b']] ++ block o front 1 ++
    (r.sections.flatMap fun s =>
      (indent o 1 ++ s.kind.keyword.text.toList ++ [':']) :: block o (slice source s.body) 2) ++
    [['\x7d']]

/-- The rules with the text between them, from the offset `done` on. -/
def rules (o : FormatOptions) (source : List Char) :
    List Rule → Lines → Nat → Except FormatError (Lines × Nat)
  | [], lines, done => .ok (lines, done)
  | r :: rest, lines, done =>
    match r.lbrace, r.rbrace with
    | some lbrace, some rbrace => do
      let between := slice source ⟨done, r.span.start⟩
      rules o source rest (gap lines between (0 < done) ++ (← rule o source r lbrace rbrace))
        rbrace.stop
    | _, _ => .error (.syntaxErrors 1 ("rule `" ++ r.ident.name ++ "` is not delimited by braces"))

def joinLines : Lines → List Char
  | [] => []
  | [line] => line
  | line :: rest => line ++ '\n' :: joinLines rest

/-- The text of the lines without blank ones at the end. -/
def finish (lines : Lines) (finalNewline : Bool) : List Char :=
  let text := joinLines (lines.reverse.dropWhile (·.isEmpty)).reverse
  if finalNewline && !text.isEmpty then text ++ ['\n'] else text

end Format

/-- Lays out a text: each rule with its braces, section keywords and contents
on lines of their own. Comments and relative indentation are kept. -/
def format (o : FormatOptions) (source : List Char) : Except FormatError (List Char) :=
  let file := parse source
  match file.errors with
  | first :: _ => .error (.syntaxErrors file.errors.length first.message)
  | [] => do
    let (lines, done) ← Format.rules o source file.rules [] 0
    let rest := (dropBytes? source done).getD []
    return Format.finish (Format.gap lines rest (0 < done))
      (o.finalNewline || source.getLast? == some '\n')

end RuleDesk
