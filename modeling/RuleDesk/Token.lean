import RuleDesk.Text.Bytes
import RuleDesk.Span

namespace RuleDesk

/-- The reserved words of YARA. None of them names a rule, a tag or a loop variable. -/
inductive Keyword
  | kwAll | kwAnd | kwAny | kwAscii | kwAt | kwBase64 | kwBase64Wide | kwCondition | kwContains
  | kwDefined | kwEndsWith | kwEntrypoint | kwFalse | kwFilesize | kwFor | kwFullword | kwGlobal
  | kwIContains | kwIEndsWith | kwIEquals | kwImport | kwIn | kwInclude | kwIStartsWith
  | kwMatches | kwMeta | kwNocase | kwNone | kwNot | kwOf | kwOr | kwPrivate | kwRule
  | kwStartsWith | kwStrings | kwThem | kwTrue | kwWide | kwXor
deriving DecidableEq, Repr

namespace Keyword

/-- Every keyword with its spelling, in alphabetical order. -/
def table : List (Keyword × String) :=
  [(kwAll, "all"), (kwAnd, "and"), (kwAny, "any"), (kwAscii, "ascii"), (kwAt, "at"),
   (kwBase64, "base64"), (kwBase64Wide, "base64wide"), (kwCondition, "condition"),
   (kwContains, "contains"), (kwDefined, "defined"), (kwEndsWith, "endswith"),
   (kwEntrypoint, "entrypoint"), (kwFalse, "false"), (kwFilesize, "filesize"), (kwFor, "for"),
   (kwFullword, "fullword"), (kwGlobal, "global"), (kwIContains, "icontains"),
   (kwIEndsWith, "iendswith"), (kwIEquals, "iequals"), (kwImport, "import"), (kwIn, "in"),
   (kwInclude, "include"), (kwIStartsWith, "istartswith"), (kwMatches, "matches"),
   (kwMeta, "meta"), (kwNocase, "nocase"), (kwNone, "none"), (kwNot, "not"), (kwOf, "of"),
   (kwOr, "or"), (kwPrivate, "private"), (kwRule, "rule"), (kwStartsWith, "startswith"),
   (kwStrings, "strings"), (kwThem, "them"), (kwTrue, "true"), (kwWide, "wide"), (kwXor, "xor")]

def text (w : Keyword) : String := (table.lookup w).getD ""

def ofText? (s : String) : Option Keyword := (table.find? (·.2 == s)).map (·.1)

theorem ofText?_text (w : Keyword) : ofText? w.text = some w := by cases w <;> decide

end Keyword

/-- The words that cannot be used as identifiers, in alphabetical order. -/
def reservedWords : List String :=
  ["all", "and", "any", "ascii", "at", "base64", "base64wide", "condition", "contains", "defined",
   "endswith", "entrypoint", "false", "filesize", "for", "fullword", "global", "icontains",
   "iendswith", "iequals", "import", "in", "include", "istartswith", "matches", "meta", "nocase",
   "none", "not", "of", "or", "private", "rule", "startswith", "strings", "them", "true", "wide",
   "xor"]

/-- Looks for a word among at most `fuel` words in alphabetical order, each
time in the half where it must be. -/
def bisect : Nat → List String → String → Bool
  | 0, _, _ => false
  | fuel + 1, words, s =>
    let half := words.length / 2
    match words.drop half with
    | [] => false
    | middle :: above =>
      if s == middle then true
      else if s < middle then bisect fuel (words.take half) s
      else bisect fuel above s

/-- True of the words that cannot be used as identifiers. -/
def isKeyword (s : String) : Bool := bisect reservedWords.length reservedWords s

/-- Operators and punctuation. -/
inductive Symbol
  | shl | shr | eq | ne | le | ge | lt | gt | ampersand | asterisk | backslash | caret | colon
  | comma | dot | equal | hyphen | percent | pipe | plus | tilde | lbrace | rbrace | lbracket
  | rbracket | lparen | rparen
deriving DecidableEq, Repr

namespace Symbol

/-- Every symbol with its spelling. Longer ones come first, so that the
first symbol which starts a text is also the longest. -/
def table : List (Symbol × List Char) :=
  [(shl, ['<', '<']), (shr, ['>', '>']), (eq, ['=', '=']), (ne, ['!', '=']), (le, ['<', '=']),
   (ge, ['>', '=']), (lt, ['<']), (gt, ['>']), (ampersand, ['&']), (asterisk, ['*']),
   (backslash, ['\\']), (caret, ['^']), (colon, [':']), (comma, [',']), (dot, ['.']),
   (equal, ['=']), (hyphen, ['-']), (percent, ['%']), (pipe, ['|']), (plus, ['+']),
   (tilde, ['~']), (lbrace, ['\x7b']), (rbrace, ['\x7d']), (lbracket, ['[']), (rbracket, [']']),
   (lparen, ['(']), (rparen, [')'])]

def text (s : Symbol) : String := String.ofList ((table.lookup s).getD [])

end Symbol

/-- What the first character of a pattern identifier asks of the pattern. -/
inductive Sigil
  | identity | count | offset | length
deriving DecidableEq, Repr

namespace Sigil

def char : Sigil → Char
  | identity => '$'
  | count => '#'
  | offset => '@'
  | length => '!'

def ofChar? : Char → Option Sigil
  | '$' => some identity
  | '#' => some count
  | '@' => some offset
  | '!' => some length
  | _ => none

theorem ofChar?_char (s : Sigil) : ofChar? s.char = some s := by cases s <;> rfl

end Sigil

/-- The name of a pattern without its sigil. -/
def bareName (name : String) : String :=
  match name.toList with
  | c :: rest => if (Sigil.ofChar? c).isSome then String.ofList rest else name
  | [] => name

/-- Kinds of tokens. An open literal has no closing delimiter on its line. -/
inductive Kind
  | keyword (word : Keyword)
  | symbol (symbol : Symbol)
  | sigil (sigil : Sigil)
  | ident | float | integer | string | regexp | openString | openRegexp
  | hexByte | comment | newline | blank | unknown
deriving DecidableEq, Repr

namespace Kind

/-- What error messages call a token of this kind. -/
def description : Kind → String
  | keyword w => "`" ++ w.text ++ "`"
  | symbol s => "`" ++ s.text ++ "`"
  | sigil .identity => "pattern identifier"
  | sigil .count => "pattern count"
  | sigil .offset => "pattern offset"
  | sigil .length => "pattern length"
  | ident => "identifier"
  | float => "FLOAT"
  | integer => "INTEGER"
  | string => "STRING"
  | regexp => "REGEXP"
  | openString => "unterminated string"
  | openRegexp => "unterminated regexp"
  | hexByte => "BYTE"
  | comment => "comment"
  | newline => "newline"
  | blank => "whitespace"
  | unknown => "unknown"

/-- Tokens that mean nothing to the grammar. -/
def isTrivia : Kind → Bool
  | comment | newline | blank => true
  | _ => false

def isKeyword : Kind → Bool
  | keyword _ => true
  | _ => false

end Kind

/-- A token and its place: `start` is the byte offset of its first character. -/
structure Token where
  kind : Kind
  start : Nat
  text : List Char
deriving DecidableEq, Repr

namespace Token

def stop (t : Token) : Nat := t.start + byteLength t.text

def span (t : Token) : Span := ⟨t.start, t.stop⟩

def name (t : Token) : String := String.ofList t.text

end Token

end RuleDesk
