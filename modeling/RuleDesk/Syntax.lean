import RuleDesk.Span
import RuleDesk.Token
import RuleDesk.Number.Double

namespace RuleDesk

/-- A name in the source. The name of a pattern includes its sigil. -/
structure Ident where
  name : String
  span : Span
deriving DecidableEq, Repr, Inhabited

/-- An import such as `import "pe"`. The span of the name includes the quotes. -/
structure Import where
  span : Span
  moduleName : String
  nameSpan : Span
deriving DecidableEq, Repr

structure Include where
  span : Span
  path : String
deriving DecidableEq, Repr

/-- A value in a `meta` section. Strings keep their escapes and lose their quotes. -/
inductive MetaValue
  | bool (value : Bool)
  | integer (value : Int)
  | float (value : Double)
  | string (value : String)
deriving DecidableEq, Repr

def MetaValue.text : MetaValue → String
  | bool b => if b then "true" else "false"
  | integer n => toString n
  | float x => x.text
  | string s => "\"" ++ s ++ "\""

structure MetaEntry where
  span : Span
  ident : Ident
  value : MetaValue
deriving DecidableEq, Repr

inductive PatternKind
  | text | hex | regexp
deriving DecidableEq, Repr

/-- A modifier such as `wide` or `xor(1-10)`. The name has no arguments. -/
structure Modifier where
  span : Span
  name : String
deriving DecidableEq, Repr

/-- The declaration of a pattern. The span `value` covers the value with its
delimiters, the whole span also the name and the modifiers. -/
structure Pattern where
  span : Span
  ident : Ident
  kind : PatternKind
  value : Span
  modifiers : List Modifier
deriving DecidableEq, Repr

inductive SectionKind
  | metas | strings | condition
deriving DecidableEq, Repr

def SectionKind.keyword : SectionKind → Keyword
  | metas => .kwMeta
  | strings => .kwStrings
  | condition => .kwCondition

/-- A section of a rule: `keyword` covers the keyword and its colon, `span`
goes on up to the next section or the brace that closes the rule. -/
structure RuleSection where
  kind : SectionKind
  keyword : Span
  span : Span
deriving DecidableEq, Repr

def RuleSection.body (s : RuleSection) : Span := ⟨s.keyword.stop, s.span.stop⟩

inductive UnaryOp
  | not | defined | minus | bitNot
deriving DecidableEq, Repr

inductive BinaryOp
  | or | and
  | eq | ne | lt | le | gt | ge | contains | icontains | startsWith | istartsWith | endsWith
  | iendsWith | iequals | matchesRegexp
  | bitOr | bitXor | bitAnd | shl | shr | add | sub | mul | div | mod
deriving DecidableEq, Repr

/-- Expressions of a single token other than integers and names. -/
inductive Atom
  | true | false | filesize | entrypoint | string | float | regexp
deriving DecidableEq, Repr

/-- An item of a pattern set. The span includes the asterisk of a wildcard,
the identifier does not. -/
structure SetItem where
  span : Span
  ident : Ident
  wildcard : Bool
deriving DecidableEq, Repr

inductive PatternSet
  | them (span : Span)
  | items (items : List SetItem)
deriving DecidableEq, Repr

/-- A range such as `(0..filesize)`. -/
structure Bounds (ε : Type) where
  span : Span
  lower : ε
  upper : ε

/-- Where a match is looked for. -/
inductive Anchor (ε : Type)
  | anywhere
  | at (offset : ε)
  | within (bounds : Bounds ε)

inductive Quantifier (ε : Type)
  | none (span : Span)
  | all (span : Span)
  | any (span : Span)
  | percentage (value : ε)
  | count (value : ε)

/-- What an `of` counts: patterns, or rules and other expressions. -/
inductive OfItems (ε : Type)
  | patterns (set : PatternSet)
  | tuple (items : List ε)

/-- What a loop goes through. -/
inductive Iterable (ε : Type)
  | range (bounds : Bounds ε)
  | tuple (items : List ε)
  | value (value : ε)

/-- An expression. Consecutive uses of one binary operator are a single node
with all their operands; `error` stands where no expression was found. -/
inductive Expr
  | atom (kind : Atom) (span : Span)
  | integer (value : Nat) (span : Span)
  | ident (ident : Ident)
  | ruleWildcard (ident : Ident)
  | pattern (ident : Ident) (anchor : Anchor Expr) (span : Span)
  | count (ident : Ident) (range : Option (Bounds Expr)) (span : Span)
  | offset (ident : Ident) (index : Option Expr) (span : Span)
  | length (ident : Ident) (index : Option Expr) (span : Span)
  | field (object : Expr) (name : Ident) (span : Span)
  | lookup (object index : Expr) (span : Span)
  | call (callee : Expr) (args : List Expr) (span : Span)
  | group (inner : Expr) (span : Span)
  | unary (op : UnaryOp) (operand : Expr) (span : Span)
  | binary (op : BinaryOp) (operands : List Expr) (span : Span)
  | of (quantifier : Quantifier Expr) (items : OfItems Expr) (anchor : Anchor Expr) (span : Span)
  | forOf (quantifier : Quantifier Expr) (set : PatternSet) (body : Expr) (span : Span)
  | forIn (quantifier : Quantifier Expr) (vars : List Ident) (iterable : Iterable Expr)
      (body : Expr) (span : Span)
  | error (span : Span)

instance : Inhabited Expr := ⟨.error ⟨0, 0⟩⟩

namespace Expr

def span : Expr → Span
  | atom _ s | integer _ s | pattern _ _ s | count _ _ s | offset _ _ s | length _ _ s
  | field _ _ s | lookup _ _ s | call _ _ s | group _ s | unary _ _ s | binary _ _ s
  | of _ _ _ s | forOf _ _ _ s | forIn _ _ _ _ s | error s => s
  | ident i | ruleWildcard i => i.span

/-- The names of a chain of fields that starts with a name, such as `pe.version_info`. -/
def dottedPath? : Expr → Option (List Ident)
  | ident i => some [i]
  | field object name _ => (dottedPath? object).map (· ++ [name])
  | _ => none

end Expr

def Quantifier.span : Quantifier Expr → Span
  | none s | all s | any s => s
  | percentage e | count e => e.span

structure Rule where
  isPrivate : Bool
  isGlobal : Bool
  ident : Ident
  tags : List Ident
  metas : List MetaEntry
  patterns : List Pattern
  condition : Option Expr
  sections : List RuleSection
  lbrace : Option Span
  rbrace : Option Span
  span : Span

namespace Rule

/-- The pattern declared with this name, sigil included. -/
def pattern? (r : Rule) (name : String) : Option Pattern := r.patterns.find? (·.ident.name == name)

def sectionAt? (r : Rule) (offset : Nat) : Option RuleSection :=
  r.sections.find? (·.span.touches offset)

/-- From the start of the rule to its opening brace. -/
def headerSpan (r : Rule) : Span :=
  match r.lbrace with
  | some lbrace => ⟨r.span.start, lbrace.start⟩
  | none => ⟨r.span.start, r.ident.span.stop⟩

end Rule

end RuleDesk
