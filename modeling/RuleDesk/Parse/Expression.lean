import RuleDesk.Parse.State
import RuleDesk.Syntax
import RuleDesk.Number.Integer

namespace RuleDesk

/-- The expressions that nest: a whole expression, the operand of a logical
prefix, the operand of an anchor or a quantifier, the operand of an
arithmetic prefix. -/
inductive Level
  | expression | negation | bitwise | sign
deriving DecidableEq, Repr

/-- The deepest nesting of an expression. Groups, prefix operators, links of
a postfix chain and changes of the operator of a binary chain count. -/
def maxNesting : Nat := 128

namespace Expr

/-- A node for one more operand of the same operator, if there is one. -/
def append? (lhs : Expr) (op : BinaryOp) (rhs : Expr) : Option Expr :=
  match lhs with
  | binary op' operands span =>
    if op' = op then some (binary op (operands ++ [rhs]) (span.through rhs.span)) else none
  | _ => none

def pair (op : BinaryOp) (lhs rhs : Expr) : Expr :=
  binary op [lhs, rhs] (lhs.span.through rhs.span)

end Expr

namespace Parser

/-- Reports that the nesting is too deep and skips the rest of the section. -/
def tooDeep : Parser Expr := do
  let start := (← spanAhead).start
  skipToSyncPoint
  let span : Span := ⟨start, max (← lastStop) start⟩
  report .nestingTooDeep span
  setPanicking true
  return .error span

/-- One operand more of a binary chain. The chain stays one node while the
operator stays; another operator takes all so far as its first operand. The
flag is set once the left side is a node of this chain. -/
def chainStep (operator : Parser (Option BinaryOp)) (operand : Parser Expr) :
    Expr × Bool → Parser (ForInStep (Expr × Bool))
  | (lhs, chained) => do
    match ← operator with
    | none => return .done (lhs, chained)
    | some op =>
      let _ ← advance
      let rhs ← operand
      match if chained then lhs.append? op rhs else none with
      | some e => return .yield (e, true)
      | none =>
        if chained then
          if maxNesting ≤ (← getDepth) then return .done (← tooDeep, true)
          setDepth ((← getDepth) + 1)
        return .yield (.pair op lhs rhs, true)

/-- Operands separated by binary operators of one precedence. -/
def chainFrom (lhs : Expr) (operator : Parser (Option BinaryOp)) (operand : Parser Expr) :
    Parser Expr :=
  return (← iterate (chainStep operator operand) (lhs, false)).1

def chain (operator : Parser (Option BinaryOp)) (operand : Parser Expr) : Parser Expr := do
  chainFrom (← operand) operator operand

/-- The operator that the next token is, by a table of kinds. -/
def operatorOf (table : Kind → Option BinaryOp) : Parser (Option BinaryOp) :=
  return (← peekKind).bind table

def orOperator : Kind → Option BinaryOp
  | .keyword .kwOr => some .or
  | _ => none

def andOperator : Kind → Option BinaryOp
  | .keyword .kwAnd => some .and
  | _ => none

def comparisonOperator : Kind → Option BinaryOp
  | .symbol .eq => some .eq
  | .symbol .ne => some .ne
  | .symbol .lt => some .lt
  | .symbol .le => some .le
  | .symbol .gt => some .gt
  | .symbol .ge => some .ge
  | .keyword .kwContains => some .contains
  | .keyword .kwIContains => some .icontains
  | .keyword .kwStartsWith => some .startsWith
  | .keyword .kwIStartsWith => some .istartsWith
  | .keyword .kwEndsWith => some .endsWith
  | .keyword .kwIEndsWith => some .iendsWith
  | .keyword .kwIEquals => some .iequals
  | .keyword .kwMatches => some .matchesRegexp
  | _ => none

def bitOrOperator : Kind → Option BinaryOp
  | .symbol .pipe => some .bitOr
  | _ => none

def bitXorOperator : Kind → Option BinaryOp
  | .symbol .caret => some .bitXor
  | _ => none

def bitAndOperator : Kind → Option BinaryOp
  | .symbol .ampersand => some .bitAnd
  | _ => none

def shiftOperator : Kind → Option BinaryOp
  | .symbol .shl => some .shl
  | .symbol .shr => some .shr
  | _ => none

def sumOperator : Kind → Option BinaryOp
  | .symbol .plus => some .add
  | .symbol .hyphen => some .sub
  | _ => none

def productOperator : Kind → Option BinaryOp
  | .symbol .asterisk => some .mul
  | .symbol .backslash => some .div
  | .symbol .percent => some .mod
  | _ => none

/-- True at a `%` that belongs to a quantifier: `of` follows it. -/
def atPercentOf : Parser Bool := do
  if ← atKind (.symbol .percent) then return (← peekSecondKind) == some (.keyword .kwOf)
  return false

/-- Before `of` a `%` is no operator. -/
def productOperatorAhead : Parser (Option BinaryOp) := do
  if ← atPercentOf then return none
  operatorOf productOperator

/-- The value of an integer literal. One that does not fit into 63 bits is
reported and counts as zero. -/
def integerValue (t : Token) : Parser Nat := do
  match literalValue? t.text with
  | some n => return n
  | none =>
    report (.invalidInteger t.name) t.span
    return 0

def identOf (t : Token) : Ident := ⟨t.name, t.span⟩

section Layer

variable (sub : Level → Parser Expr)

/-- The `..` of a range: two dots with nothing between them. -/
def rangeDots : Parser Unit := do
  match ← eat (.symbol .dot) with
  | some _ =>
    if ← nextAdjacent (.symbol .dot) then
      let _ ← advance
    else unexpected .rangeDots
  | none => unexpected .rangeDots

/-- A range such as `(0..100)`. -/
def range : Parser (Bounds Expr) := do
  let start ← spanAhead
  let _ ← expect (.symbol .lparen)
  let lower ← sub .expression
  rangeDots
  let upper ← sub .expression
  let _ ← expect (.symbol .rparen)
  return ⟨start.through (← pointHere), lower, upper⟩

def anchor : Parser (Anchor Expr) := do
  if (← eat (.keyword .kwAt)).isSome then return .at (← sub .bitwise)
  if (← eat (.keyword .kwIn)).isSome then return .within (← range sub)
  return .anywhere

/-- One item more of a list of expressions, and whether a comma follows. -/
def listStep (item : Parser Expr) (items : List Expr) : Parser (ForInStep (List Expr)) := do
  let items := items ++ [← item]
  if (← eat (.symbol .comma)).isSome then return .yield items
  return .done items

/-- The arguments of a call, which may be none. -/
def arguments : Parser (List Expr) := do
  if ← atKind (.symbol .rparen) then return []
  iterate (listStep (sub .expression)) []

/-- The next token, if it is a name and an asterisk stands right behind it. -/
def wildcardAhead : Parser (Option Token) := do
  match ← peek with
  | some t =>
    if t.kind == .ident then
      match ← peekSecond with
      | some next =>
        return if next.kind == .symbol .asterisk && next.start == t.stop then some t else none
      | none => return none
    else return none
  | none => return none

/-- An item of a tuple after `of`: a rule name with an asterisk right behind
it, or an expression. -/
def ofItem : Parser Expr := do
  match ← wildcardAhead with
  | some t =>
    let _ ← advance
    let _ ← advance
    return .ruleWildcard (identOf t)
  | none => sub .expression

def setItemStep (items : List SetItem) : Parser (ForInStep (List SetItem)) := do
  match ← expect (.sigil .identity) with
  | none => return .done items
  | some t =>
    let wildcard ← nextAdjacent (.symbol .asterisk)
    if wildcard then
      let _ ← advance
    let items := items ++ [⟨⟨t.start, ← lastStop⟩, identOf t, wildcard⟩]
    if (← eat (.symbol .comma)).isSome then return .yield items
    return .done items

/-- `them`, or a tuple of pattern identifiers such as `($a, $b*)`. -/
def patternSet : Parser PatternSet := do
  match ← eat (.keyword .kwThem) with
  | some t => return .them t.span
  | none =>
    match ← expect (.symbol .lparen) with
    | none => return .items []
    | some _ =>
      let items ← iterate setItemStep []
      let _ ← expect (.symbol .rparen)
      return .items items

/-- A tuple of expressions, at its parenthesis. -/
def ofTuple : Parser (OfItems Expr) := do
  let _ ← advance
  let items ← iterate (listStep (ofItem sub)) []
  let _ ← expect (.symbol .rparen)
  return .tuple items

/-- True at a parenthesis that no pattern identifier follows. -/
def atTuple : Parser Bool := do
  if ← atKind (.symbol .lparen) then return (← peekSecondKind) != some (.sigil .identity)
  return false

/-- A parenthesis after `of` opens a pattern set if a pattern identifier
follows it, and a tuple of expressions otherwise. -/
def ofItems : Parser (OfItems Expr) := do
  if ← atTuple then ofTuple sub
  else return .patterns (← patternSet)

/-- An `of` expression after its quantifier. -/
def ofExpr (quantifier : Quantifier Expr) : Parser Expr := do
  let _ ← expect (.keyword .kwOf)
  let items ← ofItems sub
  let anchor ← anchor sub
  return .of quantifier items anchor (quantifier.span.through (← pointHere))

/-- `all`, `any` or `none`. -/
def quantifierWord? : Kind → Option (Span → Quantifier Expr)
  | .keyword .kwAll => some .all
  | .keyword .kwAny => some .any
  | .keyword .kwNone => some .none
  | _ => none

/-- The quantifier of a loop. -/
def quantifier : Parser (Quantifier Expr) := do
  match ← peek with
  | none =>
    unexpected .quantifier
    return .count (.error (← pointHere))
  | some t =>
    match quantifierWord? t.kind with
    | some make =>
      let _ ← advance
      return make t.span
    | none =>
      let e ← sub .bitwise
      if (← eat (.symbol .percent)).isSome then return .percentage e
      return .count e

/-- The body of a loop, a group behind a colon. -/
def loopBody : Parser Expr := do
  let _ ← expect (.symbol .colon)
  let start ← spanAhead
  let _ ← expect (.symbol .lparen)
  let e ← sub .expression
  let _ ← expect (.symbol .rparen)
  return .group e (start.through (← pointHere))

/-- What a loop goes through: a range, a tuple, or another expression. -/
def iterable : Parser (Iterable Expr) := do
  match ← eat (.symbol .lparen) with
  | none => return .value (← sub .expression)
  | some lparen =>
    let first ← sub .expression
    if ← atKind (.symbol .dot) then
      rangeDots
      let upper ← sub .expression
      let _ ← expect (.symbol .rparen)
      return .range ⟨lparen.span.through (← pointHere), first, upper⟩
    let items ←
      if (← eat (.symbol .comma)).isSome then iterate (listStep (sub .expression)) [first]
      else pure [first]
    let _ ← expect (.symbol .rparen)
    return .tuple items

def variableStep (vars : List Ident) : Parser (ForInStep (List Ident)) := do
  match ← expect .ident with
  | none => return .done vars
  | some t =>
    let vars := vars ++ [identOf t]
    if (← eat (.symbol .comma)).isSome then return .yield vars
    return .done vars

/-- A loop over patterns or over values, after its keyword. -/
def forExpr (start : Span) : Parser Expr := do
  let quantifier ← quantifier sub
  if (← eat (.keyword .kwOf)).isSome then
    let set ← patternSet
    let body ← loopBody sub
    return .forOf quantifier set body (start.through (← pointHere))
  let vars ← iterate variableStep []
  let _ ← expect (.keyword .kwIn)
  let iterable ← iterable sub
  let body ← loopBody sub
  return .forIn quantifier vars iterable body (start.through (← pointHere))

/-- Kinds of tokens that are a whole expression. -/
def atomOf? : Kind → Option Atom
  | .keyword .kwTrue => some .true
  | .keyword .kwFalse => some .false
  | .keyword .kwFilesize => some .filesize
  | .keyword .kwEntrypoint => some .entrypoint
  | .float => some .float
  | .string => some .string
  | .openString => some .string
  | .regexp => some .regexp
  | .openRegexp => some .regexp
  | _ => none

/-- Reports a literal without its closing delimiter. -/
def reportOpen (t : Token) : Parser Unit :=
  match t.kind with
  | .openString => report .unterminatedString t.span
  | .openRegexp => report .unterminatedRegexp t.span
  | _ => return ()

/-- The index of `@a[1]` or `!a[1]`, in brackets. -/
def index? : Parser (Option Expr) := do
  match ← eat (.symbol .lbracket) with
  | none => return none
  | some _ =>
    let e ← sub .expression
    let _ ← expect (.symbol .rbracket)
    return some e

/-- From the start of a span to the end of the anchor behind it. -/
def anchoredSpan (s : Span) : Anchor Expr → Span
  | .anywhere => s
  | .at e => s.through e.span
  | .within b => s.through b.span

/-- A reference to a pattern, after its identifier was read. -/
def patternExpr (s : Sigil) (t : Token) : Parser Expr := do
  let ident := identOf t
  match s with
  | .identity =>
    let anchor ← anchor sub
    return .pattern ident anchor (anchoredSpan t.span anchor)
  | .count =>
    let range ← do
      match ← eat (.keyword .kwIn) with
      | some _ => pure (some (← range sub))
      | none => pure none
    return .count ident range (t.span.through (← pointHere))
  | .offset =>
    let index ← index? sub
    return .offset ident index (t.span.through (← pointHere))
  | .length =>
    let index ← index? sub
    return .length ident index (t.span.through (← pointHere))

def primary : Parser Expr := do
  match ← peek with
  | none =>
    unexpected .expression
    return .error (← pointHere)
  | some t =>
    match atomOf? t.kind with
    | some a =>
      let _ ← advance
      reportOpen t
      return .atom a t.span
    | none =>
      match t.kind with
      | .integer =>
        let _ ← advance
        return .integer (← integerValue t) t.span
      | .ident =>
        let _ ← advance
        return .ident (identOf t)
      | .sigil s =>
        let _ ← advance
        patternExpr sub s t
      | .symbol .lparen =>
        let _ ← advance
        let e ← sub .expression
        let _ ← expect (.symbol .rparen)
        return .group e (t.span.through (← pointHere))
      | .keyword .kwFor =>
        let _ ← advance
        forExpr sub t.span
      | k =>
        match quantifierWord? k with
        | some make =>
          let _ ← advance
          ofExpr sub (make t.span)
        | none =>
          unexpected .expression
          return .error (.point t.start)

/-- What may follow an operand to make a longer one. -/
inductive Link
  | field | lookup | call
deriving DecidableEq, Repr

/-- The link at the next token. A dot is one only before a name: in `0..10`
it is part of a range. -/
def linkAhead : Parser (Option Link) := do
  match ← peekKind with
  | some (.symbol .dot) => return if (← peekSecondKind) == some .ident then some .field else none
  | some (.symbol .lbracket) => return some .lookup
  | some (.symbol .lparen) => return some .call
  | _ => return none

def applyLink (e : Expr) : Link → Parser Expr
  | .field => do
    let _ ← advance
    match ← advance with
    | none => return e
    | some t => return .field e (identOf t) (e.span.through t.span)
  | .lookup => do
    let _ ← advance
    let index ← sub .expression
    let _ ← expect (.symbol .rbracket)
    return .lookup e index (e.span.through (← pointHere))
  | .call => do
    let _ ← advance
    let args ← arguments sub
    let _ ← expect (.symbol .rparen)
    return .call e args (e.span.through (← pointHere))

/-- One link more of a postfix chain. Each one spends a level, and past the
limit the levels spent by the chain are given back first. -/
def linkStep (depth : Nat) (e : Expr) : Parser (ForInStep Expr) := do
  match ← linkAhead with
  | none => return .done e
  | some link =>
    if maxNesting ≤ (← getDepth) then
      setDepth depth
      return .done (← tooDeep)
    setDepth ((← getDepth) + 1)
    return .yield (← applyLink sub e link)

/-- A primary expression and its links. The levels of the links are given
back at the end. -/
def postfixExpr : Parser Expr := do
  let e ← primary sub
  let depth ← getDepth
  let e ← iterate (linkStep sub depth) e
  setDepth depth
  return e

def signOperator? : Kind → Option UnaryOp
  | .symbol .hyphen => some .minus
  | .symbol .tilde => some .bitNot
  | _ => none

def negationOperator? : Kind → Option UnaryOp
  | .keyword .kwNot => some .not
  | .keyword .kwDefined => some .defined
  | _ => none

/-- An operand behind a prefix operator of a table, or without one. -/
def prefixed (table : Kind → Option UnaryOp) (level : Level) (bare : Parser Expr) :
    Parser Expr := do
  match ← peek with
  | none => bare
  | some t =>
    match table t.kind with
    | none => bare
    | some op =>
      let _ ← advance
      let operand ← sub level
      return .unary op operand (t.span.through operand.span)

def signExpr : Parser Expr := prefixed sub signOperator? .sign (postfixExpr sub)

def productExpr : Parser Expr := chain productOperatorAhead (signExpr sub)

def sumExpr : Parser Expr := chain (operatorOf sumOperator) (productExpr sub)

def shiftExpr : Parser Expr := chain (operatorOf shiftOperator) (sumExpr sub)

def bitAndExpr : Parser Expr := chain (operatorOf bitAndOperator) (shiftExpr sub)

def bitXorExpr : Parser Expr := chain (operatorOf bitXorOperator) (bitAndExpr sub)

def bitOrExpr : Parser Expr := chain (operatorOf bitOrOperator) (bitXorExpr sub)

/-- A comparison, or an `of` expression with a number or percentage as its quantifier. -/
def comparisonExpr : Parser Expr := do
  let lhs ← bitOrExpr sub
  if ← atKind (.keyword .kwOf) then ofExpr sub (.count lhs)
  else if ← atPercentOf then
    let _ ← advance
    ofExpr sub (.percentage lhs)
  else chainFrom lhs (operatorOf comparisonOperator) (bitOrExpr sub)

def negationExpr : Parser Expr := prefixed sub negationOperator? .negation (comparisonExpr sub)

def andExpr : Parser Expr := chain (operatorOf andOperator) (negationExpr sub)

def orExpr : Parser Expr := chain (operatorOf orOperator) (andExpr sub)

/-- The grammar of one level, where `sub` parses what nests inside of it. -/
def layer : Level → Parser Expr
  | .expression => orExpr sub
  | .negation => negationExpr sub
  | .bitwise => bitOrExpr sub
  | .sign => signExpr sub

end Layer

/-- An expression one level deeper. What is parsed inside of it gets a
smaller budget, so the levels in use never exceed `maxNesting`. -/
def nested : Nat → Level → Parser Expr
  | 0, _ => tooDeep
  | budget + 1, level => do
    if maxNesting ≤ (← getDepth) then tooDeep
    else
      setDepth ((← getDepth) + 1)
      let e ← layer (nested budget) level
      setDepth ((← getDepth) - 1)
      return e

/-- A whole expression, with no level of nesting spent yet. -/
def expression : Parser Expr := do
  setDepth 0
  nested maxNesting .expression

end Parser

end RuleDesk
