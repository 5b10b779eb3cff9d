import Mathlib.Data.List.Forall2
import RuleDesk.Proofs.Parsing.Reading

namespace RuleDesk

/-- A token that a tree stands for. Names and literals keep their places in the
tree, operators and punctuation do not. -/
inductive Leaf
  | mark (kind : Kind)
  | place (kind : Kind) (span : Span)
  | name (kind : Kind) (ident : Ident)
deriving DecidableEq

namespace Leaf

def Stands : Leaf → Token → Prop
  | mark kind, t => t.kind = kind
  | place kind span, t => t.kind = kind ∧ t.span = span
  | name kind ident, t => t.kind = kind ∧ Parser.identOf t = ident

def kind : Leaf → Kind
  | mark kind | place kind _ | name kind _ => kind

theorem Stands.kind {l : Leaf} {t : Token} (h : l.Stands t) : t.kind = l.kind := by
  cases l with
  | mark kind => exact h
  | place | name => exact h.1

def named? : Leaf → Option (Kind × Ident)
  | name kind ident => some (kind, ident)
  | _ => none

end Leaf

/-- A token as a name of some kind. -/
def Token.named (t : Token) : Kind × Ident := (t.kind, Parser.identOf t)

/-- The names among some leaves. -/
def namesOf (leaves : List Leaf) : List (Kind × Ident) := leaves.filterMap Leaf.named?

@[simp] theorem namesOf_append (a b : List Leaf) : namesOf (a ++ b) = namesOf a ++ namesOf b :=
  List.filterMap_append

/-- Parts with a token of a kind between any two of them. -/
def separated (kind : Kind) : List (List Leaf) → List Leaf
  | [] => []
  | [part] => part
  | part :: rest => part ++ .mark kind :: separated kind rest

/-- One part more comes behind a separator. -/
theorem separated_append (kind : Kind) (parts : List (List Leaf)) (nonempty : parts ≠ [])
    (part : List Leaf) :
    separated kind (parts ++ [part]) = separated kind parts ++ .mark kind :: part := by
  induction parts with
  | nil => exact absurd rfl nonempty
  | cons first rest ih =>
    cases rest with
    | nil => rfl
    | cons second rest =>
      have tail := ih (List.cons_ne_nil _ _)
      simp only [List.cons_append] at tail
      simp only [List.cons_append, separated, tail, List.append_assoc]

def Atom.kind : Atom → Kind
  | true => .keyword .kwTrue
  | false => .keyword .kwFalse
  | filesize => .keyword .kwFilesize
  | entrypoint => .keyword .kwEntrypoint
  | string => .string
  | float => .float
  | regexp => .regexp

def UnaryOp.kind : UnaryOp → Kind
  | not => .keyword .kwNot
  | defined => .keyword .kwDefined
  | minus => .symbol .hyphen
  | bitNot => .symbol .tilde

def BinaryOp.kind : BinaryOp → Kind
  | or => .keyword .kwOr
  | and => .keyword .kwAnd
  | eq => .symbol .eq
  | ne => .symbol .ne
  | lt => .symbol .lt
  | le => .symbol .le
  | gt => .symbol .gt
  | ge => .symbol .ge
  | contains => .keyword .kwContains
  | icontains => .keyword .kwIContains
  | startsWith => .keyword .kwStartsWith
  | istartsWith => .keyword .kwIStartsWith
  | endsWith => .keyword .kwEndsWith
  | iendsWith => .keyword .kwIEndsWith
  | iequals => .keyword .kwIEquals
  | matchesRegexp => .keyword .kwMatches
  | bitOr => .symbol .pipe
  | bitXor => .symbol .caret
  | bitAnd => .symbol .ampersand
  | shl => .symbol .shl
  | shr => .symbol .shr
  | add => .symbol .plus
  | sub => .symbol .hyphen
  | mul => .symbol .asterisk
  | div => .symbol .backslash
  | mod => .symbol .percent

def SetItem.leaves (i : SetItem) : List Leaf :=
  .name (.sigil .identity) i.ident :: if i.wildcard then [.mark (.symbol .asterisk)] else []

def PatternSet.leaves : PatternSet → List Leaf
  | .them s => [.place (.keyword .kwThem) s]
  | .items set =>
    .mark (.symbol .lparen) ::
      (separated (.symbol .comma) (set.map (·.leaves)) ++ [.mark (.symbol .rparen)])

mutual

/-- The tokens that an expression stands for, in the order of the source. -/
def Expr.leaves : Expr → List Leaf
  | .atom kind s => [.place kind.kind s]
  | .integer _ s => [.place .integer s]
  | .ident i => [.name .ident i]
  | .ruleWildcard i => [.name .ident i, .mark (.symbol .asterisk)]
  | .pattern i anchor _ => .name (.sigil .identity) i :: leavesOfAnchor anchor
  | .count i range _ => .name (.sigil .count) i :: leavesOfRange range
  | .offset i index _ => .name (.sigil .offset) i :: leavesOfIndex index
  | .length i index _ => .name (.sigil .length) i :: leavesOfIndex index
  | .field object name _ => object.leaves ++ [.mark (.symbol .dot), .name .ident name]
  | .lookup object index _ =>
    object.leaves ++ .mark (.symbol .lbracket) :: (index.leaves ++ [.mark (.symbol .rbracket)])
  | .call callee args _ =>
    callee.leaves ++ .mark (.symbol .lparen) ::
      (separated (.symbol .comma) (leavesOfEach args) ++ [.mark (.symbol .rparen)])
  | .group inner _ => .mark (.symbol .lparen) :: (inner.leaves ++ [.mark (.symbol .rparen)])
  | .unary op operand _ => .mark op.kind :: operand.leaves
  | .binary op operands _ => separated op.kind (leavesOfEach operands)
  | .of quantifier items anchor _ =>
    leavesOfQuantifier quantifier ++ .mark (.keyword .kwOf) ::
      (leavesOfItems items ++ leavesOfAnchor anchor)
  | .forOf quantifier set body _ =>
    .mark (.keyword .kwFor) :: (leavesOfQuantifier quantifier ++
      .mark (.keyword .kwOf) :: (set.leaves ++ .mark (.symbol .colon) :: body.leaves))
  | .forIn quantifier vars iterable body _ =>
    .mark (.keyword .kwFor) :: (leavesOfQuantifier quantifier ++
      (separated (.symbol .comma) (vars.map fun i => [.name .ident i]) ++
        .mark (.keyword .kwIn) ::
          (leavesOfIterable iterable ++ .mark (.symbol .colon) :: body.leaves)))
  | .error _ => []

def Expr.leavesOfEach : List Expr → List (List Leaf)
  | [] => []
  | e :: rest => e.leaves :: leavesOfEach rest

def Expr.leavesOfBounds : Bounds Expr → List Leaf
  | ⟨_, lower, upper⟩ =>
    .mark (.symbol .lparen) :: (lower.leaves ++
      .mark (.symbol .dot) :: .mark (.symbol .dot) :: (upper.leaves ++ [.mark (.symbol .rparen)]))

def Expr.leavesOfRange : Option (Bounds Expr) → List Leaf
  | none => []
  | some bounds => .mark (.keyword .kwIn) :: leavesOfBounds bounds

def Expr.leavesOfIndex : Option Expr → List Leaf
  | none => []
  | some e => .mark (.symbol .lbracket) :: (e.leaves ++ [.mark (.symbol .rbracket)])

def Expr.leavesOfAnchor : Anchor Expr → List Leaf
  | .anywhere => []
  | .at e => .mark (.keyword .kwAt) :: e.leaves
  | .within bounds => .mark (.keyword .kwIn) :: leavesOfBounds bounds

def Expr.leavesOfQuantifier : Quantifier Expr → List Leaf
  | .none s => [.place (.keyword .kwNone) s]
  | .all s => [.place (.keyword .kwAll) s]
  | .any s => [.place (.keyword .kwAny) s]
  | .percentage e => e.leaves ++ [.mark (.symbol .percent)]
  | .count e => e.leaves

def Expr.leavesOfItems : OfItems Expr → List Leaf
  | .patterns set => set.leaves
  | .tuple items =>
    .mark (.symbol .lparen) ::
      (separated (.symbol .comma) (leavesOfEach items) ++ [.mark (.symbol .rparen)])

def Expr.leavesOfIterable : Iterable Expr → List Leaf
  | .range bounds => leavesOfBounds bounds
  | .tuple items =>
    .mark (.symbol .lparen) ::
      (separated (.symbol .comma) (leavesOfEach items) ++ [.mark (.symbol .rparen)])
  | .value e => e.leaves

end

theorem Expr.leavesOfEach_append (a b : List Expr) :
    leavesOfEach (a ++ b) = leavesOfEach a ++ leavesOfEach b := by
  induction a with
  | nil => rfl
  | cons e rest ih => rw [List.cons_append, leavesOfEach, leavesOfEach, ih, List.cons_append]

/-! ### Precedence -/

/-- How tightly a binary operator binds. -/
def BinaryOp.level : BinaryOp → Nat
  | or => 0
  | and => 1
  | eq | ne | lt | le | gt | ge | contains | icontains | startsWith | istartsWith | endsWith
      | iendsWith
  | iequals | matchesRegexp => 3
  | bitOr => 4
  | bitXor => 5
  | bitAnd => 6
  | shl | shr => 7
  | add | sub => 8
  | mul | div | mod => 9

/-- How tightly a prefix operator binds: `not` and `defined` between `and` and
the comparisons, the signs tighter than all binary operators. -/
def UnaryOp.level : UnaryOp → Nat
  | not | defined => 2
  | minus | bitNot => 10

namespace Expr

/-- The level of operands and their links, tighter than all operators. -/
def operandLevel : Nat := 11

/-- The level of the operator that an expression applies last. What stands in
parentheses is an operand. -/
def level : Expr → Nat
  | binary op _ _ => op.level
  | unary op _ _ => op.level
  | _ => operandLevel

/-- A chain of the same level as an operator, with another operator. -/
def EndsChain (op : BinaryOp) (e : Expr) : Prop :=
  ∃ other operands span, e = binary other operands span ∧ other.level = op.level ∧ other ≠ op

/-- Precedence and associativity at one node. Chains have at least two operands
and are grouped from the left: only the first operand may be as loose as the
chain itself, and then its operator is another one. -/
def Grouped : Expr → Prop
  | binary op operands _ =>
    ∃ first rest, operands = first :: rest ∧ rest ≠ [] ∧
      (op.level < first.level ∨ EndsChain op first) ∧ ∀ e ∈ rest, op.level < e.level
  | unary op operand _ => op.level ≤ operand.level
  | field object _ _ | lookup object _ _ | call object _ _ => object.level = operandLevel
  | _ => True

end Expr

def Bounds.parts (b : Bounds Expr) : List Expr := [b.lower, b.upper]

def Anchor.parts : Anchor Expr → List Expr
  | .anywhere => []
  | .at e => [e]
  | .within bounds => bounds.parts

def Quantifier.parts : Quantifier Expr → List Expr
  | .percentage e | .count e => [e]
  | _ => []

def OfItems.parts : OfItems Expr → List Expr
  | .patterns _ => []
  | .tuple items => items

def Iterable.parts : Iterable Expr → List Expr
  | .range bounds => bounds.parts
  | .tuple items => items
  | .value e => [e]

namespace Expr

/-- The expressions right inside of an expression. -/
def parts : Expr → List Expr
  | pattern _ anchor _ => anchor.parts
  | count _ range _ => range.elim [] Bounds.parts
  | offset _ index _ | length _ index _ => index.toList
  | field object _ _ => [object]
  | lookup object index _ => [object, index]
  | call callee args _ => callee :: args
  | group inner _ => [inner]
  | unary _ operand _ => [operand]
  | binary _ operands _ => operands
  | of quantifier items anchor _ => quantifier.parts ++ (items.parts ++ anchor.parts)
  | forOf quantifier _ body _ => quantifier.parts ++ [body]
  | forIn quantifier _ iterable body _ => quantifier.parts ++ (iterable.parts ++ [body])
  | atom .. | integer .. | ident .. | ruleWildcard .. | error .. => []

/-- An expression stands in another one, or is the whole. -/
inductive Contains : Expr → Expr → Prop
  | whole (e : Expr) : Contains e e
  | part {e part f : Expr} (member : part ∈ e.parts) (inside : Contains part f) : Contains e f

/-- A property of all the nodes of an expression. -/
inductive Everywhere (P : Expr → Prop) : Expr → Prop
  | node {e : Expr} (here : P e) (inside : ∀ part ∈ e.parts, Everywhere P part) : Everywhere P e

theorem Everywhere.inv {P : Expr → Prop} {e : Expr} (h : e.Everywhere P) :
    P e ∧ ∀ part ∈ e.parts, part.Everywhere P := by
  cases h with
  | node here inside => exact ⟨here, inside⟩

end Expr

/-! ### Expressions inside of expressions -/

theorem Bounds.sizeOf_part {b : Bounds Expr} {part : Expr} (member : part ∈ b.parts) :
    sizeOf part < sizeOf b := by
  cases b
  rcases List.mem_pair.mp member with rfl | rfl
  · rw [Bounds.mk.sizeOf_spec]
    omega
  · rw [Bounds.mk.sizeOf_spec]
    omega

theorem Anchor.sizeOf_part {a : Anchor Expr} {part : Expr} (member : part ∈ a.parts) :
    sizeOf part < sizeOf a := by
  cases a with
  | anywhere => cases member
  | «at» e => simp_all [Anchor.parts]
  | within b => exact Nat.lt_trans (Bounds.sizeOf_part member) (by simp)

theorem Quantifier.sizeOf_part {q : Quantifier Expr} {part : Expr} (member : part ∈ q.parts) :
    sizeOf part < sizeOf q := by
  cases q <;> simp_all [Quantifier.parts]

theorem OfItems.sizeOf_part {i : OfItems Expr} {part : Expr} (member : part ∈ i.parts) :
    sizeOf part < sizeOf i := by
  cases i with
  | patterns set => cases member
  | tuple items =>
    have less : sizeOf part < sizeOf items := List.sizeOf_lt_of_mem member
    exact Nat.lt_trans less (by simp)

theorem Iterable.sizeOf_part {i : Iterable Expr} {part : Expr} (member : part ∈ i.parts) :
    sizeOf part < sizeOf i := by
  cases i with
  | range b => exact Nat.lt_trans (Bounds.sizeOf_part member) (by simp)
  | tuple items =>
    have less : sizeOf part < sizeOf items := List.sizeOf_lt_of_mem member
    exact Nat.lt_trans less (by simp)
  | value e => simp_all [Iterable.parts]

namespace Expr

theorem sizeOf_part {e part : Expr} (member : part ∈ e.parts) : sizeOf part < sizeOf e := by
  cases e with
  | atom | integer | ident | ruleWildcard | error => cases member
  | pattern i anchor s => exact Nat.lt_trans (Anchor.sizeOf_part member) (by simp; omega)
  | count i range s =>
    cases range with
    | none => cases member
    | some b => exact Nat.lt_trans (Bounds.sizeOf_part member) (by simp; omega)
  | offset i index s | length i index s =>
    obtain rfl := Option.mem_toList.mp member
    simp
    omega
  | field | group | unary =>
    obtain rfl := List.mem_singleton.mp member
    simp
    omega
  | lookup object index s => rcases List.mem_pair.mp member with rfl | rfl <;> simp <;> omega
  | call callee args s =>
    rcases List.mem_cons.mp member with rfl | inside
    · simp
      omega
    · exact Nat.lt_trans (List.sizeOf_lt_of_mem inside) (by simp; omega)
  | binary op operands s =>
    have less : sizeOf part < sizeOf operands := List.sizeOf_lt_of_mem member
    exact Nat.lt_trans less (by simp; omega)
  | of q items anchor s =>
    simp only [parts, List.mem_append] at member
    rcases member with inside | inside | inside
    · exact Nat.lt_trans (Quantifier.sizeOf_part inside) (by simp; omega)
    · exact Nat.lt_trans (OfItems.sizeOf_part inside) (by simp; omega)
    · exact Nat.lt_trans (Anchor.sizeOf_part inside) (by simp; omega)
  | forOf q set body s =>
    simp only [parts, List.mem_append, List.mem_singleton] at member
    rcases member with inside | rfl
    · exact Nat.lt_trans (Quantifier.sizeOf_part inside) (by simp; omega)
    · simp
      omega
  | forIn q vars iterable body s =>
    simp only [parts, List.mem_append, List.mem_singleton] at member
    rcases member with inside | inside | rfl
    · exact Nat.lt_trans (Quantifier.sizeOf_part inside) (by simp; omega)
    · exact Nat.lt_trans (Iterable.sizeOf_part inside) (by simp; omega)
    · simp
      omega

/-- What holds of an expression if it holds of those right inside holds of all. -/
theorem inductParts {P : Expr → Prop} (step : ∀ e, (∀ part ∈ e.parts, P part) → P e)
    (e : Expr) : P e :=
  step e fun part _ => inductParts step part
termination_by sizeOf e
decreasing_by exact sizeOf_part ‹_›

end Expr

/-! ### Leaves and tokens -/

/-- Some leaves account for some tokens: each leaf stands for one of them, in
order. In a parse that is not clean, tokens may be dropped and punctuation and
literals may be missing. A name is never made up. -/
inductive Accounts (clean : Prop) : List Leaf → List Token → Prop
  | nil : Accounts clean [] []
  | leaf {l : Leaf} {t : Token} {leaves : List Leaf} {tokens : List Token} (stands : l.Stands t)
      (rest : Accounts clean leaves tokens) : Accounts clean (l :: leaves) (t :: tokens)
  | dropped (t : Token) {leaves : List Leaf} {tokens : List Token} (dirty : ¬ clean)
      (rest : Accounts clean leaves tokens) : Accounts clean leaves (t :: tokens)
  | missing {l : Leaf} {leaves : List Leaf} {tokens : List Token} (dirty : ¬ clean)
      (nameless : l.named? = none)
      (rest : Accounts clean leaves tokens) : Accounts clean (l :: leaves) tokens

namespace Accounts

variable {clean : Prop} {leaves more : List Leaf} {tokens further : List Token}

theorem append (h : Accounts clean leaves tokens) (h' : Accounts clean more further) :
    Accounts clean (leaves ++ more) (tokens ++ further) := by
  induction h with
  | nil => exact h'
  | leaf stands _ ih => exact .leaf stands ih
  | dropped t dirty _ ih => exact .dropped t dirty ih
  | missing dirty nameless _ ih => exact .missing dirty nameless ih

theorem one {l : Leaf} {t : Token} (stands : l.Stands t) : Accounts clean [l] [t] :=
  .leaf stands .nil

/-- Without a clean parse, all that was read may be dropped. -/
theorem none (dirty : ¬ clean) (tokens : List Token) : Accounts clean [] tokens := by
  induction tokens with
  | nil => exact .nil
  | cons t rest ih => exact .dropped t dirty ih

theorem stand (h : Accounts clean leaves tokens) (yes : clean) :
    List.Forall₂ Leaf.Stands leaves tokens := by
  induction h with
  | nil => exact .nil
  | leaf stands _ ih => exact .cons stands ih
  | dropped _ dirty => exact absurd yes dirty
  | missing dirty => exact absurd yes dirty

/-- Each name is a token of its own. -/
theorem names (h : Accounts clean leaves tokens) :
    (namesOf leaves).Sublist (tokens.map Token.named) := by
  induction h with
  | nil => exact .slnil
  | @leaf l t leaves tokens stands _ ih =>
    cases l with
    | name kind ident =>
      have same : t.named = (kind, ident) := Prod.ext stands.1 stands.2
      rw [List.map_cons, same]
      exact ih.cons_cons _
    | mark | place => exact ih.cons _
  | dropped _ _ _ ih => exact ih.cons _
  | @missing l leaves tokens _ nameless _ ih =>
    rw [namesOf, List.filterMap_cons, nameless]
    exact ih

end Accounts

end RuleDesk
