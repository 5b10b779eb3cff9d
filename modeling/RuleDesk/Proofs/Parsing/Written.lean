import RuleDesk.Proofs.Lexing.Words
import RuleDesk.Proofs.Parsing.OneRule

namespace RuleDesk

/-! ## Conditions that are written out

The words of an expression with blanks between them are parsed back to it, if its
operands are grouped by precedence and it does not nest too deeply. -/

namespace Expr

/-- The words of an expression of names, decimal numbers below 2^63, groups and
operators. -/
inductive Written : Expr → List (List Char) → Prop
  | name {word : List Char} (named : IsName word) (span : Span) :
      Written (.ident ⟨String.ofList word, span⟩) [word]
  | number {word : List Char} (decimal : IsDecimal word)
      (small : digitsValue 10 word < 0x8000000000000000) (span : Span) :
      Written (.integer (digitsValue 10 word) span) [word]
  | group {e : Expr} {words : List (List Char)} (inner : Written e words) (span : Span) :
      Written (.group e span) (['('] :: (words ++ [[')']]))
  | unary (op : UnaryOp) {e : Expr} {words : List (List Char)} (operand : Written e words)
      (span : Span) :
      Written (.unary op e span) (op.kind.word :: words)
  | binary (op : BinaryOp) {parts : List (Expr × List (List Char))}
      (operands : ∀ part ∈ parts, Written part.1 part.2)
      (span : Span) :
      Written (.binary op (parts.map (·.1)) span) ([op.kind.word].intercalate (parts.map (·.2)))

mutual

/-- The levels of nesting that an expression takes, all in all: one for each group,
for each prefix operator and for each first operand that is as loose as its chain. -/
def spent : Expr → Nat
  | group inner _ => inner.spent + 1
  | unary _ operand _ => operand.spent + 1
  | binary op operands _ =>
    spentOfEach operands + if operands.head?.any (·.level == op.level) then 1 else 0
  | _ => 0

def spentOfEach : List Expr → Nat
  | [] => 0
  | e :: rest => e.spent + spentOfEach rest

end

/-- An expression without its places. -/
def shape (e : Expr) : Expr := e.rebase (.of fun _ => 0)

end Expr

/-- A parse that has met no error is in front of a blank and some text. -/
def ParseState.Faces (s : ParseState) (text : List Char) : Prop :=
  ∃ offset, s.QuietAt ⟨.normal, offset, ' ' :: text⟩

/-- Words, each with a blank behind it, in front of a text. -/
def spaced (words : List (List Char)) (rest : List Char) : List Char :=
  words.foldr (fun word rest => word ++ ' ' :: rest) rest

theorem spaced_append (a b : List (List Char)) (rest : List Char) :
    spaced (a ++ b) rest = spaced a (spaced b rest) := List.foldr_append

/-- The next token in front of a text is of a kind. -/
def Leads (k : Kind) (text : List Char) : Prop := ∀ s : ParseState, s.Faces text →
  s.kindAhead? = some k

section Faces

variable {s : ParseState} {k : Kind} {word rest : List Char}

theorem ParseState.Faces.next (h : s.Faces (word ++ ' ' :: rest)) (spelled : Spelled k word) :
    ∃ t, s.next? = some t ∧ t.kind = k ∧ t.text = word ∧ (s.advanced .normal).Faces rest := by
  obtain ⟨offset, quiet⟩ := h
  have next := Cursor.nextSolid?_behindBlank (' ' :: rest) spelled.nonempty
    (spelled.read rest) spelled.meant offset
  refine ⟨⟨k, offset + 1, word⟩, ?_, rfl, rfl, _, quiet.advanced next⟩
  rw [ParseState.next?, quiet.ahead, next]
  rfl

theorem Spelled.leads (spelled : Spelled k word) (rest : List Char) :
    Leads k (word ++ ' ' :: rest) := by
  intro s faces
  obtain ⟨t, next, rfl, _⟩ := faces.next spelled
  exact ParseState.kindAhead?_of_next next

theorem ParseState.Faces.advanced (h : s.Faces (word ++ ' ' :: rest)) (spelled : Spelled k word) :
    (s.advanced .normal).Faces rest := by
  obtain ⟨_, _, _, _, faces⟩ := h.next spelled
  exact faces

theorem ParseState.Faces.withDepth (h : s.Faces rest) (n : Nat) :
    ({ s with depth := n } : ParseState).Faces rest :=
  have ⟨offset, quiet⟩ := h
  ⟨offset, quiet.withDepth n⟩

end Faces

theorem spelled_unary (op : UnaryOp) : Spelled op.kind op.kind.word := by
  cases op with
  | not | defined => exact spelled_keyword _
  | minus | bitNot => exact spelled_symbol _

theorem spelled_binary (op : BinaryOp) : Spelled op.kind op.kind.word := by
  cases op with
  | or | and | contains | icontains | startsWith | istartsWith | endsWith | iendsWith | iequals
    | matchesRegexp => exact spelled_keyword _
  | _ => exact spelled_symbol _

theorem spelled_lparen : Spelled (.symbol .lparen) ['('] := spelled_symbol .lparen

theorem spelled_rparen : Spelled (.symbol .rparen) [')'] := spelled_symbol .rparen

/-! ### First and last tokens -/

/-- Kinds of tokens with which an expression starts that binds so tightly. -/
def Heads (level : Nat) (k : Kind) : Prop :=
  k ∈ [.ident, .integer, .symbol .lparen] ∨ ∃ op : UnaryOp, level ≤ op.level ∧ k = op.kind

/-- Kinds of tokens that end an expression of a level. -/
def Closes (level : Nat) (k : Kind) : Prop :=
  k ∈ [.symbol .rparen, .symbol .rbrace] ∨ ∃ op : BinaryOp, op.level < level ∧ k = op.kind

namespace Heads

variable {level : Nat} {k : Kind}

theorem not_of (h : Heads level k) : k ≠ .keyword .kwOf := by
  rcases h with plain | ⟨op, _, rfl⟩
  · rintro rfl
    exact absurd plain (by decide)
  · cases op <;> decide

theorem not_sign (h : Heads level k) (tight : 10 < level) : Parser.signOperator? k = none := by
  rcases h with plain | ⟨op, least, rfl⟩
  · have all : ∀ k ∈ [Kind.ident, .integer, .symbol .lparen],
        Parser.signOperator? k = none := by decide
    exact all k plain
  · cases op <;> exact absurd (Nat.lt_of_lt_of_le tight least) (by decide)

theorem not_negation (h : Heads level k) (tight : 2 < level) :
    Parser.negationOperator? k = none := by
  rcases h with plain | ⟨op, least, rfl⟩
  · have all : ∀ k ∈ [Kind.ident, .integer, .symbol .lparen],
        Parser.negationOperator? k = none := by decide
    exact all k plain
  · cases op with
    | not | defined => exact absurd (Nat.lt_of_lt_of_le tight least) (by decide)
    | minus | bitNot => rfl

end Heads

namespace Closes

variable {level : Nat} {k : Kind}

theorem rparen (level : Nat) : Closes level (.symbol .rparen) := .inl (by decide)

theorem rbrace (level : Nat) : Closes level (.symbol .rbrace) := .inl (by decide)

theorem operator {op : BinaryOp} (looser : op.level < level) : Closes level op.kind :=
  .inr ⟨op, looser, rfl⟩

theorem tighter (h : Closes level k) {level' : Nat} (le : level ≤ level') : Closes level' k :=
  h.imp_right fun ⟨op, looser, same⟩ => ⟨op, Nat.lt_of_lt_of_le looser le, same⟩

theorem not_of (h : Closes level k) : k ≠ .keyword .kwOf := by
  rcases h with plain | ⟨op, _, rfl⟩
  · rintro rfl
    exact absurd plain (by decide)
  · cases op <;> decide

theorem not_percent (h : Closes level k) (loose : level ≤ 9) : k ≠ .symbol .percent := by
  rcases h with plain | ⟨op, looser, rfl⟩
  · rintro rfl
    exact absurd plain (by decide)
  · cases op with
    | mod => exact absurd (Nat.lt_of_lt_of_le looser loose) (by decide)
    | _ => decide

theorem no_link (h : Closes level k) : k ∉ [.symbol .dot, .symbol .lbracket, .symbol .lparen] := by
  rcases h with plain | ⟨op, _, rfl⟩
  · have all : ∀ k ∈ [Kind.symbol .rparen, .symbol .rbrace], k ∉
        [Kind.symbol .dot, .symbol .lbracket, .symbol .lparen] := by decide
    exact all k plain
  · cases op <;> decide

end Closes

/-! ### The levels of the grammar -/

namespace Parser

/-- The operators of a level. -/
def tableAt : Nat → Kind → Option BinaryOp
  | 0 => orOperator
  | 1 => andOperator
  | 3 => comparisonOperator
  | 4 => bitOrOperator
  | 5 => bitXorOperator
  | 6 => bitAndOperator
  | 7 => shiftOperator
  | 8 => sumOperator
  | 9 => productOperator
  | _ => fun _ => none

def operatorAt : Nat → Parser (Option BinaryOp)
  | 9 => productOperatorAhead
  | level => operatorOf (tableAt level)

theorem tableAt_self (op : BinaryOp) : tableAt op.level op.kind = some op := by cases op <;> rfl

theorem tableAt_other {level : Nat} {op : BinaryOp} (other : op.level < level) :
    tableAt level op.kind = none := by
  match level with
  | 0 | 1 | 2 | 3 | 4 | 5 | 6 | 7 | 8 | 9 =>
    cases op <;> first | rfl | exact absurd other (by decide)
  | _ + 10 => rfl

theorem operatorAt_peeks (level : Nat) : Peeks (operatorAt level) := by
  unfold operatorAt
  split
  · exact productOperatorAhead_peeks
  · exact operatorOf_peeks _

variable {s : ParseState} {k : Kind}

/-- Behind a `%` there is no `of`. -/
theorem operatorAt_finds {op : BinaryOp} (ahead : s.kindAhead? = some op.kind)
    (beyond : s.kindBeyond? ≠ some (.keyword .kwOf)) :
    (operatorAt op.level).run s = (some op, s) := by
  have found : s.kindAhead?.bind (tableAt op.level) = some op := by
    rw [ahead, Option.bind_some, tableAt_self]
  have product : productAhead s = s.kindAhead?.bind productOperator :=
    if_neg fun percent => beyond (beq_iff_eq.mp (Bool.and_eq_true_iff.mp percent).2)
  unfold operatorAt
  split
  · rename_i same
    rw [run_productOperatorAhead, product, ← found, same]
    rfl
  · exact congrArg (·, s) found

theorem operatorAt_closes {level : Nat} (ahead : s.kindAhead? = some k) (closes : Closes level k) :
    (operatorAt level).run s = (none, s) := by
  have missing : s.kindAhead?.bind (tableAt level) = none := by
    rw [ahead, Option.bind_some]
    rcases closes with plain | ⟨op, looser, rfl⟩
    · have all : ∀ k ∈ [Kind.symbol .rparen, .symbol .rbrace], tableAt level k = none := by
        unfold tableAt
        split <;> decide
      exact all k plain
    · exact tableAt_other looser
  unfold operatorAt
  split
  · rw [run_productOperatorAhead, productAhead]
    split
    · rfl
    · exact congrArg (·, s) missing
  · exact congrArg (·, s) missing

section Layer

variable (sub : Level → Parser Expr)

/-- What parses the expressions of a level and tighter ones. -/
def atLevel : Nat → Parser Expr
  | 0 => orExpr sub
  | 1 => andExpr sub
  | 2 => negationExpr sub
  | 3 => comparisonExpr sub
  | 4 => bitOrExpr sub
  | 5 => bitXorExpr sub
  | 6 => bitAndExpr sub
  | 7 => shiftExpr sub
  | 8 => sumExpr sub
  | 9 => productExpr sub
  | 10 => signExpr sub
  | _ => postfixExpr sub

/-- The levels of binary operators are chains, the comparisons at least where no
quantifier is. -/
theorem run_chainLevel (op : BinaryOp)
    (ahead : ((atLevel sub (op.level + 1)).run s).2.kindAhead? = some k)
    (closes : Closes (op.level + 1) k) :
    (atLevel sub op.level).run s =
      (chain (operatorAt op.level) (atLevel sub (op.level + 1))).run s := by
  have comparison : ((bitOrExpr sub).run s).2.kindAhead? = some k → Closes 4 k →
      (comparisonExpr sub).run s =
        (chain (operatorOf comparisonOperator) (bitOrExpr sub)).run s := by
    intro ahead closes
    have no_of : ¬ (((bitOrExpr sub).run s).2.kindAhead? == some (.keyword .kwOf)) = true := by
      rw [ahead]
      simpa using closes.not_of
    have no_percent : percentOf ((bitOrExpr sub).run s).2 = false := by
      rw [percentOf, ahead]
      simp [closes.not_percent (by decide)]
    rw [run_comparisonExpr]
    dsimp only
    rw [if_neg no_of, no_percent, if_neg Bool.false_ne_true]
    rfl
  by_cases level : op.level = 3
  · rw [level] at ahead closes ⊢
    exact comparison ahead closes
  · cases op <;> first | rfl | exact absurd rfl level

end Layer

/-! ### How far a chain has come -/

/-- A chain that starts in a state comes to a left side and to another state. -/
inductive ChainTo (operator : Parser (Option BinaryOp)) (operand : Parser Expr) (s : ParseState) :
    Expr × Bool → ParseState → Prop
  | first {e : Expr} {t : ParseState} (run : operand.run s = (e, t)) :
      ChainTo operator operand s (e, false) t
  | further {c c' : Expr × Bool} {t u : ParseState} (before : ChainTo operator operand s c t)
      (step : (chainStep operator operand c).run t = (.yield c', u)) :
      ChainTo operator operand s c' u

namespace ChainTo

variable {operator : Parser (Option BinaryOp)} {operand : Parser Expr} {c : Expr × Bool}
    {t : ParseState}

theorem goes_on (looks : Peeks operator) (h : ChainTo operator operand s c t) :
    (chain operator operand).run s =
    (((iterate (chainStep operator operand) c).run t).1.1,
      ((iterate (chainStep operator operand) c).run t).2) := by
  induction h with
  | first run =>
    rw [chain, run_bind, run]
    rfl
  | further _ step ih => rw [ih, run_iterate_yield (chainStep_progress looks operand) step]

theorem ends (looks : Peeks operator) (h : ChainTo operator operand s c t)
    (none : operator.run t = (none, t)) :
    (chain operator operand).run s = (c.1, t) := by
  have done : (chainStep operator operand c).run t = (.done c, t) := by
    rw [chainStep, run_bind, none]
    rfl
  rw [h.goes_on looks, run_iterate_done done]

end ChainTo

end Parser

/-! ### What is written is parsed -/

namespace Expr

theorem level_le (e : Expr) : e.level ≤ operandLevel := by
  cases e with
  | unary op => exact show op.level ≤ operandLevel by cases op <;> decide
  | binary op => exact show op.level ≤ operandLevel by cases op <;> decide
  | _ => exact Nat.le_refl _

/-- Expressions of one shape have the same operator. -/
theorem shape_eq_binary {e : Expr} {op : BinaryOp} {operands : List Expr} {span : Span}
    (same : e.shape = (binary op operands span).shape) :
    ∃ operands' span', e = binary op operands' span' ∧
      rebaseAll (.of fun _ => 0) operands' = rebaseAll (.of fun _ => 0) operands := by
  cases e with
  | binary op' operands' span' =>
    obtain ⟨rfl, operands, _⟩ := Expr.binary.inj same
    exact ⟨operands', span', rfl, operands⟩
  | _ => cases same

theorem rebaseAll_concat {operands operands' : List Expr} {e e' : Expr}
    (same : rebaseAll (.of fun _ => 0) operands' = rebaseAll (.of fun _ => 0) operands)
    (last : e'.shape = e.shape) :
    rebaseAll (.of fun _ => 0) (operands' ++ [e']) =
      rebaseAll (.of fun _ => 0) (operands ++ [e]) := by
  rw [rebaseAll_append, rebaseAll_append, same]
  exact congrArg (_ ++ [·]) last

theorem spent_le_of_mem {e : Expr} {es : List Expr} (member : e ∈ es) :
    e.spent ≤ spentOfEach es := by
  induction es with
  | nil => cases member
  | cons first rest ih =>
    rw [spentOfEach]
    rcases List.mem_cons.mp member with rfl | later
    · exact Nat.le_add_right _ _
    · exact Nat.le_trans (ih later) (Nat.le_add_left _ _)

/-- The operands behind the first one, with the operator in front of each. -/
def furtherWords (op : BinaryOp) (parts : List (Expr × List (List Char))) : List (List Char) :=
  parts.flatMap fun part => op.kind.word :: part.2

theorem intercalate_words (op : BinaryOp) (first : Expr × List (List Char))
    (rest : List (Expr × List (List Char))) :
    [op.kind.word].intercalate ((first :: rest).map (·.2)) = first.2 ++ furtherWords op rest := by
  induction rest generalizing first with
  | nil => simp [furtherWords, List.intercalate]
  | cons second rest ih =>
    have tail := ih second
    simp only [List.map_cons] at tail
    rw [List.map_cons, List.map_cons, List.intercalate_cons_cons, tail]
    simp [furtherWords]

/-- The first word says how tightly the expression binds. -/
theorem Written.head {e : Expr} {words : List (List Char)} (written : e.Written words)
    (grouped : e.Everywhere Grouped) :
    ∃ word later k, words = word :: later ∧ Spelled k word ∧ Heads e.level k := by
  induction written with
  | @name word named => exact ⟨word, [], _, rfl, named.spelled, .inl (by decide)⟩
  | @number word decimal => exact ⟨word, [], _, rfl, decimal.spelled, .inl (by decide)⟩
  | group => exact ⟨_, _, _, rfl, spelled_lparen, .inl (by decide)⟩
  | unary op => exact ⟨_, _, _, rfl, spelled_unary op, .inr ⟨op, Nat.le_refl _, rfl⟩⟩
  | @binary op parts operands span ih =>
    obtain ⟨⟨first, rest, same, _, loosest, _⟩, inside⟩ := grouped.inv
    cases parts with
    | nil => cases same
    | cons part parts =>
      obtain ⟨rfl, _⟩ := List.cons.inj same
      obtain ⟨word, later, k, words, spelled, heads⟩ := ih part (.head _) (inside part.1 (.head _))
      refine ⟨word, later ++ furtherWords op parts,
        k, by rw [intercalate_words, words, List.cons_append], spelled, ?_⟩
      refine heads.imp_right fun ⟨op', least, kind⟩ => ⟨op', Nat.le_trans ?_ least, kind⟩
      rcases loosest with tighter | ⟨other, operands, span, chain, level, _⟩
      · exact Nat.le_of_lt tighter
      · have same : part.1.level = op.level := (congrArg Expr.level chain).trans level
        exact Nat.le_of_eq same.symm

end Expr

namespace Parser

open RuleDesk.Expr (shape spent spentOfEach furtherWords)

/-- A part of the parser parses an expression from its words. With the levels that it
needs it comes to the expression up to the places. -/
def Yields (p : Parser Expr) (level : Nat) (e : Expr) (words : List (List Char)) : Prop :=
  ∀ (s : ParseState) (k : Kind) (rest : List Char), s.Faces (spaced words rest) → Leads k rest →
    Closes level k → s.depth + e.spent ≤ maxNesting →
    ∃ e' t, p.run s = (e', t) ∧ e'.shape = e.shape ∧ t.Faces rest ∧ t.depth ≤ s.depth + e.spent

variable {sub : Level → Parser Expr} {level : Nat} {e : Expr} {words : List (List Char)}

/-! #### Operands -/

theorem postfixExpr_closes {s t : ParseState} {k : Kind} (run : (primary sub).run s = (e, t))
    (ahead : t.kindAhead? = some k)
    (closes : Closes level k) : (postfixExpr sub).run s = (e, t) := by
  have bare : Lockstep.linkOf ((primary sub).run s).2 = none := by
    rw [run]
    cases found : Lockstep.linkOf t with
    | none => rfl
    | some link =>
      refine (closes.no_link ?_).elim
      rcases Lockstep.linkOf_eq_some found with ⟨_, link, _⟩ | ⟨_, link⟩ | ⟨_, link⟩
      all_goals
        rw [Option.some.inj (ahead.symm.trans link)]
        decide
  rw [postfixExpr_bare bare, run]

theorem name_yields {word : List Char} (named : IsName word) (span : Span) :
    Yields (postfixExpr sub) level (.ident ⟨String.ofList word, span⟩) [word] := by
  intro s k rest faces leads closes _
  obtain ⟨t, next, kind, text, behind⟩ := faces.next named.spelled
  have run : (primary sub).run s = (.ident (identOf t), s.advanced .normal) := by
    rw [primary, run_bind, run_peek, next]
    dsimp only
    rw [kind]
    simp only [atomOf?, run_bind, run_advance, run_pure]
  refine ⟨_, _, postfixExpr_closes run (leads _ behind) closes, ?_, behind, ?_⟩
  · subst text
    rfl
  · rw [ParseState.advanced_depth]
    exact Nat.le_add_right _ _

theorem number_yields {word : List Char} (decimal : IsDecimal word)
    (small : digitsValue 10 word < 0x8000000000000000) (span : Span) :
    Yields (postfixExpr sub) level (.integer (digitsValue 10 word) span) [word] := by
  intro s k rest faces leads closes _
  obtain ⟨t, next, kind, text, behind⟩ := faces.next decimal.spelled
  have value : literalValue? t.text = some (digitsValue 10 word) := by
    rw [text, decimal.literalValue? small]
  have run : (primary sub).run s = (.integer (digitsValue 10 word) t.span, s.advanced .normal) := by
    rw [primary, run_bind, run_peek, next]
    dsimp only
    rw [kind]
    simp only [atomOf?, run_bind, run_advance, integerValue, value, run_pure]
  refine ⟨_, _, postfixExpr_closes run (leads _ behind) closes, rfl, behind, ?_⟩
  rw [ParseState.advanced_depth]
  exact Nat.le_add_right _ _

/-- What nests takes one level and gives it back. -/
theorem nested_yields {budget : Nat} (inside : Level)
    (h : Yields (layer (nested budget) inside) level e words) {s : ParseState} {k : Kind}
    {rest : List Char} (faces : s.Faces (spaced words rest)) (leads : Leads k rest)
    (closes : Closes level k) (room : s.depth + (e.spent + 1) ≤ maxNesting) :
    ∃ e' t, (nested (budget + 1) inside).run s = (e', t) ∧ e'.shape = e.shape ∧ t.Faces rest ∧
      t.depth ≤ s.depth + e.spent := by
  have fits : s.depth + 1 + e.spent ≤ maxNesting := by omega
  obtain ⟨e', t, run, same, behind, depth⟩ :=
    h { s with depth := s.depth + 1 } k rest (faces.withDepth _) leads closes fits
  dsimp only at depth
  refine ⟨e', { t with depth := t.depth - 1 }, ?_, same, behind.withDepth _, by dsimp only; omega⟩
  have allowed : ¬ maxNesting ≤ s.depth := by omega
  rw [nested, run_bind, run_getDepth, run_ite]
  dsimp only
  rw [if_neg allowed, run_bind, run_getDepth, run_bind, run_setDepth, run_bind]
  dsimp only
  rw [run]
  rfl

theorem group_yields {budget : Nat} (h : Yields (orExpr (nested budget)) 0 e words) (span : Span) :
    Yields (postfixExpr (nested (budget + 1))) level (.group e span)
      (['('] :: (words ++ [[')']])) := by
  intro s k rest faces leads closes room
  rw [spent] at room
  have opens : s.Faces (['('] ++ ' ' :: spaced words ([')'] ++ ' ' :: rest)) := by
    rw [← show spaced [[')']] rest = [')'] ++ ' ' :: rest from rfl, ← spaced_append]
    exact faces
  obtain ⟨t, next, kind, _, inside⟩ := opens.next spelled_lparen
  obtain ⟨e', u, run, same, behind, depth⟩ :=
    nested_yields .expression h inside (spelled_rparen.leads rest) (.rparen 0)
    (by rw [ParseState.advanced_depth]; exact room)
  rw [ParseState.advanced_depth] at depth
  have closed := behind.advanced spelled_rparen
  have group : (primary (nested (budget + 1))).run s =
      (.group e' (t.span.through (.point (u.advanced .normal).input.here.offset)),
        u.advanced .normal) := by
    rw [run_primary_group next kind, run]
    dsimp only
    rw [run_expect (spelled_rparen.leads rest u behind)]
  refine ⟨_, _, postfixExpr_closes group (leads _ closed) closes, congrArg (Expr.group · _) same,
    closed, ?_⟩
  rw [ParseState.advanced_depth, spent]
  omega

/-- A prefix operator takes its operand at its own level. -/
theorem unary_yields {budget : Nat} (inside : Level) (table : Kind → Option UnaryOp)
    {bare : Parser Expr} {op : UnaryOp}
    (found : table op.kind = some op) (h : Yields (layer (nested budget) inside) level e words)
    (span : Span) :
    Yields (prefixed (nested (budget + 1)) table inside bare) level (.unary op e span)
      (op.kind.word :: words) := by
  intro s k rest faces leads closes room
  rw [spent] at room
  obtain ⟨t, next, kind, _, behind⟩ := ParseState.Faces.next faces (spelled_unary op)
  obtain ⟨e', u, run, same, behind, depth⟩ :=
    nested_yields inside h behind leads closes (by rw [ParseState.advanced_depth]; exact room)
  rw [ParseState.advanced_depth] at depth
  refine ⟨.unary op e' (t.span.through e'.span), u, ?_, ?_, behind, ?_⟩
  · rw [prefixed, run_bind, run_peek, next]
    dsimp only
    rw [kind, found]
    dsimp only
    rw [run_bind, run_advance, run_bind, run]
    rfl
  · exact congrArg (Expr.unary op · _) same
  · rw [spent]
    omega

/-! #### Chains -/

section Chain

variable {operator : Parser (Option BinaryOp)} {operand : Parser Expr} {op : BinaryOp}
    {lhs rhs : Expr} {t u : ParseState}

theorem chainStep_first (found : operator.run t = (some op, t))
    (run : operand.run (t.advanced .normal) = (rhs, u)) :
    (chainStep operator operand (lhs, false)).run t = (.yield (.pair op lhs rhs, true), u) := by
  simp [chainStep, found, run]

theorem chainStep_same {operands : List Expr} {span : Span} (found : operator.run t = (some op, t))
    (run : operand.run (t.advanced .normal) = (rhs, u)) :
      (chainStep operator operand (.binary op operands span, true)).run t =
      (.yield (.binary op (operands ++ [rhs]) (span.through rhs.span), true), u) := by
  simp [chainStep, found, run, Expr.append?, Expr.span]

/-- With another operator a chain becomes the first operand. This takes a level. -/
theorem chainStep_turn {other : BinaryOp} (another : other ≠ op) {operands : List Expr}
    {span : Span}
    (found : operator.run t = (some op, t)) (run : operand.run (t.advanced .normal) = (rhs, u))
    (room : u.depth < maxNesting) :
    (chainStep operator operand (.binary other operands span, true)).run t =
      (.yield (.pair op (.binary other operands span) rhs, true),
        { u with depth := u.depth + 1 }) := by
  simp [chainStep, found, run, Expr.append?, another, Nat.not_le.mpr room]

/-- One operand more, behind its operator. -/
theorem next_operand {op : BinaryOp} {e : Expr} {words : List (List Char)}
    (h : Yields operand (op.level + 1) e words)
    (head : ∃ word later k, words = word :: later ∧ Spelled k word ∧ k ≠ .keyword .kwOf) {k : Kind}
    {rest : List Char}
    (faces : t.Faces (spaced (op.kind.word :: words) rest)) (leads : Leads k rest)
    (closes : Closes (op.level + 1) k)
    (room : t.depth + e.spent ≤ maxNesting) : (operatorAt op.level).run t = (some op, t) ∧
      ∃ e' u, operand.run (t.advanced .normal) = (e', u) ∧ e'.shape = e.shape ∧ u.Faces rest ∧
        u.depth ≤ t.depth + e.spent := by
  have behind : (t.advanced .normal).Faces (spaced words rest) :=
    ParseState.Faces.advanced faces (spelled_binary op)
  have ahead : t.kindAhead? = some op.kind := (spelled_binary op).leads _ t faces
  have beyond : t.kindBeyond? ≠ some (.keyword .kwOf) := by
    obtain ⟨word, later, k', rfl, spelled, other⟩ := head
    rw [← ParseState.advanced_kindAhead?, spelled.leads _ _ behind]
    exact fun same => other (Option.some.inj same)
  have depth := t.advanced_depth .normal
  refine ⟨operatorAt_finds ahead beyond, ?_⟩
  rw [← depth] at room ⊢
  exact h _ k rest behind leads closes room

/-- What an operand comes from. -/
structure Operand (sub : Level → Parser Expr) (op : BinaryOp)
    (part : Expr × List (List Char)) : Prop where
  yields : Yields (atLevel sub (op.level + 1)) (op.level + 1) part.1 part.2
  head : ∃ word later k, part.2 = word :: later ∧ Spelled k word ∧ k ≠ .keyword .kwOf

theorem leads_further (op : BinaryOp) (parts : List (Expr × List (List Char))) {k : Kind}
    {rest : List Char} (leads : Leads k rest)
    (closes : Closes (op.level + 1) k) : ∃ k', Leads k' (spaced (furtherWords op parts) rest) ∧
    Closes (op.level + 1) k' := by
  cases parts with
  | nil => exact ⟨k, leads, closes⟩
  | cons part parts => exact ⟨op.kind, (spelled_binary op).leads _, .operator (Nat.lt_succ_self _)⟩

theorem spaced_further (op : BinaryOp) (part : Expr × List (List Char))
    (parts : List (Expr × List (List Char))) (rest : List Char) :
    spaced (furtherWords op (part :: parts)) rest =
      spaced (op.kind.word :: part.2) (spaced (furtherWords op parts) rest) :=
  spaced_append (op.kind.word :: part.2) (furtherWords op parts) rest

/-- Operands that the same operator joins come behind those that are there. -/
theorem chain_further {op : BinaryOp} {parts : List (Expr × List (List Char))}
    (each : ∀ part ∈ parts, Operand sub op part)
    {s : ParseState} {operands : List Expr} {span : Span}
    (before : ChainTo (operatorAt op.level) (atLevel sub (op.level + 1)) s (lhs, true) t)
    (same : lhs.shape = (Expr.binary op operands span).shape) {k : Kind} {rest : List Char}
    (faces : t.Faces (spaced (furtherWords op parts) rest)) (leads : Leads k rest)
    (closes : Closes (op.level + 1) k)
    (room : t.depth + spentOfEach (parts.map (·.1)) ≤ maxNesting) :
    ∃ e' u, ChainTo (operatorAt op.level) (atLevel sub (op.level + 1)) s (e', true) u ∧
      e'.shape = (Expr.binary op (operands ++ parts.map (·.1)) span).shape ∧ u.Faces rest ∧
        u.depth ≤ t.depth + spentOfEach (parts.map (·.1)) := by
  induction parts generalizing lhs operands t with
  | nil => exact ⟨lhs, t, before, by rw [List.map_nil, List.append_nil, same], faces, Nat.le_refl _⟩
  | cons part parts ih =>
    obtain ⟨operand, others⟩ := List.forall_mem_cons.mp each
    rw [List.map_cons, spentOfEach] at room ⊢
    rw [spaced_further] at faces
    obtain ⟨k', leads', closes'⟩ := leads_further op parts leads closes
    obtain ⟨found, e', u, run, shape', behind, depth⟩ :=
      next_operand operand.yields operand.head faces leads' closes' (by omega)
    obtain ⟨operands', span', rfl, alike⟩ := Expr.shape_eq_binary same
    have longer : (Expr.binary op (operands' ++ [e']) (span'.through e'.span)).shape =
      (Expr.binary op (operands ++ [part.1]) span).shape :=
      congrArg (Expr.binary op · _) (Expr.rebaseAll_concat alike shape')
    obtain ⟨e'', v, later, whole, ended, deeper⟩ :=
      ih others (before.further (chainStep_same found run)) longer behind (by omega)
    refine ⟨e'', v, later, ?_, ended, by omega⟩
    rw [whole, List.append_assoc]
    rfl

end Chain

/-! #### All levels -/

/-- The parse of a chain comes to its last operand. What the first one ends with is no
part of a quantifier. -/
def Reaches (sub : Level → Parser Expr) (op : BinaryOp) (e : Expr)
    (words : List (List Char)) : Prop :=
  ∀ (s : ParseState) (k : Kind) (rest : List Char), s.Faces (spaced words rest) → Leads k rest →
    Closes (op.level + 1) k → s.depth + e.spent ≤ maxNesting →
    (∃ k', ((atLevel sub (op.level + 1)).run s).2.kindAhead? = some k' ∧ Closes (op.level + 1) k') ∧
      ∃ e' t, ChainTo (operatorAt op.level) (atLevel sub (op.level + 1)) s (e', true) t ∧
        e'.shape = e.shape ∧ t.Faces rest ∧ t.depth ≤ s.depth + e.spent

/-- What an expression with some words is parsed by: each level that is as loose, and
for a chain also the start of a longer one. -/
structure Parses (sub : Level → Parser Expr) (e : Expr) (words : List (List Char)) : Prop where
  yields : ∀ level ≤ e.level, Yields (atLevel sub level) level e words
  reaches : ∀ op operands span, e = .binary op operands span → Reaches sub op e words

theorem level_cases {level : Nat} (le : level < Expr.operandLevel) :
    level = 2 ∨ level = 10 ∨ ∃ op : BinaryOp, op.level = level := by
  match level with
  | 0 => exact .inr (.inr ⟨.or, rfl⟩)
  | 1 => exact .inr (.inr ⟨.and, rfl⟩)
  | 2 => exact .inl rfl
  | 3 => exact .inr (.inr ⟨.eq, rfl⟩)
  | 4 => exact .inr (.inr ⟨.bitOr, rfl⟩)
  | 5 => exact .inr (.inr ⟨.bitXor, rfl⟩)
  | 6 => exact .inr (.inr ⟨.bitAnd, rfl⟩)
  | 7 => exact .inr (.inr ⟨.shl, rfl⟩)
  | 8 => exact .inr (.inr ⟨.add, rfl⟩)
  | 9 => exact .inr (.inr ⟨.mul, rfl⟩)
  | 10 => exact .inr (.inl rfl)

theorem prefixed_bare {table : Kind → Option UnaryOp} {inside : Level} {bare : Parser Expr}
    {s : ParseState} {k : Kind}
    (ahead : s.kindAhead? = some k) (other : table k = none) :
    (prefixed sub table inside bare).run s = bare.run s := by
  obtain ⟨t, next, rfl⟩ := ParseState.kindAhead?_eq_some ahead
  rw [prefixed, run_bind, run_peek, next]
  dsimp only
  rw [other]

/-- A level hands on what binds tighter. -/
theorem yields_looser (looser : level < e.level)
    (head : ∃ word later k, words = word :: later ∧ Spelled k word ∧ Heads e.level k)
    (h : Yields (atLevel sub (level + 1)) (level + 1) e words) :
    Yields (atLevel sub level) level e words := by
  intro s k rest faces leads closes room
  obtain ⟨e', t, run, same, behind, depth⟩ :=
    h s k rest faces leads (closes.tighter (Nat.le_succ _)) room
  refine ⟨e', t, ?_, same, behind, depth⟩
  obtain ⟨word, later, k', rfl, spelled, heads⟩ := head
  have first : s.kindAhead? = some k' := spelled.leads _ s faces
  rcases level_cases (Nat.lt_of_lt_of_le looser e.level_le) with rfl | rfl | ⟨op, rfl⟩
  · exact (prefixed_bare first (heads.not_negation looser)).trans run
  · exact (prefixed_bare first (heads.not_sign looser)).trans run
  · have ahead := leads t behind
    rw [run_chainLevel sub op (k := k) (by rw [run]; exact ahead) (closes.tighter (Nat.le_succ _))]
    exact ChainTo.ends (operatorAt_peeks _) (.first run) (operatorAt_closes ahead closes)

theorem yields_all (head : ∃ word later k, words = word :: later ∧ Spelled k word ∧ Heads e.level k)
    (own : Yields (atLevel sub e.level) e.level e words) :
    ∀ level ≤ e.level, Yields (atLevel sub level) level e words := by
  intro level le
  induction le using Nat.decreasingInduction with
  | of_succ level looser ih => exact yields_looser looser head ih
  | self => exact own

theorem Reaches.yields {op : BinaryOp} (h : Reaches sub op e words) :
    Yields (atLevel sub op.level) op.level e words := by
  intro s k rest faces leads closes room
  obtain ⟨⟨k', ahead, follows⟩, e', t, chain, same, behind, depth⟩ :=
    h s k rest faces leads (closes.tighter (Nat.le_succ _)) room
  refine ⟨e', t, ?_, same, behind, depth⟩
  rw [run_chainLevel sub op ahead follows]
  exact chain.ends (operatorAt_peeks _) (operatorAt_closes (leads t behind) closes)

/-- The first two operands. The first one may be a chain as loose as this one. -/
theorem reaches_second {op : BinaryOp} {first second : Expr × List (List Char)}
    (parsed : Parses sub first.1 first.2)
    (loosest : op.level < first.1.level ∨ Expr.EndsChain op first.1)
    (operand : Operand sub op second) (span : Span)
    {s : ParseState} {k : Kind} {rest : List Char}
    (faces : s.Faces (spaced (first.2 ++ op.kind.word :: second.2) rest))
    (leads : Leads k rest) (closes : Closes (op.level + 1) k)
    (room : s.depth +
    (first.1.spent + (second.1.spent + if first.1.level = op.level then 1 else 0)) ≤ maxNesting) :
    (∃ k', ((atLevel sub (op.level + 1)).run s).2.kindAhead? = some k' ∧ Closes (op.level + 1) k') ∧
      ∃ e' t, ChainTo (operatorAt op.level) (atLevel sub (op.level + 1)) s (e', true) t ∧
        e'.shape = (Expr.binary op [first.1, second.1] span).shape ∧ t.Faces rest ∧
          t.depth ≤ s.depth +
            (first.1.spent + (second.1.spent + if first.1.level = op.level then 1 else 0)) := by
  rw [spaced_append] at faces
  have follows : Leads op.kind (spaced (op.kind.word :: second.2) rest) :=
    (spelled_binary op).leads _
  have closed : Closes (op.level + 1) op.kind := .operator (Nat.lt_succ_self _)
  have paired : ∀ {a b : Expr}, a.shape = first.1.shape → b.shape = second.1.shape →
      (Expr.pair op a b).shape = (Expr.binary op [first.1, second.1] span).shape :=
        fun {a b} left right =>
    congrArg₂ (fun a b => Expr.binary op [a, b] ⟨0, 0⟩) left right
  rcases loosest with tighter | ⟨other, operands, place, chain, level, another⟩
  · rw [if_neg (Nat.ne_of_gt tighter)] at room ⊢
    obtain ⟨e', t, run, same, behind, depth⟩ :=
      parsed.yields _ tighter s op.kind _ faces follows closed (by omega)
    obtain ⟨found, e'', u, run', same', behind', depth'⟩ :=
      next_operand operand.yields operand.head behind leads closes (by omega)
    refine ⟨⟨op.kind, ?_, closed⟩, _, u, .further (.first run) (chainStep_first found run'),
      paired same same', behind', by omega⟩
    rw [run]
    exact follows t behind
  · have equal : first.1.level = op.level := (congrArg Expr.level chain).trans level
    rw [if_pos equal] at room ⊢
    have reaches := parsed.reaches other operands place chain s op.kind _ faces follows
    rw [level] at reaches
    obtain ⟨ahead, e', t, before, same, behind, depth⟩ := reaches closed (by omega)
    obtain ⟨found, e'', u, run', same', behind', depth'⟩ :=
      next_operand operand.yields operand.head behind leads closes (by omega)
    obtain ⟨operands', span', rfl, _⟩ := Expr.shape_eq_binary (chain ▸ same)
    have longer := before.further (chainStep_turn another found run' (by omega))
    exact ⟨ahead, _, _, longer, paired same same', behind'.withDepth _, by dsimp only; omega⟩

theorem binary_reaches {op : BinaryOp} {parts : List (Expr × List (List Char))} {span : Span}
    (grouped : (Expr.binary op (parts.map (·.1)) span).Grouped)
    (parsed : ∀ part ∈ parts, Parses sub part.1 part.2)
    (heads : ∀ part ∈ parts, ∃ word later k, part.2 = word :: later ∧ Spelled k word ∧
    Heads part.1.level k) :
    Reaches sub op (.binary op (parts.map (·.1)) span)
      ([op.kind.word].intercalate (parts.map (·.2))) := by
  obtain ⟨first, rest, same, several, loosest, tighter⟩ := grouped
  obtain ⟨part, parts', rfl, rfl, rfl⟩ := List.map_eq_cons_iff.mp same
  obtain ⟨second, parts, rfl⟩ : ∃ second parts, parts' = second :: parts := by
    cases parts' with
    | nil => exact (several rfl).elim
    | cons second parts => exact ⟨second, parts, rfl⟩
  have operands : ∀ part ∈ second :: parts, Operand sub op part := fun other member => by
    have member' : other ∈ part :: second :: parts := .tail _ member
    obtain ⟨word, later, k, words, spelled, head⟩ := heads other member'
    exact ⟨(parsed other member').yields _ (tighter _ (List.mem_map_of_mem member)), word, later, k,
      words, spelled, head.not_of⟩
  obtain ⟨operand, others⟩ := List.forall_mem_cons.mp operands
  intro s k rest faces leads closes room
  have cost : (Expr.binary op ((part :: second :: parts).map (·.1)) span).spent =
      part.1.spent + (second.1.spent + spentOfEach (parts.map (·.1))) + if part.1.level = op.level
        then 1 else 0 := by
    simp [spent, spentOfEach]
  rw [cost] at room ⊢
  rw [Expr.intercalate_words, spaced_append, spaced_further, ← spaced_append] at faces
  obtain ⟨k', leads', closes'⟩ := leads_further op parts leads closes
  obtain ⟨ahead, e', t, before, same, behind, depth⟩ :=
    reaches_second (parsed part (.head _)) loosest operand span faces leads' closes' (by omega)
  obtain ⟨e'', u, chain, whole, ended, deeper⟩ :=
    chain_further others before same behind leads closes (by omega)
  exact ⟨ahead, e'', u, chain, whole, ended, by omega⟩

/-- The expression is parsed from its words at any level that is loose enough. -/
theorem written_parses (written : e.Written words) (grouped : e.Everywhere Expr.Grouped)
    (budget : Nat) (enough : e.spent ≤ budget) :
    Parses (nested budget) e words := by
  induction written generalizing budget with
  | name named span =>
    exact ⟨yields_all ((Expr.Written.name named span).head grouped) (name_yields named span), nofun⟩
  | number decimal small span =>
    exact ⟨yields_all ((Expr.Written.number decimal small span).head grouped)
      (number_yields decimal small span), nofun⟩
  | @group e words inner span ih =>
    rw [spent] at enough
    obtain ⟨budget, rfl⟩ : ∃ n, budget = n + 1 := ⟨budget - 1, by omega⟩
    have inside := ih (grouped.inv.2 e (.head _)) budget (Nat.le_of_succ_le_succ enough)
    exact ⟨yields_all ((Expr.Written.group inner span).head grouped)
      (group_yields (inside.yields 0 (Nat.zero_le _)) span), nofun⟩
  | @unary op e words operand span ih =>
    rw [spent] at enough
    obtain ⟨budget, rfl⟩ : ∃ n, budget = n + 1 := ⟨budget - 1, by omega⟩
    obtain ⟨least, inside⟩ := grouped.inv
    have parsed :=
      (ih (inside e (.head _)) budget (Nat.le_of_succ_le_succ enough)).yields op.level least
    refine ⟨yields_all ((Expr.Written.unary op operand span).head grouped) ?_, nofun⟩
    cases op with
    | not | defined => exact unary_yields .negation negationOperator? rfl parsed span
    | minus | bitNot => exact unary_yields .sign signOperator? rfl parsed span
  | @binary op parts operands span ih =>
    obtain ⟨here, inside⟩ := grouped.inv
    have each : ∀ part ∈ parts, part.1.Everywhere Expr.Grouped :=
      fun part member => inside part.1 (List.mem_map_of_mem member)
    have parsed : ∀ part ∈ parts, Parses (nested budget) part.1 part.2 := fun part member =>
      ih part member (each part member) budget
        (Nat.le_trans (Expr.spent_le_of_mem (List.mem_map_of_mem member))
          (Nat.le_trans (Nat.le_add_right _ _) enough))
    have reaches :=
      binary_reaches here parsed fun part member => (operands part member).head (each part member)
    refine ⟨yields_all ((Expr.Written.binary op operands span).head grouped) reaches.yields, ?_⟩
    rintro _ _ _ same
    cases same
    exact reaches

end Parser

theorem intercalate_blank {words : List (List Char)} (nonempty : words ≠ []) (rest : List Char) :
    [' '].intercalate words ++ ' ' :: rest = spaced words rest := by
  induction words with
  | nil => exact (nonempty rfl).elim
  | cons first later ih =>
    cases later with
    | nil => simp [spaced, List.intercalate]
    | cons second later =>
      have tail := ih (List.cons_ne_nil _ _)
      rw [List.intercalate_cons_cons, List.append_assoc, List.append_assoc, tail]
      rfl

/-- The tokens of an expression in canonical form, with a blank between each two of
them, are a condition that parses without errors to this expression, as long as its
groups, prefix operators and first operands of its own precedence are fewer than 127.
Chains may be of any length. -/
theorem parse_written {e : Expr} {words : List (List Char)} (written : e.Written words)
    (grouped : e.Everywhere Expr.Grouped)
    (few : e.spent < 127) : (parse (oneRule ([' '].intercalate words))).errors = [] ∧
      (parse (oneRule ([' '].intercalate words))).rules.map (·.condition.map (·.shape)) =
        [some e.shape] := by
  obtain ⟨s, parse, ⟨here, calm, quiet⟩, _, _, depth⟩ :=
    Parser.run_condition ([' '].intercalate words)
  have nonempty : words ≠ [] := by
    obtain ⟨word, later, _, rfl, _⟩ := written.head grouped
    exact List.cons_ne_nil _ _
  rw [show " \x7d".toList = ' ' :: ['}'] from rfl, intercalate_blank nonempty] at here
  have brace : Leads (.symbol .rbrace) ['}'] :=
    fun _ ⟨offset, quiet⟩ => quiet.kindAhead? (Parser.nextSolid?_lastBrace offset)
  have parses := Parser.written_parses written grouped 127 (Nat.le_of_lt few)
  have room : s.depth + e.spent ≤ maxNesting := by rw [depth, maxNesting]; omega
  obtain ⟨e', t, run, same, ⟨offset, behind⟩, _⟩ :=
    parses.yields 0 (Nat.zero_le _) s _ ['}'] ⟨_, here, calm, quiet⟩ brace (.rbrace 0) room
  rw [show Parser.orExpr (Parser.nested 127) = Parser.atLevel (Parser.nested 127) 0 from rfl,
    run] at parse
  obtain ⟨clean, conditions⟩ := Parser.parse_oneRule parse (behind.withDepth _)
  refine ⟨clean, ?_⟩
  have shapes := congrArg (List.map (Option.map Expr.shape)) conditions
  rw [List.map_map] at shapes
  exact shapes.trans (congrArg (fun e => [some e]) same)

namespace Mixture

/-- A chain that goes on with another operator. -/
def sum : Expr := .binary .add
  [.binary .sub [.ident ⟨"a", ⟨0, 0⟩⟩, .integer 1 ⟨0, 0⟩] ⟨0, 0⟩, .ident ⟨"b", ⟨0, 0⟩⟩] ⟨0, 0⟩

def remainder : Expr :=
  .binary .mod [.ident ⟨"c", ⟨0, 0⟩⟩, .group (.integer 20 ⟨0, 0⟩) ⟨0, 0⟩] ⟨0, 0⟩

def condition : Expr := .unary .not (.binary .contains [sum, remainder] ⟨0, 0⟩) ⟨0, 0⟩

def words : List (List Char) :=
  ["not".toList, ['a'], ['-'], ['1'], ['+'], ['b'], "contains".toList, ['c'], ['%'], ['('],
    "20".toList, [')']]

theorem written : condition.Written words := by
  have pair : ∀ (op : BinaryOp) {e e' : Expr} {words words' : List (List Char)}, e.Written words →
      e'.Written words' →
      (Expr.binary op [e, e'] ⟨0, 0⟩).Written (words ++ op.kind.word :: words') := by
    intro op e e' words words' left right
    have both : ∀ part ∈ [(e, words), (e', words')], part.1.Written part.2 :=
      List.forall_mem_cons.mpr ⟨left, List.forall_mem_singleton.mpr right⟩
    have chain := Expr.Written.binary op both ⟨0, 0⟩
    rw [Expr.intercalate_words] at chain
    simpa [Expr.furtherWords] using chain
  have name : ∀ c, IsName [c] → (Expr.ident ⟨String.ofList [c], ⟨0, 0⟩⟩).Written [[c]] :=
    fun c named => .name named _
  have number : ∀ word, IsDecimal word → digitsValue 10 word < 0x8000000000000000 →
    (Expr.integer (digitsValue 10 word) ⟨0, 0⟩).Written [word] :=
    fun word decimal small => .number decimal small _
  have difference :=
    pair .sub (name 'a' ⟨rfl, rfl, by decide⟩) (number ['1'] ⟨nofun, rfl⟩ (by decide))
  have remainder := pair .mod (name 'c' ⟨rfl, rfl, by decide⟩)
    (.group (number "20".toList ⟨nofun, rfl⟩ (by decide)) ⟨0, 0⟩)
  exact .unary .not
    (pair .contains (pair .add difference (name 'b' ⟨rfl, rfl, by decide⟩)) remainder) ⟨0, 0⟩

theorem grouped : condition.Everywhere Expr.Grouped := by
  have name : ∀ i, (Expr.ident i).Everywhere Expr.Grouped := fun i => .node trivial nofun
  have number : ∀ n, (Expr.integer n ⟨0, 0⟩).Everywhere Expr.Grouped := fun n => .node trivial nofun
  have pair : ∀ (op : BinaryOp) {e e' : Expr}, e.Everywhere Expr.Grouped →
      e'.Everywhere Expr.Grouped →
      (op.level < e.level ∨ Expr.EndsChain op e) → op.level < e'.level →
        (Expr.binary op [e, e'] ⟨0, 0⟩).Everywhere Expr.Grouped :=
    fun op e e' left right loosest tighter =>
      .node ⟨e, [e'], rfl, List.cons_ne_nil _ _, loosest, List.forall_mem_singleton.mpr tighter⟩
        (List.forall_mem_cons.mpr ⟨left, List.forall_mem_singleton.mpr right⟩)
  have difference := pair .sub (name ⟨"a", ⟨0, 0⟩⟩) (number 1) (.inl (by decide)) (by decide)
  have whole :=
    pair .add difference (name ⟨"b", ⟨0, 0⟩⟩) (.inr ⟨_, _, _, rfl, rfl, by decide⟩) (by decide)
  have group : (Expr.group (.integer 20 ⟨0, 0⟩) ⟨0, 0⟩).Everywhere Expr.Grouped :=
    .node trivial (List.forall_mem_singleton.mpr (number 20))
  have rest := pair .mod (name ⟨"c", ⟨0, 0⟩⟩) group (.inl (by decide)) (by decide)
  have least : UnaryOp.not.level ≤ BinaryOp.contains.level := by decide
  exact .node least
    (List.forall_mem_singleton.mpr (pair .contains whole rest (.inl (by decide)) (by decide)))

end Mixture

theorem parse_written_mixture :
    Mixture.condition.Written Mixture.words ∧ Mixture.condition.Everywhere Expr.Grouped ∧
    Mixture.condition.spent < 127 ∧
      (parse (oneRule "not a - 1 + b contains c % ( 20 )".toList)).errors = [] ∧
      (parse (oneRule "not a - 1 + b contains c % ( 20 )".toList)).rules.map
        (·.condition.map (·.shape)) = [some Mixture.condition] := by
  have text : "not a - 1 + b contains c % ( 20 )".toList = [' '].intercalate Mixture.words := rfl
  have bare : Mixture.condition.shape = Mixture.condition := rfl
  have few : Mixture.condition.spent < 127 := by decide
  have parsed := parse_written Mixture.written Mixture.grouped few
  rw [← text, bare] at parsed
  exact ⟨Mixture.written, Mixture.grouped, few, parsed⟩

end RuleDesk
