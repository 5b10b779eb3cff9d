import RuleDesk.Proofs.Parsing.OneRule

namespace RuleDesk

/-! ## Conditions joined by one operator

Conditions in parentheses, each of which parses for itself, make one condition when
`or` or `and` stands between them. -/

def inParens (body : List Char) : List Char := '(' :: (body ++ [')'])

/-- Something in parentheses that is a whole condition, and what this is parsed to. -/
structure Alone where
  body : List Char
  inner : Expr
  clean : (parse (oneRule (inParens body))).errors = []
  meant : (parse (oneRule (inParens body))).rules.map (·.condition) =
      [some (.group inner ⟨20, 20 + byteLength (inParens body)⟩)]

namespace Alone

def text (a : Alone) : List Char := inParens a.body

/-- The condition where it stands alone. -/
def tree (a : Alone) : Expr := .group a.inner ⟨20, 20 + byteLength a.text⟩

/-- None of its chains goes on with another operator. -/
def Steady (a : Alone) : Prop := a.inner.Everywhere Expr.Steady

theorem byteLength_text (a : Alone) : byteLength a.text = byteLength a.body + 2 := by
  have width : ∀ cs : List Char, byteLength ('(' :: cs) = 1 + byteLength cs := fun _ => rfl
  rw [text, inParens, width, byteLength_append]
  have last : byteLength [')'] = 1 := rfl
  omega

end Alone

inductive Junction
  | and | or
deriving DecidableEq, Repr

namespace Junction

def op : Junction → BinaryOp
  | and => .and
  | or => .or

/-- The operator between two conditions, with a blank on each side. -/
def text : Junction → List Char
  | and => " and ".toList
  | or => " or ".toList

/-- All behind the first condition. -/
def further (j : Junction) (rest : List Alone) : List Char := rest.flatMap fun a => j.text ++ a.text

/-- The conditions with the operator between each two of them. -/
def joined (j : Junction) (first : Alone) (rest : List Alone) : List Char :=
  first.text ++ j.further rest

/-- The trees of some conditions, when the first one stands so many bytes further down
than alone, and the other ones are joined to it. -/
def trees (j : Junction) : Nat → List Alone → List Expr
  | _, [] => []
  | n, a :: rest =>
    a.tree.rebase (.of (· + n)) :: j.trees (n + byteLength a.text + byteLength j.text) rest

end Junction

/-! ### The operands of the operator -/

namespace Junction

open RuleDesk.Parser

variable (j : Junction) {sub : Level → Parser Expr}

def operand (sub : Level → Parser Expr) : Parser Expr :=
  match j with
  | and => negationExpr sub
  | or => andExpr sub

theorem operand_around : Around [j.op.kind, .symbol .rbrace] (j.operand sub) (primary sub) := by
  have negation : Around conditionStops (negationExpr sub) (primary sub) := negationExpr_around
  cases j with
  | and => exact negation.fewer (by decide)
  | or => exact .trans (tableChain_around (by decide)) (negation.fewer (by decide))

/-- A whole condition is an operand, too, if nothing is joined to it. -/
theorem orExpr_around : Around [.symbol .rbrace] (orExpr sub) (primary sub) :=
  .trans (tableChain_around (by decide)) ((operand_around .or).fewer (by decide))

theorem run_orExpr {s t u : ParseState} {first : Expr} {rest : List Expr}
    (run : (j.operand sub).run s = (first, t))
    (more : MoreOperands (j.operand sub) j.op.kind t rest u)
    (ends : u.kindAhead? = some (.symbol .rbrace)) :
    (orExpr sub).run s = (first.joined j.op rest, u) := by
  cases j with
  | or => exact chain_more (k := .keyword .kwOr) rfl run more (by rw [ends]; rfl)
  | and =>
    have chain : (andExpr sub).run s = (first.joined .and rest, u) :=
      chain_more (k := .keyword .kwAnd) rfl run more (by rw [ends]; rfl)
    exact chain_more (show orOperator (.keyword .kwOr) = some .or from rfl) chain (.nothing u)
      (by rw [ends]; rfl)

/-- The operator behind a condition. -/
theorem nextSolid?_text (n : Nat) (rest : List Char) : ∃ t, t.kind = j.op.kind ∧
    (⟨.normal, n, j.text ++ '(' :: rest⟩ : Cursor).nextSolid? =
      some (t, ⟨.normal, n + byteLength j.text - 1, ' ' :: '(' :: rest⟩) := by
  cases j with
  | and =>
    exact ⟨_, rfl, @Cursor.nextSolid?_behindBlank "and".toList _ (' ' :: '(' :: rest)
      (List.cons_ne_nil _ _) rfl (by decide) n⟩
  | or =>
    exact ⟨_, rfl, @Cursor.nextSolid?_behindBlank "or".toList _ (' ' :: '(' :: rest)
      (List.cons_ne_nil _ _) rfl (by decide) n⟩

end Junction

/-! ### The parse of one of them -/

namespace Alone

open RuleDesk.Parser

variable (a : Alone)

theorem text_append (back : List Char) : a.text ++ back = '(' :: (a.body ++ ')' :: back) := by
  rw [text, inParens, List.cons_append, List.append_assoc]
  rfl

/-- The parse of a condition, inside of its parentheses. -/
theorem parsed : ∃ first last, Enclosure (oneRule a.text) first last 21 a.body " \x7d".toList ∧
    (nested 127 .expression).run first = (a.inner, last) ∧ first.panicking = false ∧
      first.depth = 1 := by
  obtain ⟨u, run, clean⟩ := oneRule_parsed a.clean a.meant
  obtain ⟨s, parse, opens, tracked, normal, depth⟩ := run_condition a.text
  have here : (⟨.normal, 19, ' ' :: (a.text ++ " \x7d".toList)⟩ : Cursor) =
      .beforeParens 19 a.body " \x7d".toList := by
    rw [text_append]
    rfl
  rw [here] at opens
  rw [← text, parse] at run
  obtain ⟨result, same⟩ := Prod.mk.inj run
  have whole : (orExpr (nested 127)).run s = (primary (nested 127)).run s :=
    Junction.orExpr_around.unwrap s (ParseState.kindAhead?_of_next opens.next?_beforeParens)
      ⟨a.inner, _, result⟩
  have width := a.byteLength_text
  rw [show 20 + byteLength a.text = 19 + byteLength a.body + 3 by omega, whole] at result
  have clean' : ((primary (nested 127)).run s).2.errors = [] := by
    rw [← whole]
    exact (congrArg (·.errors) same).trans clean
  obtain ⟨v, inner, enclosure⟩ :=
    Enclosure.of_group tracked normal opens (Prod.ext result rfl) clean'
  refine ⟨_, v, enclosure, inner, ?_, ?_⟩
  · rw [ParseState.advanced_panicking, opens.calm]
  · rw [ParseState.advanced_depth, depth]

/-- So many bytes further down it is parsed to the same tree, at any level that is left
the same. If its chains are steady, it gives the levels back. -/
theorem elsewhere (steady : a.Steady) {s : ParseState} {n : Nat} {back : List Char}
    (opens : s.QuietAt (.beforeParens (19 + n) a.body back))
    (depth : s.depth = 1) : ∃ u, (primary (nested 127)).run s = (a.tree.rebase (.of (· + n)), u) ∧
      u.QuietAt ⟨.normal, 20 + n + byteLength a.text, back⟩ ∧ u.depth = 1 := by
  obtain ⟨first, last, enclosure, run, calm, first_depth⟩ := a.parsed
  obtain ⟨u, result, quiet, same⟩ :=
    enclosure.group_elsewhere run calm opens (depth.trans first_depth.symm)
  obtain ⟨spent, last_depth, _, kept⟩ :=
    nested_kept 0 127 .expression first (Nat.zero_le _) (first_depth ▸ by decide)
  rw [run] at last_depth kept
  have width := a.byteLength_text
  have tree : a.tree.rebase (.of (· + n)) =
      .group (a.inner.rebase (.of (· + n))) ⟨19 + n + 1, 19 + n + byteLength a.body + 3⟩ := by
    have start : 20 + n = 19 + n + 1 := by omega
    have stop : 20 + byteLength a.text + n = 19 + n + byteLength a.body + 3 := by omega
    rw [← start, ← stop]
    rfl
  refine ⟨u, tree ▸ result, ?_, ?_⟩
  · rwa [show 20 + n + byteLength a.text = 19 + n + byteLength a.body + 3 by omega]
  · rw [same, last_depth, first_depth, kept steady]

end Alone

namespace Junction

open RuleDesk.Parser

variable (j : Junction)

theorem further_cons (a : Alone) (rest : List Alone) (back : List Char) :
    j.further (a :: rest) ++ back =
      j.text ++ '(' :: (a.body ++ ')' :: (j.further rest ++ back)) := by
  rw [further, List.flatMap_cons, List.append_assoc, List.append_assoc, a.text_append]
  rfl

/-- The conditions behind the first one are operands, with the operator before each of
them. Where one starts, no level is spent by those before it. -/
theorem further_parsed {rest : List Alone} (steady : ∀ a ∈ rest, a.Steady)
    {s : ParseState} {n : Nat}
    (here : s.QuietAt ⟨.normal, 20 + n, j.further rest ++ " \x7d".toList⟩) (depth : s.depth = 1) :
    StopsAt [j.op.kind, .symbol .rbrace] s ∧
      ∃ u place, MoreOperands (j.operand (nested 127)) j.op.kind s
        (j.trees (n + byteLength j.text) rest) u ∧ u.QuietAt ⟨.normal, place, " \x7d".toList⟩ := by
  induction rest generalizing s n with
  | nil =>
    exact ⟨⟨_, .tail _ (.head _), here.kindAhead? (nextSolid?_lastBrace _)⟩, s, _, .nothing s, here⟩
  | cons a rest ih =>
    obtain ⟨first, others⟩ := List.forall_mem_cons.mp steady
    rw [further_cons] at here
    obtain ⟨t, kind, next⟩ :=
      j.nextSolid?_text (20 + n) (a.body ++ ')' :: (j.further rest ++ " \x7d".toList))
    have ahead : s.kindAhead? = some j.op.kind := kind ▸ here.kindAhead? next
    have place : 20 + n + byteLength j.text - 1 = 19 + (n + byteLength j.text) := by omega
    have opens := here.advanced next
    rw [place] at opens
    obtain ⟨u, run, quiet, level⟩ :=
      a.elsewhere first opens ((ParseState.advanced_depth s .normal).trans depth)
    rw [show 20 + (n + byteLength j.text) + byteLength a.text =
      20 + (n + byteLength j.text + byteLength a.text) by omega] at quiet
    obtain ⟨stops, v, last, more, ended⟩ := ih others quiet level
    refine ⟨⟨_, .head _, ahead⟩, v, last, .more ahead ?_ more, ended⟩
    rw [j.operand_around.wrap _ (opens.kindAhead? (Cursor.nextSolid?_beforeParens ..))
      (run ▸ stops), run]

end Junction

/-- Conditions in parentheses that parse without errors, each in a rule of its own, do
so when one operator joins them, to one node of the separate trees, however many they
are. Levels are kept by chains that change their operator only, so there must be
none of these in the conditions. -/
theorem parse_joined (j : Junction) (first : Alone) (rest : List Alone)
    (steady : ∀ a ∈ first :: rest, a.Steady) :
    (parse (oneRule (j.joined first rest))).errors = [] ∧
      (parse (oneRule (j.joined first rest))).rules.map (·.condition) =
        [some (first.tree.joined j.op
          (j.trees (byteLength first.text + byteLength j.text) rest))] := by
  obtain ⟨here, others⟩ := List.forall_mem_cons.mp steady
  obtain ⟨s, parse, opens, _, _, depth⟩ := Parser.run_condition (j.joined first rest)
  have start : (⟨.normal, 19, ' ' :: (j.joined first rest ++ " \x7d".toList)⟩ : Cursor) =
      .beforeParens (19 + 0) first.body (j.further rest ++ " \x7d".toList) := by
    rw [Junction.joined, List.append_assoc, first.text_append]
    rfl
  rw [start] at opens
  obtain ⟨t, run, quiet, level⟩ := first.elsewhere here opens depth
  obtain ⟨stops, u, last, more, ended⟩ := j.further_parsed others quiet level
  have operand : (j.operand (Parser.nested 127)).run s = (first.tree, t) := by
    rw [j.operand_around.wrap s (opens.kindAhead? (Cursor.nextSolid?_beforeParens ..))
      (run ▸ stops), run]
    exact congrArg (·, t) (Expr.rebase_same _)
  rw [j.run_orExpr operand more (ended.kindAhead? (Parser.nextSolid?_lastBrace last))] at parse
  exact Parser.parse_oneRule parse (ended.withDepth _)

set_option maxRecDepth 4000 in
/-- A choice between two names. -/
def choice : Alone where
  body := "x or y".toList
  inner := .binary .or [.ident ⟨"x", ⟨21, 22⟩⟩, .ident ⟨"y", ⟨26, 27⟩⟩] ⟨21, 27⟩
  clean := by decide +kernel
  meant := by rfl

set_option maxRecDepth 4000 in
def negated : Alone where
  body := "not z".toList
  inner := .unary .not (.ident ⟨"z", ⟨25, 26⟩⟩) ⟨21, 26⟩
  clean := by decide +kernel
  meant := by rfl

/-- The second condition is an operand of its own. -/
theorem parse_joined_choice : (∀ a ∈ [choice, negated], a.Steady) ∧
    (parse (oneRule "(x or y) and (not z)".toList)).errors = [] ∧
    (parse (oneRule "(x or y) and (not z)".toList)).rules.map (·.condition) =
      [some (.binary .and [choice.tree,
        .group (.unary .not (.ident ⟨"z", ⟨38, 39⟩⟩) ⟨34, 39⟩) ⟨33, 40⟩] ⟨20, 40⟩)] := by
  have name : ∀ i, (Expr.ident i).Everywhere Expr.Steady := fun i => .node trivial nofun
  have either : choice.inner.Everywhere Expr.Steady := by
    refine .node ?_ (List.forall_mem_cons.mpr ⟨name _, List.forall_mem_singleton.mpr (name _)⟩)
    rintro ⟨other, operands, span, same, _⟩
    cases same
  have not : negated.inner.Everywhere Expr.Steady :=
    .node trivial (List.forall_mem_singleton.mpr (name _))
  have steady : ∀ a ∈ [choice, negated], a.Steady :=
    List.forall_mem_cons.mpr ⟨either, List.forall_mem_singleton.mpr not⟩
  exact ⟨steady, parse_joined .and choice [negated] steady⟩

/-- Additions and subtractions by turns. -/
def alternation (n : Nat) : List Char := '1' :: (List.replicate n "+1-1".toList).flatten

example : (parse (oneRule (inParens (alternation 33)))).errors = [] := by decide +kernel

example : (parse (oneRule (inParens (alternation 33) ++ " or ".toList ++
    inParens (alternation 33)))).errors.map (·.fault) = [.nestingTooDeep] := by
  decide +kernel

end RuleDesk
