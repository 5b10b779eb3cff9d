import RuleDesk.Proofs.Lexing.Trivia
import RuleDesk.Proofs.Parsing.Beside
import RuleDesk.Proofs.Parsing.Conditions
import RuleDesk.Proofs.Parsing.Resume

namespace RuleDesk

/-! ## The tokens that a tree stands for

These are whole ones, and no brace is among them, so all of them are read in normal
mode. -/

/-- Kinds of tokens that a tree may stand for. -/
def Kind.inTree (k : Kind) : Bool := k.isWhole && k != .symbol .lbrace

/-- Leaves of such kinds. What may be a name is kept as one. -/
def Leaf.inTree : Leaf → Bool
  | mark kind | place kind _ => kind.inTree && !kind.isName
  | name kind _ => kind.inTree

theorem Leaf.kind_inTree {l : Leaf} (h : l.inTree) : l.kind.inTree := by
  cases l with
  | mark | place => exact (Bool.and_eq_true_iff.mp h).1
  | name => exact h

def Leaf.AllInTree (leaves : List Leaf) : Prop := ∀ l ∈ leaves, l.inTree

namespace Leaf.AllInTree

variable {a b : List Leaf} {l : Leaf}

theorem nil : AllInTree [] := nofun

theorem cons (h : l.inTree) (rest : AllInTree a) : AllInTree (l :: a) :=
  List.forall_mem_cons.mpr ⟨h, rest⟩

theorem append (h : AllInTree a) (h' : AllInTree b) : AllInTree (a ++ b) :=
  List.forall_mem_append.mpr ⟨h, h'⟩

/-- A token behind some others. -/
theorem concat (h : AllInTree a) (last : l.inTree) : AllInTree (a ++ [l]) :=
  h.append (nil.cons last)

theorem separated {kind : Kind} (between : (mark kind).inTree) {parts : List (List Leaf)}
    (h : ∀ part ∈ parts, AllInTree part) :
    AllInTree (separated kind parts) := by
  induction parts with
  | nil => exact nil
  | cons part parts ih =>
    obtain ⟨first, rest⟩ := List.forall_mem_cons.mp h
    cases parts with
    | nil => exact first
    | cons second parts => exact first.append (cons between (ih rest))

end Leaf.AllInTree

theorem Symbol.text_rparen {text : List Char} (h : (Symbol.rparen, text) ∈ table) :
    text = [')'] := by
  have all : ∀ entry ∈ table, entry.1 = rparen → entry.2 = [')'] := by decide
  exact all _ h rfl

/-- The tokens that the leaves of a tree stand for. -/
theorem Leaf.AllInTree.tokens {leaves : List Leaf} {tokens : List Token}
    (stand : List.Forall₂ Leaf.Stands leaves tokens)
    (h : AllInTree leaves) : ∀ t ∈ tokens, t.kind.inTree := by
  induction stand with
  | nil => exact nofun
  | cons stands _ ih =>
    obtain ⟨first, rest⟩ := List.forall_mem_cons.mp h
    exact List.forall_mem_cons.mpr ⟨stands.kind ▸ Leaf.kind_inTree first, ih rest⟩

/-- A token that is a name is one of the names of the leaves. -/
theorem Leaf.AllInTree.named {leaves : List Leaf} {tokens : List Token}
    (stand : List.Forall₂ Leaf.Stands leaves tokens)
    (h : AllInTree leaves) {t : Token} (member : t ∈ tokens) (name : t.kind.isName) :
    t.named ∈ namesOf leaves := by
  induction stand with
  | nil => cases member
  | @cons l u leaves tokens stands _ ih =>
    obtain ⟨first, rest⟩ := List.forall_mem_cons.mp h
    rcases List.mem_cons.mp member with rfl | later
    · cases l with
      | name kind i =>
        have named : t.named = (kind, i) := Prod.ext stands.1 stands.2
        exact named ▸ List.mem_cons_self ..
      | mark kind | place kind span =>
        have other : (!t.kind.isName) = true := stands.kind ▸ (Bool.and_eq_true_iff.mp first).2
        rw [name] at other
        cases other
    · refine (?_ : List.Sublist _ _).subset (ih rest later)
      cases l with
      | name => exact List.sublist_cons_self ..
      | mark | place => exact List.Sublist.refl _

/-- The names of the leaves are tokens. -/
theorem Leaf.token_of_name {leaves : List Leaf} {tokens : List Token}
    (stand : List.Forall₂ Leaf.Stands leaves tokens)
    {name : Kind × Ident} (named : name ∈ namesOf leaves) : ∃ t ∈ tokens, t.named = name := by
  induction stand with
  | nil => cases named
  | @cons l t leaves tokens stands _ ih =>
    have later : name ∈ namesOf leaves → ∃ u ∈ t :: tokens, u.named = name := fun inside =>
      have ⟨u, known, same⟩ := ih inside
      ⟨u, List.mem_cons_of_mem _ known, same⟩
    cases l with
    | name kind i =>
      rcases List.mem_cons.mp named with rfl | inside
      · exact ⟨t, List.mem_cons_self .., Prod.ext stands.1 stands.2⟩
      · exact later inside
    | mark | place => exact later named

open Leaf (AllInTree)

theorem UnaryOp.mark_inTree (op : UnaryOp) : (Leaf.mark op.kind).inTree := by cases op <;> rfl

theorem BinaryOp.mark_inTree (op : BinaryOp) : (Leaf.mark op.kind).inTree := by cases op <;> rfl

theorem SetItem.leaves_inTree (i : SetItem) : AllInTree i.leaves := by
  unfold leaves
  split
  · exact .cons rfl (.cons rfl .nil)
  · exact .cons rfl .nil

theorem PatternSet.leaves_inTree (set : PatternSet) : AllInTree set.leaves := by
  cases set with
  | them s => exact .cons rfl .nil
  | items set =>
    exact .cons rfl
      (.concat (.separated rfl (List.forall_mem_map.mpr fun i _ => i.leaves_inTree)) rfl)

theorem vars_inTree (vars : List Ident) :
    AllInTree (separated (.symbol .comma) (vars.map fun i => [.name .ident i])) :=
  .separated rfl (List.forall_mem_map.mpr fun _ _ => .cons rfl .nil)

mutual

theorem Expr.leaves_inTree : ∀ e : Expr, AllInTree e.leaves
  | .atom a s => .cons (by cases a <;> rfl) .nil
  | .integer _ _ | .ident _ => .cons rfl .nil
  | .ruleWildcard _ => .cons rfl (.cons rfl .nil)
  | .pattern _ anchor _ => .cons rfl (Expr.leavesOfAnchor_inTree anchor)
  | .count _ range _ => .cons rfl (Expr.leavesOfRange_inTree range)
  | .offset _ index _ | .length _ index _ => .cons rfl (Expr.leavesOfIndex_inTree index)
  | .field object _ _ => (Expr.leaves_inTree object).append (.cons rfl (.cons rfl .nil))
  | .lookup object index _ =>
    (Expr.leaves_inTree object).append (.cons rfl ((Expr.leaves_inTree index).concat rfl))
  | .call callee args _ =>
    (Expr.leaves_inTree callee).append
      (.cons rfl (.concat (.separated rfl (Expr.leavesOfEach_inTree args)) rfl))
  | .group inner _ => .cons rfl ((Expr.leaves_inTree inner).concat rfl)
  | .unary op operand _ => .cons op.mark_inTree (Expr.leaves_inTree operand)
  | .binary op operands _ => .separated op.mark_inTree (Expr.leavesOfEach_inTree operands)
  | .of quantifier items anchor _ =>
    (Expr.leavesOfQuantifier_inTree quantifier).append
      (.cons rfl ((Expr.leavesOfItems_inTree items).append (Expr.leavesOfAnchor_inTree anchor)))
  | .forOf quantifier set body _ =>
    .cons rfl ((Expr.leavesOfQuantifier_inTree quantifier).append
      (.cons rfl (set.leaves_inTree.append (.cons rfl (Expr.leaves_inTree body)))))
  | .forIn quantifier vars iterable body _ =>
    .cons rfl ((Expr.leavesOfQuantifier_inTree quantifier).append ((vars_inTree vars).append
      (.cons rfl ((Expr.leavesOfIterable_inTree iterable).append
        (.cons rfl (Expr.leaves_inTree body))))))
  | .error _ => .nil

theorem Expr.leavesOfEach_inTree : ∀ es : List Expr, ∀ part ∈ Expr.leavesOfEach es, AllInTree part
  | [] => nofun
  | e :: rest => List.forall_mem_cons.mpr ⟨Expr.leaves_inTree e, Expr.leavesOfEach_inTree rest⟩

theorem Expr.leavesOfBounds_inTree : ∀ b : Bounds Expr, AllInTree (Expr.leavesOfBounds b)
  | ⟨_, lower, upper⟩ =>
    .cons rfl ((Expr.leaves_inTree lower).append
      (.cons rfl (.cons rfl ((Expr.leaves_inTree upper).concat rfl))))

theorem Expr.leavesOfRange_inTree :
    ∀ range : Option (Bounds Expr), AllInTree (Expr.leavesOfRange range)
  | none => .nil
  | some bounds => .cons rfl (Expr.leavesOfBounds_inTree bounds)

theorem Expr.leavesOfIndex_inTree : ∀ index : Option Expr, AllInTree (Expr.leavesOfIndex index)
  | none => .nil
  | some e => .cons rfl ((Expr.leaves_inTree e).concat rfl)

theorem Expr.leavesOfAnchor_inTree : ∀ anchor : Anchor Expr, AllInTree (Expr.leavesOfAnchor anchor)
  | .anywhere => .nil
  | .at e => .cons rfl (Expr.leaves_inTree e)
  | .within bounds => .cons rfl (Expr.leavesOfBounds_inTree bounds)

theorem Expr.leavesOfQuantifier_inTree :
    ∀ q : Quantifier Expr, AllInTree (Expr.leavesOfQuantifier q)
  | .none _ | .all _ | .any _ => .cons rfl .nil
  | .percentage e => (Expr.leaves_inTree e).concat rfl
  | .count e => Expr.leaves_inTree e

theorem Expr.leavesOfItems_inTree : ∀ items : OfItems Expr, AllInTree (Expr.leavesOfItems items)
  | .patterns set => set.leaves_inTree
  | .tuple items => .cons rfl (.concat (.separated rfl (Expr.leavesOfEach_inTree items)) rfl)

theorem Expr.leavesOfIterable_inTree : ∀ i : Iterable Expr, AllInTree (Expr.leavesOfIterable i)
  | .range bounds => Expr.leavesOfBounds_inTree bounds
  | .tuple items => .cons rfl (.concat (.separated rfl (Expr.leavesOfEach_inTree items)) rfl)
  | .value e => Expr.leaves_inTree e

end

/-! ## What stands in parentheses

Between two parentheses a text is read the same wherever it stands. -/

/-- Tokens of a tree behind others do not leave the normal mode. -/
theorem surelyNormal_append {tokens earlier : List Token} (inTree : ∀ t ∈ tokens, t.kind.inTree)
    (normal : SurelyNormal earlier) :
    SurelyNormal (tokens ++ earlier) := by
  induction tokens with
  | nil => exact normal
  | cons t tokens ih =>
    obtain ⟨first, rest⟩ := List.forall_mem_cons.mp inTree
    refine ⟨fun brace => ?_, .inr (ih rest)⟩
    rw [brace] at first
    cases first

namespace Cursor

/-- A token at the front of a text in normal mode, before other text. -/
theorem nextSolid?_read {word : List Char} {k : Kind} (rest : List Char) (nonempty : word ≠ [])
    (read : Lexeme.normal (word ++ rest) = ⟨k, word.length⟩) (meant : ¬ k.isTrivia) (offset : Nat) :
    (⟨.normal, offset, word ++ rest⟩ : Cursor).nextSolid? =
    some (⟨k, offset, word⟩, ⟨.normal, offset + byteLength word, rest⟩) := by
  have reading : Mode.normal.read (word ++ rest) = (.normal, ⟨k, word.length⟩) := by
    rw [Mode.read, read]
  have first := next?_of_read (c := ⟨.normal, offset, word ++ rest⟩)
    (List.append_ne_nil_of_left_ne_nil nonempty rest) reading
  rw [List.take_left, List.drop_left] at first
  exact nextSolid?_of_solid first meant

theorem nextSolid?_lparen (offset : Nat) (rest : List Char) :
    (⟨.normal, offset, '(' :: rest⟩ : Cursor).nextSolid? =
    some (⟨.symbol .lparen, offset, ['(']⟩, ⟨.normal, offset + 1, rest⟩) :=
  @nextSolid?_read ['('] _ rest (List.cons_ne_nil _ _) rfl (by decide) offset

theorem nextSolid?_rparen (offset : Nat) (rest : List Char) :
    (⟨.normal, offset, ')' :: rest⟩ : Cursor).nextSolid? =
    some (⟨.symbol .rparen, offset, [')']⟩, ⟨.normal, offset + 1, rest⟩) :=
  @nextSolid?_read [')'] _ rest (List.cons_ne_nil _ _) rfl (by decide) offset

/-- In normal mode a symbol is spelled as the table of symbols says. -/
theorem nextSolid?_symbol {c after : Cursor} {t : Token} {x : Symbol}
    (h : c.nextSolid? = some (t, after)) (normal : c.mode = .normal)
    (kind : t.kind = .symbol x) : (x, t.text) ∈ Symbol.table := by
  obtain ⟨gap, mode, _, _, passes, _, next⟩ := gap_of_nextSolid? h
  obtain rfl := (passes.trivia normal).2
  rw [next?_of_read (rest_ne_nil next) (show Mode.normal.read _ = (.normal, Lexeme.normal _)
    from rfl)] at next
  have same := (Prod.mk.inj (Option.some.inj next)).1
  rw [← same] at kind ⊢
  exact Lexeme.text_of_symbol kind

variable {offset : Nat} {left back : List Char} {t : Token} {after : Cursor}

/-- The next token before a closing parenthesis does not depend on what follows that. -/
theorem nextSolid?_before_rparen
    (h : (⟨.normal, offset, left ++ ')' :: back⟩ : Cursor).nextSolid? = some (t, after))
    (whole : t.kind.isWhole) (inside : t.stop ≤ offset + byteLength left) (n : Nat)
    (back' : List Char) :
    ∃ more, t.stop + byteLength more = offset + byteLength left ∧
      after = ⟨.normal, t.stop, more ++ ')' :: back⟩ ∧
      (⟨.normal, offset + n, left ++ ')' :: back'⟩ : Cursor).nextSolid? =
        some (t.shifted n, ⟨.normal, t.stop + n, more ++ ')' :: back'⟩) := by
  obtain ⟨gap, mode, split, start, passes, _⟩ := gap_of_nextSolid? h
  have split : left ++ ')' :: back = gap ++ (t.text ++ after.rest) := split
  have start : t.start = offset + byteLength gap := start
  have stop : t.stop = offset + byteLength (gap ++ t.text) := by
    rw [Token.stop, start, byteLength_append, Nat.add_assoc]
  obtain ⟨more, rfl, last⟩ :=
    exists_append_of_byteLength_le (split.trans (List.append_assoc ..).symm) (by omega)
  have normal := nextSolid?_stays_normal h rfl
  have place : after.offset = t.stop := (nextSolid?_place h).2.1
  refine ⟨more, by rw [stop, byteLength_append (gap ++ t.text), Nat.add_assoc], ?_, ?_⟩
  · cases after
    dsimp only at normal place last
    rw [normal, place, last]
  · have text : t.text ++ after.rest = (t.text ++ more) ++ ')' :: back := by
      rw [last, List.append_assoc]
    have found := nextSolid?_relaid gap h whole text (List.append_assoc t.text more (')' :: back'))
      (List.prefix_append _ _) (.paren _) (fun other mode' same passes' => ?_) (offset + n)
    · have moved : offset + n + byteLength gap = t.start + n := by omega
      have text : gap ++ t.text ++ more ++ ')' :: back' =
          gap ++ (t.text ++ (more ++ ')' :: back')) := by simp only [List.append_assoc]
      rw [text, found, normal, moved, Nat.add_right_comm]
      rfl
    · have same : gap ++ (t.text ++ after.rest) = other ++ (t.text ++ after.rest) :=
        split.symm.trans same
      obtain rfl := List.append_cancel_right same
      obtain ⟨trivia, rfl⟩ := passes'.trivia rfl
      have free :=
        trivia.gap (.nothing .normal : Gap (t.text ++ (more ++ ')' :: back')) .normal [] .normal)
      rwa [List.append_nil] at free

/-- So is the closing parenthesis itself. -/
theorem nextSolid?_at_rparen
    (h : (⟨.normal, offset, left ++ ')' :: back⟩ : Cursor).nextSolid? = some (t, after))
    (start : t.start = offset + byteLength left) : t = ⟨.symbol .rparen, t.start, [')']⟩ ∧
      after = ⟨.normal, t.start + 1, back⟩ ∧
      ∀ n back', (⟨.normal, offset + n, left ++ ')' :: back'⟩ : Cursor).nextSolid? =
        some (t.shifted n, ⟨.normal, t.start + n + 1, back'⟩) := by
  obtain ⟨gap, mode, split, place, passes, _⟩ := gap_of_nextSolid? h
  have split : left ++ ')' :: back = gap ++ (t.text ++ after.rest) := split
  have place : t.start = offset + byteLength gap := place
  obtain ⟨more, rfl, _⟩ := exists_append_of_byteLength_le split (by omega)
  rw [byteLength_append] at start
  obtain rfl : more = [] :=
    List.eq_nil_of_length_eq_zero (by have := length_le_byteLength more; omega)
  have trivia : Trivia gap := (passes.trivia rfl).1
  rw [List.append_nil, nextSolid?_trivia trivia, nextSolid?_rparen, ← place] at h
  obtain ⟨same, behind⟩ := Prod.mk.inj (Option.some.inj h)
  refine ⟨same.symm, behind.symm, fun n back' => ?_⟩
  rw [List.append_nil, nextSolid?_trivia trivia, nextSolid?_rparen, ← same, place]
  simp only [Token.shifted, Nat.add_right_comm]

end Cursor

/-- A text with something in parentheses that stands for a tree: the state behind the
opening parenthesis and the one before the closing parenthesis. -/
structure Enclosure (text : List Char) (first last : ParseState) (offset : Nat)
    (body back : List Char) : Prop where
  tracked : first.Tracked text
  normal : SurelyNormal first.read
  here : first.input.here = ⟨.normal, offset, body ++ ')' :: back⟩
  tracked' : last.Tracked text
  clean : last.errors = []
  read : ∃ tokens : List Token, last.read = tokens ++ first.read ∧ ∀ t ∈ tokens, t.kind.inTree
  closing : ∃ t after, last.input.here.nextSolid? = some (t, after) ∧
      t.start = offset + byteLength body

namespace Enclosure

variable {text : List Char} {first last : ParseState} {offset : Nat} {body back : List Char}

/-- Cursors at the same place before the closing parenthesis, in two texts. -/
inductive Near (offset : Nat) (body back back' : List Char) (n : Nat) : Cursor → Cursor → Prop
  | before (mode : Mode) (place : Nat) (left : List Char) (behind : offset ≤ place)
    (rest : place + byteLength left = offset + byteLength body) :
    Near offset body back back' n ⟨mode, place, left ++ ')' :: back⟩
        ⟨mode, place + n, left ++ ')' :: back'⟩

theorem Near.enter {back' : List Char} {n : Nat} {c c' : Cursor}
    (h : Near offset body back back' n c c') (mode : Mode) :
    Near offset body back back' n (c.enter mode) (c'.enter mode) := by
  cases h with
  | before old place left behind rest =>
    obtain ⟨new, entered⟩ := Cursor.enter_uniform old mode
    rw [entered, entered]
    exact .before new place left behind rest

/-- Tokens behind the opening parenthesis are of the tree, and so are those between it and them. -/
theorem inside (h : Enclosure text first last offset body back) {later earlier : List Token}
    {t : Token}
    (read : last.read = later ++ t :: earlier) (start : offset ≤ t.start) :
    t.kind.inTree ∧ SurelyNormal earlier := by
  obtain ⟨tokens, all, inTree⟩ := h.read
  have outside : t ∉ first.read := fun member => by
    have before := h.tracked.read.stop_le t member
    rw [← h.tracked.behind.stop, h.here] at before
    have wide := List.length_pos_iff.mpr (h.tracked.read.nonempty t member)
    have bytes := length_le_byteLength t.text
    unfold Token.stop at before
    dsimp only at before
    omega
  rcases List.append_eq_append_iff.mp (all.symm.trans read)
    with ⟨more, _, rest⟩ | ⟨between, split, rest⟩
  · exact (outside (rest ▸ List.mem_append_right _ (List.mem_cons_self ..))).elim
  · cases between with
    | nil =>
      refine (outside ?_).elim
      rw [show first.read = t :: earlier from rest.symm]
      exact List.mem_cons_self ..
    | cons u between =>
      cases rest
      have some := List.forall_mem_append.mp (split ▸ inTree)
      obtain ⟨here, others⟩ := List.forall_mem_cons.mp some.2
      exact ⟨here, surelyNormal_append others h.normal⟩

theorem stop_le (h : Enclosure text first last offset body back) :
    last.input.here.offset ≤ offset + byteLength body := by
  obtain ⟨t, after, next, start⟩ := h.closing
  exact start ▸ (Cursor.nextSolid?_place next).1

/-- The closing parenthesis in both texts. -/
theorem closes (h : Enclosure text first last offset body back) {back' : List Char} {n : Nat}
    {c' : Cursor}
    (near : Near offset body back back' n last.input.here c') :
      ∃ t after, last.input.here.nextSolid? = some (t, after) ∧
      t.kind = .symbol .rparen ∧ t.start = offset + byteLength body ∧
      c'.nextSolid? = some (t.shifted n, ⟨.normal, t.start + n + 1, back'⟩) := by
  obtain ⟨t, after, next, start⟩ := h.closing
  obtain ⟨tokens, all, inTree⟩ := h.read
  have normal := h.tracked'.behind.normal (all ▸ surelyNormal_append inTree h.normal)
  generalize last.input.here = c at next near normal
  cases near with
  | before mode place left least rest =>
    obtain rfl : mode = .normal := normal
    obtain ⟨paren, _, elsewhere⟩ := Cursor.nextSolid?_at_rparen next (start.trans rest.symm)
    exact ⟨t, after, next, by rw [paren], start, elsewhere n back'⟩

/-- The text stands beside any other one that has the same in parentheses further down. -/
def beside (h : Enclosure text first last offset body back) (back' : List Char) (n : Nat) :
    Beside text last where
  left := .of (· + n)
  right := .same
  ends := View.shifted_ends
  keeps := View.same_keepsNames
  unnamed := View.shifted_unnamed n
  clean := h.clean
  tracked := h.tracked'
  compared _ := True
  plain _ := trivial
  near _ := Near offset body back back' n
  here near := by
    cases near
    rfl
  next {later earlier t c c' after} read near behind next := by
    cases near with
    | before mode place left least rest =>
      have place_le := (Cursor.nextSolid?_place next).1
      obtain ⟨inTree, normal⟩ := h.inside read (Nat.le_trans least place_le)
      obtain rfl : mode = .normal := behind.normal normal
      have inside : t.stop ≤ place + byteLength left := by
        have le := h.tracked'.read.stop_le t
          (read ▸ List.mem_append_right _ (List.mem_cons_self ..))
        rw [← h.tracked'.behind.stop] at le
        exact rest ▸ Nat.le_trans le h.stop_le
      have whole : t.kind.isWhole := (Bool.and_eq_true_iff.mp inTree).1
      obtain ⟨more, left', rfl, found⟩ := Cursor.nextSolid?_before_rparen next whole inside n back'
      refine ⟨_, _, found, t.shifted_alike n, fun _ _ _ => ?_, fun _ mode _ => Near.enter ?_ mode⟩
      · exact (Nat.add_right_cancel_iff).symm
      · exact .before .normal t.stop more
          (Nat.le_trans (Nat.le_trans least place_le) (Nat.le_add_right _ _)) (left'.trans rest)
  ended near :=
    have ⟨t, _, next, closes, _, elsewhere⟩ := h.closes near
    .token next elsewhere (t.shifted_alike n) (closes ▸ rfl)

open RuleDesk.Parser in
/-- The levels of an expression in parentheses do the same in both texts. -/
theorem nested_elsewhere (h : Enclosure text first last offset body back) {budget : Nat}
    {level : Level} {e : Expr}
    (run : (nested budget level).run first = (e, last)) (calm : first.panicking = false)
    {back' : List Char} {n : Nat} {s : ParseState}
    (here : s.input.here = ⟨.normal, offset + n, body ++ ')' :: back'⟩)
    (calm' : s.panicking = false) (quiet : s.errors = [])
    (depth : first.depth = s.depth) :
      ∃ u, (nested budget level).run s = (e.rebase (.of (· + n)), u) ∧
      (h.beside back' n).Together last u ∧ last.depth = u.depth := by
  let L := (h.beside back' n).lockstep.withDepth
  have onWay : first.Before last := by
    have later := (nested budget level).forward first
    rwa [run] at later
  have near : Near offset body back back' n first.input.here s.input.here := by
    rw [h.here, here]
    exact .before .normal offset body (Nat.le_refl _) rfl
  have start : (h.beside back' n).Together first s := ⟨onWay, h.tracked, near, calm, calm', quiet⟩
  have follows := Lockstep.nested_always (L := L) (fun related => related.2) budget level first s
    ⟨start, depth⟩ trivial trivial
  rw [Lockstep.Follows, run] at follows
  obtain ⟨same, together, depth⟩ := follows.resolve_left fun parted => parted (.refl last)
  refine ⟨((nested budget level).run s).2, Prod.ext ?_ rfl, together, depth⟩
  exact (same.trans (Expr.rebase_same _)).symm

end Enclosure

/-- A parse that is at a cursor and has met no error. -/
structure ParseState.QuietAt (s : ParseState) (c : Cursor) : Prop where
  here : s.input.here = c
  calm : s.panicking = false
  quiet : s.errors = []

/-- A cursor before a blank and something in parentheses. -/
def Cursor.beforeParens (offset : Nat) (body back : List Char) : Cursor :=
  ⟨.normal, offset, ' ' :: '(' :: (body ++ ')' :: back)⟩

namespace ParseState.QuietAt

variable {s : ParseState} {c : Cursor} {offset : Nat} {body back : List Char}

theorem ahead (h : s.QuietAt c) : s.input.ahead = c.nextSolid? := h.here ▸ s.input.ahead_eq

theorem advanced (h : s.QuietAt c) {t : Token} {after : Cursor}
    (next : c.nextSolid? = some (t, after)) :
    (s.advanced .normal).QuietAt after where
  here := by
    rw [ParseState.advanced, h.ahead, next]
    rfl
  calm := by rw [ParseState.advanced_panicking, h.calm]
  quiet := by rw [ParseState.advanced_errors, h.quiet]

theorem kindAhead? (h : s.QuietAt c) {t : Token} {after : Cursor}
    (next : c.nextSolid? = some (t, after)) :
    s.kindAhead? = some t.kind := by
  rw [ParseState.kindAhead?, ParseState.next?, h.ahead, next]
  rfl

theorem withDepth (h : s.QuietAt c) (n : Nat) : ({ s with depth := n } : ParseState).QuietAt c :=
  ⟨h.here, h.calm, h.quiet⟩

end ParseState.QuietAt

theorem Cursor.nextSolid?_beforeParens (offset : Nat) (body back : List Char) :
    (beforeParens offset body back).nextSolid? =
    some (⟨.symbol .lparen, offset + 1, ['(']⟩, ⟨.normal, offset + 2, body ++ ')' :: back⟩) := by
  rw [beforeParens, nextSolid?_white .normal offset rfl]
  exact nextSolid?_lparen (offset + 1) (body ++ ')' :: back)

namespace Parser

/-- A group, at its opening parenthesis. -/
theorem run_primary_group {sub : Level → Parser Expr} {s : ParseState} {t : Token}
    (next : s.next? = some t) (kind : t.kind = .symbol .lparen) : (primary sub).run s =
      let inner := (sub .expression).run (s.advanced .normal)
      let close := ((expect (.symbol .rparen)).run inner.2).2
      (.group inner.1 (t.span.through (.point close.input.here.offset)), close) := by
  rw [primary, run_bind, run_peek, next]
  dsimp only
  rw [kind]
  simp only [atomOf?, run_bind, run_advance, run_pointHere, run_pure]

end Parser

open RuleDesk.Parser

variable {text : List Char} {s u : ParseState} {offset budget : Nat} {body back : List Char}
    {e : Expr}

theorem ParseState.QuietAt.next?_beforeParens (opens : s.QuietAt (.beforeParens offset body back)) :
    s.next? = some ⟨.symbol .lparen, offset + 1, ['(']⟩ := by
  rw [ParseState.next?, opens.ahead, Cursor.nextSolid?_beforeParens]
  rfl

/-- A group without errors encloses what was parsed inside of it. -/
theorem Enclosure.of_group (tracked : s.Tracked text) (normal : SurelyNormal s.read)
    (opens : s.QuietAt (.beforeParens offset body back))
    (run : (primary (nested budget)).run s =
    (.group e ⟨offset + 1, offset + byteLength body + 3⟩, u)) (clean : u.errors = []) :
    ∃ v, (nested budget .expression).run (s.advanced .normal) = (e, v) ∧
      Enclosure text (s.advanced .normal) v (offset + 2) body back := by
  have next := opens.next?_beforeParens
  have inside := opens.advanced (Cursor.nextSolid?_beforeParens offset body back)
  have tracked' : (s.advanced .normal).Tracked text := tracked.advanced fun braced => by
    cases braced
  have read := ParseState.advanced_read next .normal
  have normal' : SurelyNormal (s.advanced .normal).read := by
    rw [read]
    exact ⟨fun brace => (by cases brace), .inr normal⟩
  rw [run_primary_group next rfl] at run
  generalize s.advanced .normal = first at inside tracked' normal' run ⊢
  cases parsed : (nested budget .expression).run first with
  | mk e' v =>
  rw [parsed] at run
  obtain ⟨group, rfl⟩ := Prod.mk.inj run
  injection group with same place
  obtain rfl : e' = e := same
  refine ⟨v, rfl, ?_⟩
  have clean' : v.errors = [] := ((expect (.symbol .rparen)).forward v).no_errors clean
  -- the tokens inside are those of a tree
  have reads := @nested_reads text [] (· = .normal) rfl budget .expression first
    ⟨tracked'.behind.place, fun panicking => (by rw [inside.calm] at panicking; cases panicking),
      inside.quiet ▸ .nil⟩ trivial
    (by rw [parsed]; exact List.prefix_nil.mpr clean')
  have follows := Lockstep.nested_always (L := tracking text)
    (fun related => congrArg (·.depth) related.1) budget .expression first first
    ⟨rfl, tracked'⟩ trivial trivial
  rw [parsed] at reads
  rw [Lockstep.Follows, parsed] at follows
  obtain ⟨of, tokens, _, read', built⟩ := reads
  obtain ⟨_, _, tracked''⟩ := follows.resolve_left id
  have inTree : ∀ t ∈ tokens.reverse, t.kind.inTree := fun t member =>
    Leaf.AllInTree.tokens (built.1.accounts.stand .nil) e'.leaves_inTree t
      (List.mem_reverse.mp member)
  -- without its parenthesis the group would have been reported
  have calm : v.panicking = false := by
    cases panicking : v.panicking with
    | false => rfl
    | true => exact (of.honest panicking (clean' ▸ .nil)).elim
  have closes : v.kindAhead? = some (.symbol .rparen) := by
    by_contra missing
    rw [Lockstep.expect_missing missing, run_bind, run_unexpected, calm] at clean
    exact v.reported_ne_nil _ clean
  obtain ⟨t, next', kind⟩ := ParseState.kindAhead?_eq_some closes
  obtain ⟨after, ahead⟩ := ParseState.next?_eq_some next'
  have solid : v.input.here.nextSolid? = some (t, after) := v.input.ahead_eq ▸ ahead
  have normal'' := tracked''.behind.normal (read' ▸ surelyNormal_append inTree normal')
  have text : t.text = [')'] := Symbol.text_rparen (Cursor.nextSolid?_symbol solid normal'' kind)
  refine ⟨tracked', normal', inside.here, tracked'', clean', ⟨tokens.reverse, read', inTree⟩, t,
    after, solid, ?_⟩
  rw [run_expect closes, ParseState.advanced, ahead] at place
  have stop : max after.offset (offset + 2) = offset + byteLength body + 3 :=
    congrArg Span.stop place
  rw [(Input.ahead_place ahead).2.1, Token.stop, text] at stop
  have width : byteLength [')'] = 1 := rfl
  omega

/-- The same group before other text, which stands so many bytes further down. -/
theorem Enclosure.group_elsewhere {first last : ParseState}
    (h : Enclosure text first last (offset + 2) body back)
    (run : (nested budget .expression).run first = (e, last)) (calm : first.panicking = false)
    {back' : List Char} {n : Nat}
    (opens : s.QuietAt (.beforeParens (offset + n) body back')) (depth : s.depth = first.depth) :
    ∃ u, (primary (nested budget)).run s =
        (.group (e.rebase (.of (· + n))) ⟨offset + n + 1, offset + n + byteLength body + 3⟩, u) ∧
      u.QuietAt ⟨.normal, offset + n + byteLength body + 3, back'⟩ ∧ u.depth = last.depth := by
  have inside := opens.advanced (Cursor.nextSolid?_beforeParens (offset + n) body back')
  have here : (s.advanced .normal).input.here =
      ⟨.normal, offset + 2 + n, body ++ ')' :: back'⟩ := by
    rw [inside.here, Nat.add_right_comm]
  obtain ⟨v, run', together, depth'⟩ := h.nested_elsewhere run calm here inside.calm inside.quiet
    (depth.symm.trans (ParseState.advanced_depth s .normal).symm)
  obtain ⟨t, _, _, kind, start, next⟩ := h.closes together.near
  have quiet : v.QuietAt v.input.here := ⟨rfl, together.calm', together.quiet'⟩
  have closed := quiet.advanced next
  have closes : v.kindAhead? = some (.symbol .rparen) :=
    (quiet.kindAhead? next).trans (congrArg some kind)
  have place : t.start + n + 1 = offset + n + byteLength body + 3 := by omega
  rw [place] at closed
  refine ⟨v.advanced .normal, ?_, closed, (ParseState.advanced_depth v .normal).trans depth'.symm⟩
  rw [run_primary_group opens.next?_beforeParens rfl, run']
  dsimp only
  rw [run_expect closes, closed.here]
  have stop : max (offset + n + byteLength body + 3) (offset + n + 2) =
      offset + n + byteLength body + 3 := by omega
  exact congrArg (fun stop => (Expr.group _ ⟨offset + n + 1, stop⟩, v.advanced .normal)) stop

end RuleDesk
