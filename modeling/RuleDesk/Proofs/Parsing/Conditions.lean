import RuleDesk.Proofs.Parsing.Leaves
import RuleDesk.Proofs.Parsing.Expressions

namespace RuleDesk

/-- Some leaves account for the tokens that were read. The expressions among
what they stand for are grouped as the operators ask, and the integers in them
have the values of their tokens. -/
structure Built (text : List Char) (final : List SyntaxError) (leaves : List Leaf)
    (parts : List Expr) (tokens : List Token) : Prop where
  accounts : Accounts (Grammatical final) leaves tokens
  grouped : ∀ e ∈ parts, e.Everywhere Expr.Grouped
  valued : ∀ e ∈ parts, ∀ v span, e.Contains (.integer v span) → ∃ t ∈ tokens, t.span = span ∧
      t.Evaluates text final v

namespace Built

variable {text : List Char} {final : List SyntaxError} {leaves more : List Leaf}
    {parts others : List Expr} {tokens further : List Token}

theorem append (h : Built text final leaves parts tokens)
    (h' : Built text final more others further) :
    Built text final (leaves ++ more) (parts ++ others) (tokens ++ further) := by
  refine ⟨h.accounts.append h'.accounts, fun e member =>
    (List.mem_append.mp member).elim (h.grouped e) (h'.grouped e), fun e member v span inside => ?_⟩
  rcases List.mem_append.mp member with left | right
  · obtain ⟨t, among, known⟩ := h.valued e left v span inside
    exact ⟨t, List.mem_append_left _ among, known⟩
  · obtain ⟨t, among, known⟩ := h'.valued e right v span inside
    exact ⟨t, List.mem_append_right _ among, known⟩

theorem cast {leaves' : List Leaf} {parts' : List Expr} {tokens' : List Token}
    (h : Built text final leaves parts tokens)
    (same : leaves = leaves') (same' : parts = parts') (same'' : tokens = tokens') :
    Built text final leaves' parts' tokens' := same ▸ same' ▸ same'' ▸ h

theorem nil : Built text final [] [] [] := ⟨.nil, nofun, nofun⟩

theorem leaf {l : Leaf} {t : Token} (stands : l.Stands t) : Built text final [l] [] [t] :=
  ⟨.one stands, nofun, nofun⟩

theorem missing (dirty : ¬ Grammatical final) (k : Kind) : Built text final [.mark k] [] [] :=
  ⟨.missing dirty rfl .nil, nofun, nofun⟩

/-- The expression that some leaves and parts make up. -/
theorem node {e : Expr} (h : Built text final leaves parts tokens) (here : e.Grouped)
    (same : leaves = e.leaves)
    (same' : parts = e.parts) (plain : ∀ v span, e ≠ .integer v span) : Built text final e.leaves
    [e] tokens := by
  refine ⟨same ▸ h.accounts, List.forall_mem_singleton.mpr (.node here (same' ▸ h.grouped)),
    List.forall_mem_singleton.mpr fun v span inside => ?_⟩
  cases inside with
  | whole => exact absurd rfl (plain v span)
  | part member inside => exact h.valued _ (same' ▸ member) v span inside

/-- What is known of an expression is known of what is in it. -/
theorem inside {e : Expr} (h : Built text final leaves [e] tokens) :
    Built text final leaves e.parts tokens :=
  ⟨h.accounts, (h.grouped e (List.mem_singleton_self e)).inv.2,
    fun _ member v span inside =>
      h.valued e (List.mem_singleton_self e) v span (.part member inside)⟩

/-- An integer has the value of its token. -/
theorem integer {t : Token} {n : Nat} (h : t.Evaluates text final n) :
    Built text final (Expr.integer n t.span).leaves [.integer n t.span] [t] := by
  refine ⟨.one ⟨h.kind, rfl⟩, List.forall_mem_singleton.mpr (.node trivial nofun),
    List.forall_mem_singleton.mpr fun v span inside => ?_⟩
  cases inside with
  | whole => exact ⟨t, List.mem_singleton_self t, rfl, h⟩
  | part member => cases member

/-- In a text that is not grammatical an error may stand for anything. -/
theorem error (dirty : ¬ Grammatical final) (span : Span) :
    Built text final (Expr.error span).leaves [.error span] tokens :=
  node (show Built text final [] [] tokens from ⟨.none dirty tokens, nofun, nofun⟩) trivial
    rfl rfl nofun

end Built

/-- An expression that was read from some tokens and that binds at least as
tightly as a level. -/
def Expr.ReadAt (text : List Char) (final : List SyntaxError) (level : Nat) (e : Expr)
    (tokens : List Token) : Prop :=
  Built text final e.leaves [e] tokens ∧ level ≤ e.level

theorem Expr.ReadAt.loosen {text : List Char} {final : List SyntaxError} {level lower : Nat}
    {e : Expr} {tokens : List Token}
    (h : e.ReadAt text final level tokens) (looser : lower ≤ level) :
    e.ReadAt text final lower tokens :=
  ⟨h.1, Nat.le_trans looser h.2⟩

theorem BinaryOp.level_le (op : BinaryOp) : op.level ≤ Expr.operandLevel := by cases op <;> decide

/-- The loosest level of what nests at a place. -/
def Level.floor : Level → Nat
  | .expression => 0
  | .negation => 2
  | .bitwise => 4
  | .sign => 10

namespace Parser

namespace Reads

variable {text : List Char} {final : List SyntaxError} {M : Mode → Prop} {pre : ParseState → Prop}
  {β : Type} {post : β → List Token → Prop}

/-- Something that only looks, when it does not matter what is seen. -/
theorem glance {p : Parser α} {f : α → Parser β} {g : ParseState → α}
    (run : ∀ s, p.run s = (g s, s))
    (rest : ∀ a, Reads text final M pre (f a) post) : Reads text final M pre (p >>= f) post :=
  look run fun a => (rest a).restrict fun _ start => start.1

theorem pointHere {f : Span → Parser β} (rest : ∀ a, Reads text final M pre (f a) post) :
    Reads text final M pre (Parser.pointHere >>= f) post := glance run_pointHere rest

theorem spanAhead {f : Span → Parser β} (rest : ∀ a, Reads text final M pre (f a) post) :
    Reads text final M pre (Parser.spanAhead >>= f) post := glance run_spanAhead rest

section Normal

variable (normal : M .normal)

include normal

theorem skipToSyncPoint : Reads text final M pre Parser.skipToSyncPoint fun _ _ => True := by
  refine iterate (fun _ _ => True) (fun _ _ => True) skipStep_progress ?_ [] trivial
  refine fun _ _ _ => look run_atSyncPoint fun sync => ?_
  split
  · exact .pure trivial
  · rename_i inside
    refine .restrict (readAny normal fun _ => .pure trivial) fun s start => ?_
    exact (ahead_or_token s).resolve_left fun none => inside (start.2 ▸ none ▸ rfl)

theorem tooDeep : Reads text final M pre Parser.tooDeep fun e _ => ¬ Grammatical final ∧
    ∃ span, e = .error span := by
  refine spanAhead fun start => (skipToSyncPoint normal).then fun _ _ _ =>
    glance run_lastStop fun stop => ?_
  exact .quietly (g := (·.panicked ⟨.nestingTooDeep, ⟨start.start, max stop start.start⟩⟩))
    (fun _ => rfl) (fun _ => rfl) (fun _ => rfl) (fun _ of => of.panicked rfl)
    fun _ _ quiet => ⟨fun yes => (yes.before quiet).not_grave rfl, _, rfl⟩

/-- For what does not depend on the token that is expected. -/
theorem demand {p : Parser β} {k : Kind}
    (rest : ∀ tokens, Built text final [.mark k] [] tokens →
      Reads text final M anywhere p fun b more => post b (tokens ++ more)) :
    Reads text final M pre (Parser.expect k >>= fun _ => p) post :=
  .expect normal (fun dirty => rest [] (.missing dirty k))
    fun t kind => rest [t] (.leaf kind)

end Normal

end Reads

section Grammar

open Reads (around)

variable {text : List Char} {final : List SyntaxError} {M : Mode → Prop} {pre : ParseState → Prop}

/-! ### Chains of operators -/

/-- Operators of a level are looked for, and found where their tokens are. -/
def Finds (level : Nat) (operator : Parser (Option BinaryOp)) : Prop :=
  ∃ g : ParseState → Option BinaryOp, (∀ s, operator.run s = (g s, s)) ∧
    ∀ s op, g s = some op → op.level = level ∧ s.kindAhead? = some op.kind

/-- What a chain of a level has come to: a single operand that is tighter, or a
node of the chain. -/
inductive Chained (level : Nat) : Expr × Bool → Prop
  | operand {e : Expr} (tighter : level < e.level) : Chained level (e, false)
  | node {op : BinaryOp} {first second : Expr} {rest : List Expr} {span : Span}
      (same : op.level = level) :
      Chained level (.binary op (first :: second :: rest) span, true)

theorem Chained.level_le {level : Nat} {c : Expr × Bool} (h : Chained level c) :
    level ≤ c.1.level := by
  cases h with
  | operand tighter => exact Nat.le_of_lt tighter
  | node same => exact Nat.le_of_eq same.symm

def ChainRead (text : List Char) (final : List SyntaxError) (level : Nat) (c : Expr × Bool)
    (tokens : List Token) : Prop :=
  Built text final c.1.leaves [c.1] tokens ∧ Chained level c

/-- An operator and its second operand make a node of what was there before. -/
theorem pair_read {op : BinaryOp} {lhs rhs : Expr} {before after : List Token} {t : Token}
    (left : Built text final lhs.leaves [lhs] before) (kind : t.kind = op.kind)
    (right : rhs.ReadAt text final (op.level + 1) after)
    (grouped : op.level < lhs.level ∨ Expr.EndsChain op lhs) :
    ChainRead text final op.level (.pair op lhs rhs, true) (before ++ ([t] ++ after)) := by
  refine ⟨(left.append ((Built.leaf (l := .mark op.kind) kind).append right.1)).node ?_ ?_ rfl
    nofun, .node rfl⟩
  · refine ⟨lhs, [rhs], rfl, List.cons_ne_nil _ _, grouped, fun e member => ?_⟩
    obtain rfl := List.mem_singleton.mp member
    exact right.2
  · rw [Expr.pair, Expr.leaves, Expr.leavesOfEach, Expr.leavesOfEach, Expr.leavesOfEach]
    rfl

/-- One operand more of a node keeps it grouped. -/
theorem longer_read {op : BinaryOp} {first second rhs : Expr} {rest : List Expr} {span : Span}
    (span' : Span) {before after : List Token} {t : Token}
    (left : Built text final (Expr.binary op (first :: second :: rest) span).leaves
    [.binary op (first :: second :: rest) span] before)
    (kind : t.kind = op.kind) (right : rhs.ReadAt text final (op.level + 1) after) :
    ChainRead text final op.level (.binary op (first :: second :: (rest ++ [rhs])) span', true)
      (before ++ ([t] ++ after)) := by
  obtain ⟨here, _⟩ := (left.grouped _ (List.mem_singleton_self _)).inv
  have all : Built text final (Expr.binary op (first :: second :: rest) span).leaves
      (first :: second :: rest) before := left.inside
  refine ⟨(all.append ((Built.leaf (l := .mark op.kind) kind).append right.1)).node ?_ ?_ rfl nofun,
    .node rfl⟩
  · obtain ⟨_, _, same, _, start, tighter⟩ := here
    cases same
    refine ⟨first, _, rfl, List.cons_ne_nil _ _, start, fun e member => ?_⟩
    rcases List.mem_cons.mp member with rfl | member
    · exact tighter _ (List.mem_cons_self ..)
    rcases List.mem_append.mp member with member | last
    · exact tighter _ (List.mem_cons_of_mem _ member)
    · obtain rfl := List.mem_singleton.mp last
      exact right.2
  · have more := Expr.leavesOfEach_append (first :: second :: rest) [rhs]
    simp only [List.cons_append] at more
    have parts := separated_append op.kind (Expr.leavesOfEach (first :: second :: rest))
      (List.cons_ne_nil _ _) rhs.leaves
    rw [Expr.leaves, Expr.leaves, more]
    exact parts.symm

section Chain

variable (normal : M .normal) {level : Nat} {operator : Parser (Option BinaryOp)}
  {operand : Parser Expr}
  (finds : Finds level operator)
  (inner : Reads text final M anywhere operand (Expr.ReadAt text final (level + 1)))

include normal finds inner

theorem chainStep_reads (c : Expr × Bool) (tokens : List Token)
    (h : ChainRead text final level c tokens) :
    Reads text final M anywhere (chainStep operator operand c) fun r further =>
      around (ChainRead text final level) (fun c tokens => c.1.ReadAt text final level tokens) r
        (tokens ++ further) := by
  obtain ⟨lhs, chained⟩ := c
  obtain ⟨left, shape⟩ := h
  obtain ⟨g, run, found⟩ := finds
  refine .look run fun o => ?_
  cases o with
  | none => exact .pure ⟨left.cast rfl rfl (List.append_nil _).symm, shape.level_le⟩
  | some op =>
    refine .given fun s _ start => ?_
    obtain ⟨rfl, ahead⟩ := found s op start.2
    refine .restrict (.readKind normal fun t kind => inner.then fun rhs after right => ?_)
      fun _ same => same ▸ ahead
    have pair : op.level < lhs.level ∨ Expr.EndsChain op lhs →
        ChainRead text final op.level (.pair op lhs rhs, true)
        (tokens ++ ([t] ++ (after ++ []))) := by
      rw [List.append_nil]
      exact pair_read left kind right
    cases shape with
    | operand tighter => exact .pure (pair (.inl tighter))
    | @node other first second rest span same =>
      by_cases eq : other = op
      · subst eq
        simp only [if_true, Expr.append?]
        refine .pure ?_
        have read := longer_read (span.through rhs.span) left kind right
        rwa [← List.append_nil after] at read
      · simp only [if_true, Expr.append?, if_neg eq]
        have chain : Expr.EndsChain op (.binary other (first :: second :: rest) span) :=
          ⟨other, _, span, rfl, same, eq⟩
        refine .glance run_getDepth fun spent => ?_
        split
        · refine (Reads.tooDeep normal).then ?_
          rintro _ more ⟨dirty, place, rfl⟩
          exact .pure ⟨.error dirty place, op.level_le⟩
        · refine .glance run_getDepth fun _ => (Reads.setDepth _).then ?_
          rintro _ _ rfl
          exact .pure (pair (.inr chain))

theorem chainFrom_reads (peeks : Peeks operator) {lhs : Expr} {tokens : List Token}
    (h : lhs.ReadAt text final (level + 1) tokens) :
    Reads text final M pre (chainFrom lhs operator operand) fun e further =>
      e.ReadAt text final level (tokens ++ further) := by
  refine Reads.then
    (.iterate (ChainRead text final level) (fun c tokens => c.1.ReadAt text final level tokens)
    (chainStep_progress peeks operand) (chainStep_reads normal finds inner) tokens
      ⟨h.1, .operand h.2⟩)
    fun c further read => .pure ?_
  rwa [List.append_nil]

theorem chain_reads (peeks : Peeks operator) :
    Reads text final M pre (chain operator operand) (Expr.ReadAt text final level) :=
  inner.at.then fun _ _ read => chainFrom_reads normal finds inner peeks read

end Chain

theorem operatorOf_finds {level : Nat} {table : Kind → Option BinaryOp}
    (sound : ∀ k op, table k = some op → op.level = level ∧ k = op.kind) :
    Finds level (operatorOf table) := by
  refine ⟨fun s => s.kindAhead?.bind table, fun _ => rfl, fun s op found => ?_⟩
  obtain ⟨k, ahead, is_op⟩ := Option.bind_eq_some_iff.mp found
  obtain ⟨same, rfl⟩ := sound k op is_op
  exact ⟨same, ahead⟩

/-- The tables of operators have one level each, and name the operators by
their tokens. -/
theorem tables_sound {l : Nat} {table : Kind → Option BinaryOp}
    (member : (l, table) ∈
      [(0, orOperator), (1, andOperator), (3, comparisonOperator), (4, bitOrOperator),
      (5, bitXorOperator), (6, bitAndOperator), (7, shiftOperator), (8, sumOperator),
        (9, productOperator)])
    (k : Kind) (op : BinaryOp) (found : table k = some op) : op.level = l ∧ k = op.kind := by
  simp only [List.mem_cons, List.not_mem_nil, or_false, Prod.mk.injEq] at member
  rcases member with ⟨rfl, rfl⟩ | ⟨rfl, rfl⟩ | ⟨rfl, rfl⟩ | ⟨rfl, rfl⟩ | ⟨rfl, rfl⟩ | ⟨rfl, rfl⟩
    | ⟨rfl, rfl⟩ |
    ⟨rfl, rfl⟩ | ⟨rfl, rfl⟩
  · unfold orOperator at found
    split at found <;> cases found
    exact ⟨rfl, rfl⟩
  · unfold andOperator at found
    split at found <;> cases found
    exact ⟨rfl, rfl⟩
  · unfold comparisonOperator at found
    split at found <;> cases found <;> exact ⟨rfl, rfl⟩
  · unfold bitOrOperator at found
    split at found <;> cases found
    exact ⟨rfl, rfl⟩
  · unfold bitXorOperator at found
    split at found <;> cases found
    exact ⟨rfl, rfl⟩
  · unfold bitAndOperator at found
    split at found <;> cases found
    exact ⟨rfl, rfl⟩
  · unfold shiftOperator at found
    split at found <;> cases found <;> exact ⟨rfl, rfl⟩
  · unfold sumOperator at found
    split at found <;> cases found <;> exact ⟨rfl, rfl⟩
  · unfold productOperator at found
    split at found <;> cases found <;> exact ⟨rfl, rfl⟩

theorem productOperatorAhead_finds : Finds 9 productOperatorAhead := by
  refine ⟨productAhead, run_productOperatorAhead, fun s op found => ?_⟩
  rw [productAhead] at found
  split at found
  · cases found
  · obtain ⟨k, ahead, is_op⟩ := Option.bind_eq_some_iff.mp found
    obtain ⟨same, rfl⟩ :=
      tables_sound (l := 9) (by simp only [List.mem_cons, true_or, or_true]) k op is_op
    exact ⟨same, ahead⟩

/-! ### Lists and ranges -/

end Grammar

/-- The parts of a list so far, with a comma behind the last one. -/
inductive Pending (text : List Char) (final : List SyntaxError) :
    List (List Leaf) → List Expr → List Token → Prop
  | start : Pending text final [] [] []
  | comma {parts : List (List Leaf)} {inside : List Expr} {tokens : List Token} {t : Token}
      (h : Built text final (separated (.symbol .comma) parts) inside tokens)
      (nonempty : parts ≠ [])
      (kind : t.kind = .symbol .comma) : Pending text final parts inside (tokens ++ [t])

namespace Pending

variable {text : List Char} {final : List SyntaxError} {parts : List (List Leaf)}
    {inside : List Expr} {tokens : List Token}

theorem item (h : Pending text final parts inside tokens) {leaves : List Leaf} {others : List Expr}
    {more : List Token} (one : Built text final leaves others more) :
    Built text final (separated (.symbol .comma) (parts ++ [leaves])) (inside ++ others)
      (tokens ++ more) := by
  cases h with
  | start => exact one
  | @comma _ _ before t h nonempty kind =>
    refine (h.append ((Built.leaf (l := .mark (.symbol .comma)) kind).append one)).cast ?_ rfl ?_
    · exact (separated_append _ _ nonempty _).symm
    · exact (List.append_assoc ..).symm

/-- A list that ends in a comma is not grammatical. -/
theorem cut (h : Pending text final parts inside tokens) (dirty : ¬ Grammatical final) :
    Built text final (separated (.symbol .comma) parts) inside tokens := by
  cases h with
  | start => exact .nil
  | @comma _ _ before t h =>
    have dropped : Built text final [] [] [t] := ⟨.none dirty _, nofun, nofun⟩
    exact (h.append dropped).cast (List.append_nil _) (List.append_nil _) rfl

end Pending

section Grammar

open Reads (around)

variable {text : List Char} {final : List SyntaxError} {M : Mode → Prop} {pre : ParseState → Prop}
    (normal : M .normal)

include normal

theorem rangeDots_reads :
    Reads text final M pre rangeDots fun _ tokens => Built text final
      [.mark (.symbol .dot), .mark (.symbol .dot)] [] tokens := by
  refine .eat normal ?_ fun t kind => .look (run_nextAdjacent · _) fun adjacent => ?_
  · refine (Reads.unexpected _).weaken ?_
    rintro _ _ ⟨rfl, dirty⟩
    exact (Built.missing dirty _).append (.missing dirty _)
  · have first : Built text final [.mark (.symbol .dot)] [] [t] := .leaf kind
    cases adjacent with
    | true =>
      refine .restrict (.readKind normal fun u kind' => .pure (first.append (.leaf kind')))
        fun s start => ?_
      exact beq_iff_eq.mp (Bool.and_eq_true_iff.mp start.2).1
    | false =>
      refine (Reads.unexpected _).weaken ?_
      rintro _ _ ⟨rfl, dirty⟩
      exact first.append (.missing dirty _)

/-- The list of an item parser, after the items of `tokens`. -/
theorem list_reads {item : Parser Expr}
    (h : Reads text final M anywhere item fun e tokens => Built text final e.leaves [e] tokens)
    {es : List Expr} {tokens : List Token}
    (pending : Pending text final (Expr.leavesOfEach es) es tokens) :
    Reads text final M pre (iterate (listStep item) es) fun es further =>
      Built text final (separated (.symbol .comma) (Expr.leavesOfEach es)) es
        (tokens ++ further) := by
  refine .iterate (fun es tokens => Pending text final (Expr.leavesOfEach es) es tokens)
    (fun es tokens =>
      Built text final (separated (.symbol .comma) (Expr.leavesOfEach es)) es tokens)
    (listStep_progress item) (fun es tokens pending => ?_) tokens pending
  refine h.then fun e more one => ?_
  have longer := pending.item one
  have parts : Expr.leavesOfEach es ++ [e.leaves] = Expr.leavesOfEach (es ++ [e]) :=
    (Expr.leavesOfEach_append es [e]).symm
  rw [parts] at longer
  refine .eat normal (.pure ?_) fun t kind => .pure ?_
  · exact longer.cast rfl rfl (by rw [List.append_nil])
  · have nonempty : Expr.leavesOfEach (es ++ [e]) ≠ [] := by
      rw [← parts]
      exact List.append_ne_nil_of_right_ne_nil _ (List.cons_ne_nil _ _)
    have pending := Pending.comma longer nonempty kind
    rwa [List.append_assoc] at pending

section Layer

variable {sub : Level → Parser Expr}
    (inner : ∀ level, Reads text final M anywhere (sub level) (Expr.ReadAt text final level.floor))

include inner

omit normal in
theorem sub_reads (level : Level) :
    Reads text final M anywhere (sub level) fun e tokens => Built text final e.leaves [e] tokens :=
  (inner level).weaken fun _ _ read => read.1

theorem range_reads : Reads text final M pre (range sub) fun b tokens =>
    Built text final (Expr.leavesOfBounds b) b.parts tokens := by
  refine .spanAhead fun start => .demand normal fun _ lparen => ?_
  refine (sub_reads inner _).then fun lower _ low =>
    (rangeDots_reads normal).then fun _ _ dots => ?_
  refine (sub_reads inner _).then fun upper _ high => .demand normal fun _ rparen =>
    .pointHere fun stop => .pure ?_
  exact lparen.append (low.append (dots.append (high.append (rparen.append .nil))))

theorem anchor_reads :
    Reads text final M pre (anchor sub) fun a tokens =>
      Built text final (Expr.leavesOfAnchor a) a.parts tokens := by
  refine .eat normal (.eat normal (.pure .nil) fun t kind => ?_) fun t kind => ?_
  · refine (range_reads normal inner).then fun b _ bounds => .pure ?_
    exact ((Built.leaf (l := .mark _) kind).append (bounds.append .nil)).cast
      (by simp [Expr.leavesOfAnchor]) (by simp [Anchor.parts]) rfl
  · refine (sub_reads inner _).then fun e _ one => .pure ?_
    exact ((Built.leaf (l := .mark _) kind).append (one.append .nil)).cast
      (by simp [Expr.leavesOfAnchor]) (by simp [Anchor.parts]) rfl

theorem arguments_reads : Reads text final M pre (arguments sub) fun es tokens =>
    Built text final (separated (.symbol .comma) (Expr.leavesOfEach es)) es tokens := by
  refine .atKind _ (.pure .nil) ?_
  exact list_reads normal (sub_reads inner _) (show Pending text final (Expr.leavesOfEach []) [] []
    from .start)

end Layer

/-! ### Sets, quantifiers and loops -/

/-- One more part of a list of names, and whether a comma follows it. -/
theorem named_reads (make : α → List (List Leaf)) {before after : α} {leaves : List Leaf}
    {tokens more : List Token}
    (pending : Pending text final (make before) [] tokens) (one : Built text final leaves [] more)
    (longer : make after = make before ++ [leaves]) :
    Reads text final M anywhere
      (do
        if (← Parser.eat (.symbol .comma)).isSome then return .yield after
        return .done after)
      fun r further => around (fun a tokens => Pending text final (make a) [] tokens)
        (fun a tokens => Built text final (separated (.symbol .comma) (make a)) [] tokens) r
          (tokens ++ (more ++ further)) := by
  have built := pending.item one
  rw [← longer] at built
  refine .eat normal (.pure ?_) fun t kind => .pure ?_
  · exact built.cast rfl rfl (by rw [List.append_nil])
  · have nonempty : make after ≠ [] :=
      longer ▸ List.append_ne_nil_of_right_ne_nil _ (List.cons_ne_nil _ _)
    have pending := Pending.comma built nonempty kind
    rwa [List.append_assoc] at pending

def setLeaves (items : List SetItem) : List (List Leaf) := items.map (·.leaves)

theorem setItemStep_reads (items : List SetItem) (tokens : List Token)
    (h : Pending text final (setLeaves items) [] tokens) :
    Reads text final M anywhere (setItemStep items) fun r further =>
      around (fun items tokens => Pending text final (setLeaves items) [] tokens)
        (fun items tokens =>
          Built text final (separated (.symbol .comma) (setLeaves items)) [] tokens) r
        (tokens ++ further) := by
  refine .expect normal (fun dirty => .pure ((h.cut dirty).cast rfl rfl (List.append_nil _).symm))
    fun t kind => ?_
  have name : Built text final [.name (.sigil .identity) (identOf t)] [] [t] := .leaf ⟨kind, rfl⟩
  refine .look (run_nextAdjacent · _) fun adjacent => ?_
  cases adjacent with
  | true =>
    refine .restrict (.readKind (k := .symbol .asterisk) normal fun u star =>
      .glance run_lastStop fun stop => ?_) fun s start => ?_
    · have wild := name.append (.leaf (l := .mark _) star)
      exact named_reads normal setLeaves h wild (by simp [setLeaves, SetItem.leaves])
    · exact beq_iff_eq.mp (Bool.and_eq_true_iff.mp start.2).1
  | false =>
    refine .glance run_lastStop fun stop => ?_
    exact (named_reads normal setLeaves h name (by simp [setLeaves, SetItem.leaves])).at

theorem patternSet_reads :
    Reads text final M pre patternSet fun set tokens => Built text final set.leaves [] tokens := by
  refine .eat normal (.expect normal (fun dirty => .pure ?_) fun t kind => ?_)
    fun t kind => .pure ?_
  · exact (Built.missing dirty _).append (.missing dirty _)
  · refine Reads.then (.iterate _ _ setItemStep_progress (setItemStep_reads normal) [] .start)
      fun items _ list =>
      .demand normal fun _ rparen => .pure ?_
    exact (Built.leaf (l := .mark _) kind).append (list.append (rparen.append .nil))
  · exact .leaf ⟨kind, rfl⟩

end Grammar

section Grammar

open Reads (around)

variable {text : List Char} {final : List SyntaxError} {M : Mode → Prop} {pre : ParseState → Prop}
    (normal : M .normal)

include normal

/-- The variables of a loop. -/
def variableLeaves (vars : List Ident) : List (List Leaf) := vars.map fun i => [.name .ident i]

theorem variableStep_reads (vars : List Ident) (tokens : List Token)
    (h : Pending text final (variableLeaves vars) [] tokens) :
    Reads text final M anywhere (variableStep vars) fun r further =>
      around (fun vars tokens => Pending text final (variableLeaves vars) [] tokens)
        (fun vars tokens =>
          Built text final (separated (.symbol .comma) (variableLeaves vars)) [] tokens) r
        (tokens ++ further) := by
  refine .expect normal (fun dirty => .pure ((h.cut dirty).cast rfl rfl (List.append_nil _).symm))
    fun t kind => ?_
  have name : Built text final [.name .ident (identOf t)] [] [t] := .leaf ⟨kind, rfl⟩
  exact named_reads normal variableLeaves h name (by simp [variableLeaves])

omit normal in
theorem quantifierWord?_leaf {k : Kind} {make : Span → Quantifier Expr}
    (h : quantifierWord? k = some make) {t : Token}
    (kind : t.kind = k) :
    Built text final (Expr.leavesOfQuantifier (make t.span)) (make t.span).parts [t] := by
  unfold quantifierWord? at h
  split at h <;> cases h <;> exact .leaf ⟨kind, rfl⟩

section Layer

variable {sub : Level → Parser Expr}
    (inner : ∀ level, Reads text final M anywhere (sub level) (Expr.ReadAt text final level.floor))

include inner

theorem ofItem_reads : Reads text final M anywhere (ofItem sub) fun e tokens =>
    Built text final e.leaves [e] tokens := by
  refine .look Lockstep.run_wildcardAhead fun o => ?_
  cases o with
  | none => exact (sub_reads inner _).at
  | some t =>
    refine .given fun s _ start => ?_
    obtain ⟨ident, beyond, next⟩ : s.kindAhead? = some .ident ∧
        s.kindBeyond? = some (.symbol .asterisk) ∧ s.next? = some t := by
      have found := start.2
      unfold Lockstep.wildcardOf at found
      split at found
      · rename_i all
        exact ⟨all.1, all.2.1, found⟩
      · cases found
    have kind : t.kind = .ident :=
      Option.some.inj ((ParseState.kindAhead?_of_next next).symm.trans ident)
    refine .bind (m := fun s => s.kindAhead? = some (.symbol .asterisk))
      ((Reads.advance normal).restrict fun _ same => same ▸ next) ?_ ?_
    · rintro _ rfl
      rw [run_advance]
      exact (ParseState.advanced_kindAhead? _).trans beyond
    · rintro _ _ ⟨rfl, rfl⟩
      refine .readKind normal fun u star => .pure ?_
      exact ((Built.leaf (l := .name .ident (identOf t)) ⟨kind, rfl⟩).append
        (.leaf (l := .mark _) star)).node trivial rfl rfl nofun

theorem ofTuple_reads :
    Reads text final M (fun s => s.kindAhead? = some (.symbol .lparen)) (ofTuple sub)
      fun items tokens =>
      Built text final (Expr.leavesOfItems items) items.parts tokens := by
  refine .readKind normal fun t kind => ?_
  refine (list_reads normal (ofItem_reads normal inner) .start).then fun es _ list =>
    .demand normal fun _ rparen => ?_
  refine .pure ?_
  exact ((Built.leaf (l := .mark _) kind).append (list.append (rparen.append .nil))).cast rfl
    (List.append_nil _) rfl

theorem ofItems_reads : Reads text final M pre (ofItems sub) fun items tokens =>
    Built text final (Expr.leavesOfItems items) items.parts tokens := by
  have set : Reads text final M anywhere (do return .patterns (← patternSet)) fun items tokens =>
      Built text final (Expr.leavesOfItems items) items.parts tokens :=
    (patternSet_reads normal).then fun s tokens read =>
      .pure (read.cast rfl rfl (List.append_nil _).symm)
  refine .look run_atTuple fun tuple => ?_
  split
  · rename_i opened
    exact (ofTuple_reads normal inner).restrict fun s start =>
      beq_iff_eq.mp (Bool.and_eq_true_iff.mp (start.2.trans opened)).1
  · exact set.at

theorem ofExpr_reads {q : Quantifier Expr} {tokens : List Token}
    (h : Built text final (Expr.leavesOfQuantifier q) q.parts tokens) :
    Reads text final M pre (ofExpr sub q) fun e further =>
      Built text final e.leaves [e] (tokens ++ further) ∧ e.level = Expr.operandLevel := by
  refine .demand normal fun _ keyword => (ofItems_reads normal inner).then fun items _ counted => ?_
  refine (anchor_reads normal inner).then fun a _ anchored => .pointHere fun stop => .pure ⟨?_, rfl⟩
  refine (h.append (keyword.append (counted.append (anchored.append .nil)))).node trivial
    ?_ ?_ nofun
  · simp [Expr.leaves]
  · simp [Expr.parts]

theorem quantifier_reads : Reads text final M pre (quantifier sub) fun q tokens =>
    Built text final (Expr.leavesOfQuantifier q) q.parts tokens := by
  refine .peek ?_ fun t => ?_
  · refine (Reads.unexpected _).then ?_
    rintro _ _ ⟨rfl, dirty⟩
    exact .pointHere fun stop => .pure (.error dirty stop)
  · dsimp only
    cases word : quantifierWord? t.kind with
    | some make => exact .readNext normal (.pure (quantifierWord?_leaf word rfl))
    | none =>
      refine (sub_reads inner _).at.then fun e _ one =>
        .eat normal (.pure ?_) fun u kind => .pure ?_
      · exact (one.append .nil).cast (List.append_nil _) rfl rfl
      · exact one.append (.leaf (l := .mark _) kind)

theorem loopBody_reads : Reads text final M pre (loopBody sub) fun e tokens =>
    Built text final (.mark (.symbol .colon) :: e.leaves) [e] tokens := by
  refine .demand normal fun _ colon => .spanAhead fun start => .demand normal fun _ lparen => ?_
  refine (sub_reads inner _).then fun e _ one => .demand normal fun _ rparen =>
    .pointHere fun stop => .pure ?_
  have group :
    Built text final (Expr.group e (start.through stop)).leaves [.group e (start.through stop)] _ :=
    (lparen.append (one.append (rparen.append .nil))).node trivial rfl rfl nofun
  exact colon.append group

theorem iterable_reads : Reads text final M pre (iterable sub) fun i tokens =>
    Built text final (Expr.leavesOfIterable i) i.parts tokens := by
  refine .eat normal ?_ fun t kind => ?_
  · exact (sub_reads inner _).at.then fun e _ one =>
      .pure ((one.append .nil).cast (List.append_nil _) rfl rfl)
  have lparen : Built text final [.mark (.symbol .lparen)] [] [t] := .leaf kind
  refine (sub_reads inner _).then fun first tokens one => .atKind _ ?_ ?_
  · refine ((rangeDots_reads normal).then fun _ _ dots =>
      (sub_reads inner _).then fun upper _ high => ?_).at
    refine .demand normal fun _ rparen => .pointHere fun stop => .pure ?_
    exact lparen.append (one.append (dots.append (high.append (rparen.append .nil))))
  · have finish : ∀ {es : List Expr} {more : List Token},
        Built text final (separated (.symbol .comma) (Expr.leavesOfEach es)) es more →
        Reads text final M anywhere (do let _ ← Parser.expect (.symbol .rparen); return .tuple es)
          fun i further =>
            Built text final (Expr.leavesOfIterable i) i.parts (t :: (more ++ further)) := by
      refine fun list => .demand normal fun _ rparen => .pure ?_
      exact (lparen.append (list.append (rparen.append .nil))).cast rfl (List.append_nil _) rfl
    have single : Built text final (separated (.symbol .comma) (Expr.leavesOfEach [first]))
        [first] tokens := one
    refine .eat normal ?_ fun u comma => ?_
    · exact finish single
    · have pending : Pending text final (Expr.leavesOfEach [first]) [first] (tokens ++ [u]) :=
        .comma single (List.cons_ne_nil _ _) comma
      refine (list_reads normal (sub_reads inner _) pending).then fun es more list => ?_
      exact (finish list).weaken fun i further built => built.cast rfl rfl (by simp)

theorem forExpr_reads {start : Span} {t : Token} (kind : t.kind = .keyword .kwFor) :
    Reads text final M pre (forExpr sub start) fun e further =>
      Built text final e.leaves [e] (t :: further) ∧ e.level = Expr.operandLevel := by
  have keyword : Built text final [.mark (.keyword .kwFor)] [] [t] := .leaf kind
  refine (quantifier_reads normal inner).then fun q _ quantified => .eat normal ?_ fun u of => ?_
  · refine Reads.then (.iterate _ _ variableStep_progress (variableStep_reads normal) [] .start)
      fun vars _ named =>
      .demand normal fun _ kwIn => ?_
    refine (iterable_reads normal inner).then fun i _ values =>
      (loopBody_reads normal inner).then fun body _ inside => ?_
    refine .pointHere fun stop => .pure ⟨?_, rfl⟩
    refine (keyword.append
      (quantified.append (named.append (kwIn.append (values.append (inside.append .nil)))))).node
      trivial ?_ ?_ nofun
    · simp [Expr.leaves, variableLeaves]
    · simp [Expr.parts]
  · refine (patternSet_reads normal).then fun set _ patterns =>
      (loopBody_reads normal inner).then fun body _ inside => ?_
    refine .pointHere fun stop => .pure ⟨?_, rfl⟩
    have word : Built text final [.mark (.keyword .kwOf)] [] [u] := .leaf of
    refine (keyword.append (quantified.append
      (word.append (patterns.append (inside.append .nil))))).node trivial ?_ ?_ nofun
    · simp [Expr.leaves]
    · simp [Expr.parts]

end Layer

end Grammar

/-! ### Operands and links -/

section Grammar

open Reads (around)

variable {text : List Char} {final : List SyntaxError} {M : Mode → Prop} {pre : ParseState → Prop}
  (normal : M .normal) {sub : Level → Parser Expr}
  (inner : ∀ level, Reads text final M anywhere (sub level) (Expr.ReadAt text final level.floor))

include normal inner

theorem index?_reads : Reads text final M pre (index? sub) fun o tokens =>
    Built text final (Expr.leavesOfIndex o) o.toList tokens := by
  refine .eat normal (.pure .nil) fun t kind => ?_
  refine (sub_reads inner _).then fun e _ one => .demand normal fun _ rbracket => .pure ?_
  exact (Built.leaf (l := .mark _) kind).append (one.append (rbracket.append .nil))

theorem patternExpr_reads (k : Sigil) {t : Token} (kind : t.kind = .sigil k) :
    Reads text final M pre (patternExpr sub k t) fun e further =>
      Built text final e.leaves [e] (t :: further) ∧ e.level = Expr.operandLevel := by
  have name : Built text final [.name (.sigil k) (identOf t)] [] [t] := .leaf ⟨kind, rfl⟩
  cases k with
  | identity =>
    refine (anchor_reads normal inner).then fun a _ anchored => .pure ⟨?_, rfl⟩
    exact (name.append (anchored.append .nil)).node trivial (by simp [Expr.leaves])
      (by simp [Expr.parts]) nofun
  | count =>
    have finish : ∀ (o : Option (Bounds Expr)) (more : List Token),
        Built text final (Expr.leavesOfRange o) (o.elim [] Bounds.parts) more →
        Reads text final M anywhere
          (do return .count (identOf t) o (t.span.through (← Parser.pointHere)))
          fun e further => Built text final e.leaves [e] (t :: (more ++ further)) ∧
            e.level = Expr.operandLevel := by
      refine fun _ _ range => .pointHere fun stop => .pure ⟨?_, rfl⟩
      exact (name.append (range.append .nil)).node trivial (by simp [Expr.leaves])
        (by simp [Expr.parts]) nofun
    refine .eat normal ((finish none [] .nil).at) fun u kwIn => ?_
    refine (range_reads normal inner).then fun b _ bounds => finish (some b) (u :: _) ?_
    exact (Built.leaf (l := .mark _) kwIn).append bounds
  | offset =>
    refine (index?_reads normal inner).then fun o _ index => .pointHere fun stop => .pure ⟨?_, rfl⟩
    exact (name.append (index.append .nil)).node trivial (by simp [Expr.leaves])
      (by simp [Expr.parts]) nofun
  | length =>
    refine (index?_reads normal inner).then fun o _ index => .pointHere fun stop => .pure ⟨?_, rfl⟩
    exact (name.append (index.append .nil)).node trivial (by simp [Expr.leaves])
      (by simp [Expr.parts]) nofun

omit inner in
/-- A literal of one token. One without its delimiter is not grammatical. -/
theorem atom_reads {t : Token} {a : Atom} (atom : atomOf? t.kind = some a) :
    Reads text final M (fun s => s.next? = some t)
      (do let _ ← advance; reportOpen t; return .atom a t.span) fun e tokens =>
      Built text final e.leaves [e] tokens ∧ e.level = Expr.operandLevel := by
  have closed : t.kind = a.kind → Built text final (Expr.atom a t.span).leaves [.atom a t.span]
      [t] := fun kind =>
    (Built.leaf (l := .place a.kind t.span) ⟨kind, rfl⟩).node trivial rfl rfl nofun
  have «open» : ¬ Grammatical final → Built text final (Expr.atom a t.span).leaves [.atom a t.span]
      [t] := fun dirty =>
    (show Built text final [.place a.kind t.span] [] [t]
      from ⟨.missing dirty rfl (.none dirty [t]), nofun, nofun⟩).node trivial rfl rfl nofun
  refine Reads.restrict (.readNext normal ?_) fun s next =>
    (show anywhere s ∧ _ from ⟨trivial, next⟩)
  unfold atomOf? at atom
  unfold reportOpen
  split at atom <;> cases atom
  all_goals
    rename_i kind
    rw [kind]
    first
      | exact .pure ⟨closed kind, rfl⟩
      | refine (Reads.report _ _ rfl).then ?_
        rintro _ _ ⟨rfl, dirty⟩
        exact .pure ⟨«open» dirty, rfl⟩

theorem primary_reads : Reads text final M pre (primary sub) fun e tokens =>
    Built text final e.leaves [e] tokens ∧ e.level = Expr.operandLevel := by
  refine .peek ?_ fun t => ?_
  · refine (Reads.unexpected _).then ?_
    rintro _ _ ⟨rfl, dirty⟩
    exact .pointHere fun stop => .pure ⟨.error dirty stop, rfl⟩
  dsimp only
  cases atom : atomOf? t.kind with
  | some a => exact (atom_reads normal atom).restrict fun s start => start.2
  | none =>
    dsimp only
    split
    · rename_i kind
      exact .readLiteral normal kind fun n evaluates => .pure ⟨.integer evaluates, rfl⟩
    · rename_i kind
      exact .readNext normal (.pure
        ⟨(Built.leaf (l := .name .ident (identOf t)) ⟨kind, rfl⟩).node trivial rfl rfl nofun, rfl⟩)
    · rename_i sigil kind
      exact .readNext normal (patternExpr_reads normal inner sigil kind)
    · rename_i kind
      refine .readNext normal
        ((sub_reads inner _).then fun e _ one => .demand normal fun _ rparen => ?_)
      refine .pointHere fun stop => .pure ⟨?_, rfl⟩
      exact ((Built.leaf (l := .mark _) kind).append (one.append (rparen.append .nil))).node trivial
        rfl rfl nofun
    · rename_i kind
      exact .readNext normal (forExpr_reads normal inner kind)
    · cases word : quantifierWord? t.kind with
      | some make =>
        exact .readNext normal (ofExpr_reads normal inner (quantifierWord?_leaf word rfl))
      | none =>
        refine (Reads.unexpected _).then ?_
        rintro _ _ ⟨rfl, dirty⟩
        exact .pure ⟨.error dirty _, rfl⟩

omit normal inner in
/-- An operand that was read with the links so far. -/
def OperandRead (text : List Char) (final : List SyntaxError) (e : Expr)
    (tokens : List Token) : Prop :=
  Built text final e.leaves [e] tokens ∧ e.level = Expr.operandLevel

theorem applyLink_reads (link : Link) {e : Expr} {tokens : List Token}
    (h : OperandRead text final e tokens) :
    Reads text final M (fun s => Lockstep.linkOf s = some link) (applyLink sub e link)
      fun e further =>
      OperandRead text final e (tokens ++ further) := by
  obtain ⟨built, operand⟩ := h
  cases link with
  | field =>
    refine .given fun s _ start => ?_
    obtain ⟨dot, name⟩ : s.kindAhead? = some (.symbol .dot) ∧ s.kindBeyond? = some .ident := by
      rcases Lockstep.linkOf_eq_some start with ⟨_, both⟩ | ⟨other, _⟩ | ⟨other, _⟩
      · exact both
      all_goals cases other
    obtain ⟨t, next, kind⟩ := ParseState.kindAhead?_eq_some dot
    refine .bind (m := fun s => s.kindAhead? = some .ident)
      ((Reads.advance normal).restrict fun _ same => same ▸ next) ?_ ?_
    · rintro _ rfl
      rw [run_advance]
      exact (ParseState.advanced_kindAhead? _).trans name
    · rintro _ _ ⟨rfl, rfl⟩
      refine .readKind normal fun u kind' => .pure ⟨?_, rfl⟩
      exact (built.append ((Built.leaf (l := .mark _) kind).append
        (.leaf (l := .name .ident (identOf u)) ⟨kind', rfl⟩))).node operand rfl rfl nofun
  | lookup =>
    refine .restrict (.readKind (k := .symbol .lbracket) normal fun t kind => ?_) fun s start => ?_
    · refine (sub_reads inner _).then fun index _ one => .demand normal fun _ rbracket =>
        .pointHere fun stop => ?_
      refine .pure ⟨?_, rfl⟩
      exact (built.append ((Built.leaf (l := .mark _) kind).append
        (one.append (rbracket.append .nil)))).node operand rfl rfl nofun
    · rcases Lockstep.linkOf_eq_some start with ⟨other, _⟩ | ⟨_, ahead⟩ | ⟨other, _⟩
      · cases other
      · exact ahead
      · cases other
  | call =>
    refine .restrict (.readKind (k := .symbol .lparen) normal fun t kind => ?_) fun s start => ?_
    · refine (arguments_reads normal inner).then fun es _ list => .demand normal fun _ rparen =>
        .pointHere fun stop => ?_
      refine .pure ⟨?_, rfl⟩
      exact (built.append ((Built.leaf (l := .mark _) kind).append
        (list.append (rparen.append .nil)))).node operand rfl (by simp [Expr.parts]) nofun
    · rcases Lockstep.linkOf_eq_some start with ⟨other, _⟩ | ⟨other, _⟩ | ⟨_, ahead⟩
      · cases other
      · cases other
      · exact ahead

theorem linkStep_reads (depth : Nat) (e : Expr) (tokens : List Token)
    (h : OperandRead text final e tokens) :
    Reads text final M anywhere (linkStep sub depth e) fun r further =>
      around (OperandRead text final) (OperandRead text final) r (tokens ++ further) := by
  refine .look Lockstep.run_linkAhead fun o => ?_
  cases o with
  | none => exact .pure (by rwa [List.append_nil])
  | some link =>
    refine .glance run_getDepth fun spent => ?_
    split
    · refine (Reads.setDepth _).then ?_
      rintro _ _ rfl
      refine (Reads.tooDeep normal).then ?_
      rintro _ more ⟨dirty, place, rfl⟩
      exact .pure ⟨.error dirty place, rfl⟩
    · refine .glance run_getDepth fun _ => ?_
      refine .bind (m := fun s => Lockstep.linkOf s = some link) (Reads.setDepth _)
        (fun s start => start.2) ?_
      rintro _ _ rfl
      refine (applyLink_reads normal inner link h).then fun e further longer => .pure ?_
      exact ⟨longer.1.cast rfl rfl (by simp), longer.2⟩

theorem postfixExpr_reads :
    Reads text final M pre (postfixExpr sub) (Expr.ReadAt text final Expr.operandLevel) := by
  refine (primary_reads normal inner).then fun e tokens first =>
    .glance run_getDepth fun depth => ?_
  refine Reads.then (.iterate _ _ (linkStep_progress sub depth) (linkStep_reads normal inner depth)
    tokens first) fun e further last => (Reads.setDepth _).then ?_
  rintro _ _ rfl
  exact .pure ⟨last.1.cast rfl rfl (by simp), Nat.le_of_eq last.2.symm⟩

/-! ### The levels of an expression -/

theorem prefixed_reads (level : Level) {table : Kind → Option UnaryOp} {bare : Parser Expr}
    (sound : ∀ k op, table k = some op → op.level = level.floor ∧ k = op.kind)
    (h : Reads text final M anywhere bare (Expr.ReadAt text final level.floor)) :
    Reads text final M pre (prefixed sub table level bare)
      (Expr.ReadAt text final level.floor) := by
  refine .peek h.at fun t => ?_
  dsimp only
  cases found : table t.kind with
  | none => exact h.at
  | some op =>
    obtain ⟨same, kind⟩ := sound _ op found
    refine .readNext normal
      ((inner level).then fun e tokens operand => .pure ⟨?_, Nat.le_of_eq same.symm⟩)
    refine ((Built.leaf (l := .mark op.kind) kind).append (operand.1.append .nil)).node ?_
      ?_ ?_ nofun
    · exact Nat.le_trans (Nat.le_of_eq same) operand.2
    · simp [Expr.leaves]
    · simp [Expr.parts]

theorem signExpr_reads : Reads text final M pre (signExpr sub) (Expr.ReadAt text final 10) := by
  refine prefixed_reads normal inner .sign (fun k op found => ?_)
    ((postfixExpr_reads normal inner).weaken fun _ _ read => read.loosen (by decide))
  unfold signOperator? at found
  split at found <;> cases found <;> exact ⟨rfl, rfl⟩

omit inner in
/-- One level of binary operators above another. -/
theorem tableChain_reads {level : Nat} {table : Kind → Option BinaryOp}
    (member : (level, table) ∈
      [(0, orOperator), (1, andOperator), (3, comparisonOperator), (4, bitOrOperator),
      (5, bitXorOperator), (6, bitAndOperator), (7, shiftOperator), (8, sumOperator),
        (9, productOperator)])
    {operand : Parser Expr}
    (h : Reads text final M anywhere operand (Expr.ReadAt text final (level + 1))) :
    Reads text final M pre (chain (operatorOf table) operand) (Expr.ReadAt text final level) :=
  chain_reads normal (operatorOf_finds (tables_sound member)) h (operatorOf_peeks table)

theorem bitOrExpr_reads : Reads text final M pre (bitOrExpr sub) (Expr.ReadAt text final 4) := by
  have product : Reads text final M anywhere (productExpr sub) (Expr.ReadAt text final 9) :=
    chain_reads normal productOperatorAhead_finds (signExpr_reads normal inner)
      productOperatorAhead_peeks
  have sum : Reads text final M anywhere (sumExpr sub) (Expr.ReadAt text final 8) :=
    tableChain_reads normal (by simp only [List.mem_cons, true_or, or_true]) product
  have shift : Reads text final M anywhere (shiftExpr sub) (Expr.ReadAt text final 7) :=
    tableChain_reads normal (by simp only [List.mem_cons, true_or, or_true]) sum
  have bitAnd : Reads text final M anywhere (bitAndExpr sub) (Expr.ReadAt text final 6) :=
    tableChain_reads normal (by simp only [List.mem_cons, true_or, or_true]) shift
  have bitXor : Reads text final M anywhere (bitXorExpr sub) (Expr.ReadAt text final 5) :=
    tableChain_reads normal (by simp only [List.mem_cons, true_or, or_true]) bitAnd
  exact tableChain_reads normal (by simp only [List.mem_cons, true_or, or_true]) bitXor

theorem comparisonExpr_reads :
    Reads text final M pre (comparisonExpr sub) (Expr.ReadAt text final 3) := by
  refine (bitOrExpr_reads normal inner).then fun lhs tokens left => .atKind _ ?_ ?_
  · refine ((ofExpr_reads normal inner (q := .count lhs) left.1).weaken fun e further read => ?_).at
    exact ⟨read.1, by rw [read.2]; decide⟩
  refine .look run_atPercentOf fun b => ?_
  cases b with
  | true =>
    refine .restrict (.readKind (k := .symbol .percent) normal fun t kind => ?_) fun s start => ?_
    · have quantified : Built text final (Expr.leavesOfQuantifier (.percentage lhs))
          (Quantifier.percentage lhs).parts
          (tokens ++ [t]) := left.1.append (.leaf (l := .mark _) kind)
      refine (ofExpr_reads normal inner quantified).weaken fun e further read =>
        ⟨?_, by rw [read.2]; decide⟩
      exact read.1.cast rfl rfl (List.append_assoc ..)
    · exact beq_iff_eq.mp (Bool.and_eq_true_iff.mp start.2).1
  | false =>
    have comparisons : Finds 3 (operatorOf comparisonOperator) :=
      operatorOf_finds (tables_sound (by simp only [List.mem_cons, true_or, or_true]))
    exact Reads.at
      (chainFrom_reads normal comparisons (bitOrExpr_reads normal inner) (operatorOf_peeks _) left)

theorem negationExpr_reads :
    Reads text final M pre (negationExpr sub) (Expr.ReadAt text final 2) := by
  refine prefixed_reads normal inner .negation (fun k op found => ?_)
    ((comparisonExpr_reads normal inner).weaken fun _ _ read => read.loosen (by decide))
  unfold negationOperator? at found
  split at found <;> cases found <;> exact ⟨rfl, rfl⟩

theorem orExpr_reads : Reads text final M pre (orExpr sub) (Expr.ReadAt text final 0) := by
  have and : Reads text final M anywhere (andExpr sub) (Expr.ReadAt text final 1) :=
    tableChain_reads normal (by simp only [List.mem_cons, true_or, or_true])
      (negationExpr_reads normal inner)
  exact tableChain_reads normal (by simp only [List.mem_cons, true_or]) and

theorem layer_reads (level : Level) :
    Reads text final M pre (layer sub level) (Expr.ReadAt text final level.floor) := by
  cases level with
  | expression => exact orExpr_reads normal inner
  | negation => exact negationExpr_reads normal inner
  | bitwise => exact bitOrExpr_reads normal inner
  | sign => exact signExpr_reads normal inner

end Grammar

section Whole

variable {text : List Char} {final : List SyntaxError} {M : Mode → Prop} {pre : ParseState → Prop}
    (normal : M .normal)

include normal

theorem nested_reads (budget : Nat) (level : Level) :
    Reads text final M anywhere (nested budget level) (Expr.ReadAt text final level.floor) := by
  have deep : ∀ level :
      Level, Reads text final M anywhere tooDeep (Expr.ReadAt text final level.floor) := by
    refine fun level => (Reads.tooDeep normal).weaken ?_
    rintro _ tokens ⟨dirty, place, rfl⟩
    have loose : level.floor ≤ Expr.operandLevel := by cases level <;> decide
    exact ⟨.error dirty place, loose⟩
  induction budget generalizing level with
  | zero => exact deep level
  | succ budget ih =>
    refine .glance run_getDepth fun spent => ?_
    split
    · exact deep level
    refine .glance run_getDepth fun _ => (Reads.setDepth _).then ?_
    rintro _ _ rfl
    refine (layer_reads normal ih level).then fun e tokens read => .glance run_getDepth fun _ =>
      (Reads.setDepth _).then ?_
    rintro _ _ rfl
    exact .pure ⟨read.1.cast rfl rfl (by simp), read.2⟩

/-- A whole expression stands for the tokens that are read for it. -/
theorem expression_reads :
    Reads text final M pre expression fun e tokens => Built text final e.leaves [e] tokens := by
  refine (Reads.setDepth 0).then ?_
  rintro _ _ rfl
  exact (nested_reads normal maxNesting .expression).weaken fun _ _ read => read.1

end Whole

end Parser

end RuleDesk
