import RuleDesk.Proofs.Lexing.Boundaries
import RuleDesk.Proofs.Parsing.Reading
import RuleDesk.Proofs.Parsing.Spans

namespace RuleDesk

/-! ## Spans inside of spans -/

/-- Spans between two offsets, one behind the other. -/
structure InRow (low high : Nat) (spans : List Span) : Prop where
  le : low ≤ high
  inside : ∀ s ∈ spans, low ≤ s.start ∧ s.stop ≤ high
  ordered : spans.Pairwise fun s t => s.stop ≤ t.start

theorem Span.through_of_le {s t : Span} (le : s.stop ≤ t.stop) : s.through t = ⟨s.start, t.stop⟩ :=
  congrArg (Span.mk s.start) (Nat.max_eq_left le)

namespace InRow

variable {low mid high lower higher : Nat} {spans others : List Span}

theorem nil (le : low ≤ high) : InRow low high [] := ⟨le, nofun, .nil⟩

theorem one {s : Span} (le : low ≤ high) (start : low ≤ s.start) (stop : s.stop ≤ high) :
    InRow low high [s] :=
  ⟨le, List.forall_mem_singleton.mpr ⟨start, stop⟩, List.pairwise_singleton _ _⟩

theorem append (h : InRow low mid spans) (h' : InRow mid high others) :
    InRow low high (spans ++ others) where
  le := Nat.le_trans h.le h'.le
  inside := List.forall_mem_append.mpr
    ⟨fun s member => ⟨(h.inside s member).1, Nat.le_trans (h.inside s member).2 h'.le⟩,
      fun s member => ⟨Nat.le_trans h.le (h'.inside s member).1, (h'.inside s member).2⟩⟩
  ordered := List.pairwise_append.mpr
    ⟨h.ordered, h'.ordered, fun s member t member' =>
      Nat.le_trans (h.inside s member).2 (h'.inside t member').1⟩

theorem widen (h : InRow low high spans) (le : lower ≤ low) (le' : high ≤ higher) :
    InRow lower higher spans where
  le := Nat.le_trans le (Nat.le_trans h.le le')
  inside s member := ⟨Nat.le_trans le (h.inside s member).1, Nat.le_trans (h.inside s member).2 le'⟩
  ordered := h.ordered

end InRow

/-- The spans of a piece of syntax: those of its names, and those of its nodes
with what is right inside of them in the order of the source. -/
inductive SpanTree
  | name (ident : Ident)
  | node (span : Span) (inside : List SpanTree)

namespace SpanTree

def span : SpanTree → Span
  | name i => i.span
  | node s _ => s

def inside : SpanTree → List SpanTree
  | name _ => []
  | node _ trees => trees

/-- A property of all the nodes of a tree. -/
inductive Everywhere (P : SpanTree → Prop) : SpanTree → Prop
  | node {t : SpanTree} (here : P t) (below : ∀ u ∈ t.inside, Everywhere P u) : Everywhere P t

theorem Everywhere.inv {P : SpanTree → Prop} {t : SpanTree} (h : t.Everywhere P) :
    P t ∧ ∀ u ∈ t.inside, u.Everywhere P := by
  cases h with
  | node here below => exact ⟨here, below⟩

/-- The span can be cut out of the text. What is cut out at a name is the name. -/
def Fits (text : List Char) (t : SpanTree) : Prop :=
  t.span.Fits text ∧ ∃ piece, sliceBytes? text t.span.start t.span.stop = some piece ∧
    ∀ i, t = name i → i.name.toList = piece

/-- The span contains those right inside of it, which do not overlap and are in
the order of the source. -/
def Nested (t : SpanTree) : Prop := InRow t.span.start t.span.stop (t.inside.map span)

end SpanTree

theorem SpanTree.Fits.node {text : List Char} {s : Span} {trees : List SpanTree} (h : s.Fits text) :
    (node s trees).Fits text := by
  obtain ⟨piece, slice⟩ := h.slice
  exact ⟨h, piece, slice, nofun⟩

def SetItem.tree (i : SetItem) : SpanTree := .node i.span [.name i.ident]

def PatternSet.trees : PatternSet → List SpanTree
  | .them s => [.node s []]
  | .items set => set.map SetItem.tree

mutual

/-- The spans of an expression, with the names, ranges, sets and quantifiers in it. -/
def Expr.tree : Expr → SpanTree
  | .atom _ s | .integer _ s | .error s => .node s []
  | .ident i | .ruleWildcard i => .name i
  | .pattern i anchor s => .node s (.name i :: treesOfAnchor anchor)
  | .count i range s => .node s (.name i :: treesOfRange range)
  | .offset i index s | .length i index s => .node s (.name i :: treesOfIndex index)
  | .field object name s => .node s [object.tree, .name name]
  | .lookup object index s => .node s [object.tree, index.tree]
  | .call callee args s => .node s (callee.tree :: treesOfEach args)
  | .group inner s => .node s [inner.tree]
  | .unary _ operand s => .node s [operand.tree]
  | .binary _ operands s => .node s (treesOfEach operands)
  | .of quantifier items anchor s =>
    .node s (treeOfQuantifier quantifier :: (treesOfItems items ++ treesOfAnchor anchor))
  | .forOf quantifier set body s =>
    .node s (treeOfQuantifier quantifier :: (set.trees ++ [body.tree]))
  | .forIn quantifier vars iterable body s =>
    .node s (treeOfQuantifier quantifier ::
      (vars.map .name ++ (treesOfIterable iterable ++ [body.tree])))

def Expr.treesOfEach : List Expr → List SpanTree
  | [] => []
  | e :: rest => e.tree :: treesOfEach rest

def Expr.treeOfBounds : Bounds Expr → SpanTree
  | ⟨s, lower, upper⟩ => .node s [lower.tree, upper.tree]

def Expr.treesOfRange : Option (Bounds Expr) → List SpanTree
  | none => []
  | some bounds => [treeOfBounds bounds]

def Expr.treesOfIndex : Option Expr → List SpanTree
  | none => []
  | some e => [e.tree]

def Expr.treesOfAnchor : Anchor Expr → List SpanTree
  | .anywhere => []
  | .at e => [e.tree]
  | .within bounds => [treeOfBounds bounds]

def Expr.treeOfQuantifier : Quantifier Expr → SpanTree
  | .none s | .all s | .any s => .node s []
  | .percentage e | .count e => e.tree

def Expr.treesOfItems : OfItems Expr → List SpanTree
  | .patterns set => set.trees
  | .tuple items => treesOfEach items

def Expr.treesOfIterable : Iterable Expr → List SpanTree
  | .range bounds => [treeOfBounds bounds]
  | .tuple items => treesOfEach items
  | .value e => [e.tree]

end

@[simp] theorem Expr.tree_span (e : Expr) : e.tree.span = e.span := by
  cases e <;> rfl

@[simp] theorem Expr.treeOfBounds_span (b : Bounds Expr) : (treeOfBounds b).span = b.span := by
  cases b
  rfl

@[simp] theorem Expr.treeOfQuantifier_span (q : Quantifier Expr) :
    (treeOfQuantifier q).span = q.span := by
  cases q with
  | none | all | any => rfl
  | percentage e | count e => exact e.tree_span

theorem Expr.treesOfEach_append (a b : List Expr) :
    treesOfEach (a ++ b) = treesOfEach a ++ treesOfEach b := by
  induction a with
  | nil => rfl
  | cons e rest ih => rw [List.cons_append, treesOfEach, treesOfEach, ih, List.cons_append]

/-! ### What is laid out in a text -/

/-- A token of a text at or behind an offset. -/
structure Token.FoundAt (text : List Char) (n : Nat) (t : Token) : Prop where
  start : n ≤ t.start
  stands : StandsAt text t.start t.text
  nonempty : t.text ≠ []

theorem Token.FoundAt.stop {text : List Char} {n : Nat} {t : Token} (h : t.FoundAt text n) :
    n ≤ t.stop :=
  Nat.le_trans h.start (Nat.le_add_right _ _)

/-- Some trees that were made out of the text between two offsets. All their
spans fit. In a parse that is clean the trees stand between the offsets, one
behind the other, and they are nested. -/
structure Laid (text : List Char) (clean : Prop) (low high : Nat)
    (trees : List SpanTree) : Prop where
  fits : ∀ t ∈ trees, t.Everywhere (·.Fits text)
  row : clean → InRow low high (trees.map (·.span))
  nested : clean → ∀ t ∈ trees, t.Everywhere SpanTree.Nested

namespace Laid

variable {text : List Char} {clean : Prop} {low mid high lower higher : Nat}
  {trees others : List SpanTree} {s : Span} {first last : SpanTree} {t : Token}

theorem nil (le : low ≤ high) : Laid text clean low high [] :=
  ⟨nofun, fun _ => .nil le, fun _ => nofun⟩

theorem append (h : Laid text clean low mid trees) (h' : Laid text clean mid high others) :
    Laid text clean low high (trees ++ others) where
  fits := List.forall_mem_append.mpr ⟨h.fits, h'.fits⟩
  row yes := by
    rw [List.map_append]
    exact (h.row yes).append (h'.row yes)
  nested yes := List.forall_mem_append.mpr ⟨h.nested yes, h'.nested yes⟩

theorem widen (h : Laid text clean low high trees) (wider : clean → lower ≤ low ∧ high ≤ higher) :
    Laid text clean lower higher trees :=
  ⟨h.fits, fun yes => (h.row yes).widen (wider yes).1 (wider yes).2, h.nested⟩

/-- A node around some trees. -/
theorem node (h : Laid text clean low high trees) (fits : s.Fits text)
    (inner : clean → s.start ≤ low ∧ high ≤ s.stop)
    (outer : clean → lower ≤ s.start ∧ s.stop ≤ higher) : Laid text clean lower higher
    [.node s trees] where
  fits := List.forall_mem_singleton.mpr (.node (.node fits) h.fits)
  row yes := .one (Nat.le_trans (outer yes).1 (Nat.le_trans fits.ordered (outer yes).2))
    (outer yes).1 (outer yes).2
  nested yes := List.forall_mem_singleton.mpr
    (.node ((h.row yes).widen (inner yes).1 (inner yes).2) (h.nested yes))

theorem leaf (fits : s.Fits text) (outer : clean → low ≤ s.start ∧ s.stop ≤ high) :
    Laid text clean low high [.node s []] :=
  (nil fits.ordered).node fits (fun _ => ⟨Nat.le_refl _, Nat.le_refl _⟩) outer

theorem token (found : t.FoundAt text low) : Laid text clean low t.stop [.node t.span []] :=
  leaf found.stands.fits fun _ => ⟨found.start, Nat.le_refl _⟩

theorem name (found : t.FoundAt text low) :
    Laid text clean low t.stop [.name (Parser.identOf t)] where
  fits := by
    refine List.forall_mem_singleton.mpr
      (.node ⟨found.stands.fits, t.text, found.stands.slice, ?_⟩ nofun)
    rintro _ ⟨⟩
    exact String.toList_ofList
  row _ := .one found.stop found.start (Nat.le_refl _)
  nested _ := List.forall_mem_singleton.mpr (.node (.nil (Nat.le_add_right _ _)) nofun)

/-- What is known of the first of some trees. -/
theorem head_fits (h : Laid text clean low high (first :: trees)) : first.span.Fits text :=
  (h.fits first (List.mem_cons_self ..)).inv.1.1

theorem head_inside (h : Laid text clean low high (first :: trees)) (yes : clean) :
    low ≤ first.span.start ∧ first.span.stop ≤ high := (h.row yes).inside _ (List.mem_cons_self ..)

/-- A tree stands where its own span is. -/
theorem alone (h : Laid text clean low high [first]) :
    Laid text clean first.span.start first.span.stop [first] :=
  ⟨h.fits, fun _ => .one h.head_fits.ordered (Nat.le_refl _) (Nat.le_refl _), h.nested⟩

/-- What is inside of a node stands where the node is. -/
theorem opened (h : Laid text clean low high [.node s trees]) :
    Laid text clean s.start s.stop trees where
  fits := (h.fits _ (List.mem_singleton_self _)).inv.2
  row yes := (h.nested yes _ (List.mem_singleton_self _)).inv.1
  nested yes := (h.nested yes _ (List.mem_singleton_self _)).inv.2

/-- A node that goes from the start of a span to the place behind some trees. -/
theorem enclosed (h : Laid text clean mid high trees) (fits : s.Fits text)
    (stop : IsBoundary text high) (start : clean → low ≤ s.start ∧ s.stop ≤ mid) :
    Laid text clean low high [.node (s.through (.point high)) trees] := by
  have ends : clean → s.through (.point high) = ⟨s.start, high⟩ := fun yes =>
    Span.through_of_le (Nat.le_trans (start yes).2 (h.row yes).le)
  refine h.node (fits.through (.point stop)) (fun yes => ?_) fun yes => ?_
  · rw [ends yes]
    exact ⟨Nat.le_trans fits.ordered (start yes).2, Nat.le_refl _⟩
  · rw [ends yes]
    exact ⟨(start yes).1, Nat.le_refl _⟩

/-- A node that goes from the start of a tree to the place behind some others. -/
theorem behind (h : Laid text clean low mid [first]) (h' : Laid text clean mid high trees)
    (stop : IsBoundary text high) :
    Laid text clean low high [.node (first.span.through (.point high)) (first :: trees)] := by
  have ends : clean → first.span.through (.point high) = ⟨first.span.start, high⟩ := fun yes =>
    Span.through_of_le (Nat.le_trans (h.head_inside yes).2 (h'.row yes).le)
  have both := (h.alone.widen fun yes => ⟨Nat.le_refl _, (h.head_inside yes).2⟩).append h'
  refine both.node (h.head_fits.through (.point stop)) (fun yes => ?_) fun yes => ?_
  · rw [ends yes]
    exact ⟨Nat.le_refl _, Nat.le_refl _⟩
  · rw [ends yes]
    exact ⟨(h.head_inside yes).1, Nat.le_refl _⟩

/-- A node that goes from the start of a span to the end of the last tree in it. -/
theorem upTo (h : Laid text clean s.start s.stop trees) (h' : Laid text clean mid high [last])
    (fits : s.Fits text) (start : clean → low ≤ s.start ∧ s.stop ≤ mid) :
    Laid text clean low high [.node (s.through last.span) (trees ++ [last])] := by
  have next : clean → s.stop ≤ last.span.start :=
    fun yes => Nat.le_trans (start yes).2 (h'.head_inside yes).1
  have ends : clean → s.through last.span = ⟨s.start, last.span.stop⟩ := fun yes =>
    Span.through_of_le (Nat.le_trans (next yes) h'.head_fits.ordered)
  refine (h.append (h'.alone.widen fun yes => ⟨next yes, Nat.le_refl _⟩)).node
    (fits.through h'.head_fits) (fun yes => ?_) fun yes => ?_
  · rw [ends yes]
    exact ⟨Nat.le_refl _, Nat.le_refl _⟩
  · rw [ends yes]
    exact ⟨(start yes).1, (h'.head_inside yes).2⟩

/-- A node around two trees. -/
theorem joined (h : Laid text clean low mid [first]) (h' : Laid text clean mid high [last]) :
    Laid text clean low high [.node (first.span.through last.span) [first, last]] :=
  h.alone.upTo h' h.head_fits h.head_inside

/-- A node that starts at a token in front of a tree. -/
theorem led (found : t.FoundAt text low) (h : Laid text clean t.stop high [last]) :
    Laid text clean low high [.node (t.span.through last.span) [last]] :=
  upTo (s := t.span) (nil (Nat.le_add_right _ _)) h found.stands.fits fun _ =>
    ⟨found.start, Nat.le_refl _⟩

/-- One tree more in a node. -/
theorem longer (h : Laid text clean low mid [.node s trees])
    (h' : Laid text clean mid high [last]) :
    Laid text clean low high [.node (s.through last.span) (trees ++ [last])] :=
  h.opened.upTo h' h.head_fits h.head_inside

end Laid

end RuleDesk
