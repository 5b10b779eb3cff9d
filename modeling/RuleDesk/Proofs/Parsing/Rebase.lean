import RuleDesk.Parse.Rule

namespace RuleDesk

/-- How a text is seen when it is compared with another one: its offsets are
shifted where one text is a part of the other, or all of them are forgotten,
and the names at some of its places are spelled anew. -/
structure View where
  offset : Nat → Nat
  name : Span → String → String

namespace View

/-- The view in which all names stay and the offsets are changed. -/
def of (f : Nat → Nat) : View := ⟨f, fun _ name => name⟩

def KeepsNames (v : View) : Prop := ∀ span name, v.name span name = name

theorem of_keepsNames (f : Nat → Nat) : (of f).KeepsNames := fun _ _ => rfl

end View

def Span.rebase (v : View) (s : Span) : Span := ⟨v.offset s.start, v.offset s.stop⟩

def Ident.rebase (v : View) (i : Ident) : Ident := ⟨v.name i.span i.name, i.span.rebase v⟩

def SetItem.rebase (v : View) (i : SetItem) : SetItem :=
  { i with span := i.span.rebase v, ident := i.ident.rebase v }

def PatternSet.rebase (v : View) : PatternSet → PatternSet
  | .them s => .them (s.rebase v)
  | .items set => .items (set.map (·.rebase v))

mutual

def Expr.rebase (v : View) : Expr → Expr
  | .atom kind s => .atom kind (s.rebase v)
  | .integer value s => .integer value (s.rebase v)
  | .ident i => .ident (i.rebase v)
  | .ruleWildcard i => .ruleWildcard (i.rebase v)
  | .pattern i anchor s => .pattern (i.rebase v) (rebaseAnchor v anchor) (s.rebase v)
  | .count i range s => .count (i.rebase v) (rebaseRange v range) (s.rebase v)
  | .offset i index s => .offset (i.rebase v) (rebaseIndex v index) (s.rebase v)
  | .length i index s => .length (i.rebase v) (rebaseIndex v index) (s.rebase v)
  | .field object name s => .field (object.rebase v) (name.rebase v) (s.rebase v)
  | .lookup object index s => .lookup (object.rebase v) (index.rebase v) (s.rebase v)
  | .call callee args s => .call (callee.rebase v) (rebaseAll v args) (s.rebase v)
  | .group inner s => .group (inner.rebase v) (s.rebase v)
  | .unary op operand s => .unary op (operand.rebase v) (s.rebase v)
  | .binary op operands s => .binary op (rebaseAll v operands) (s.rebase v)
  | .of quantifier items anchor s =>
    .of (rebaseQuantifier v quantifier) (rebaseItems v items) (rebaseAnchor v anchor) (s.rebase v)
  | .forOf quantifier set body s =>
    .forOf (rebaseQuantifier v quantifier) (set.rebase v) (body.rebase v) (s.rebase v)
  | .forIn quantifier vars iterable body s =>
    .forIn (rebaseQuantifier v quantifier) (vars.map (·.rebase v)) (rebaseIterable v iterable)
      (body.rebase v) (s.rebase v)
  | .error s => .error (s.rebase v)

def Expr.rebaseAll (v : View) : List Expr → List Expr
  | [] => []
  | e :: rest => e.rebase v :: rebaseAll v rest

def Expr.rebaseBounds (v : View) : Bounds Expr → Bounds Expr
  | ⟨s, lower, upper⟩ => ⟨s.rebase v, lower.rebase v, upper.rebase v⟩

def Expr.rebaseRange (v : View) : Option (Bounds Expr) → Option (Bounds Expr)
  | none => none
  | some bounds => some (rebaseBounds v bounds)

def Expr.rebaseIndex (v : View) : Option Expr → Option Expr
  | none => none
  | some e => some (e.rebase v)

def Expr.rebaseAnchor (v : View) : Anchor Expr → Anchor Expr
  | .anywhere => .anywhere
  | .at e => .at (e.rebase v)
  | .within bounds => .within (rebaseBounds v bounds)

def Expr.rebaseQuantifier (v : View) : Quantifier Expr → Quantifier Expr
  | .none s => .none (s.rebase v)
  | .all s => .all (s.rebase v)
  | .any s => .any (s.rebase v)
  | .percentage e => .percentage (e.rebase v)
  | .count e => .count (e.rebase v)

def Expr.rebaseItems (v : View) : OfItems Expr → OfItems Expr
  | .patterns set => .patterns (set.rebase v)
  | .tuple items => .tuple (rebaseAll v items)

def Expr.rebaseIterable (v : View) : Iterable Expr → Iterable Expr
  | .range bounds => .range (rebaseBounds v bounds)
  | .tuple items => .tuple (rebaseAll v items)
  | .value e => .value (e.rebase v)

end

def MetaEntry.rebase (v : View) (m : MetaEntry) : MetaEntry :=
  { m with span := m.span.rebase v, ident := m.ident.rebase v }

def Modifier.rebase (v : View) (m : Modifier) : Modifier := { m with span := m.span.rebase v }

def Pattern.rebase (v : View) (p : Pattern) : Pattern where
  span := p.span.rebase v
  ident := p.ident.rebase v
  kind := p.kind
  value := p.value.rebase v
  modifiers := p.modifiers.map (·.rebase v)

def RuleSection.rebase (v : View) (s : RuleSection) : RuleSection :=
  { s with keyword := s.keyword.rebase v, span := s.span.rebase v }

def Rule.rebase (v : View) (r : Rule) : Rule where
  isPrivate := r.isPrivate
  isGlobal := r.isGlobal
  ident := r.ident.rebase v
  tags := r.tags.map (·.rebase v)
  metas := r.metas.map (·.rebase v)
  patterns := r.patterns.map (·.rebase v)
  condition := r.condition.map (·.rebase v)
  sections := r.sections.map (·.rebase v)
  lbrace := r.lbrace.map (·.rebase v)
  rbrace := r.rbrace.map (·.rebase v)
  span := r.span.rebase v

def Import.rebase (v : View) (i : Import) : Import :=
  { i with span := i.span.rebase v, nameSpan := i.nameSpan.rebase v }

def Include.rebase (v : View) (i : Include) : Include := { i with span := i.span.rebase v }

def SyntaxFault.rebase (v : View) : SyntaxFault → SyntaxFault
  | duplicatePattern ident existing => duplicatePattern ident (existing.rebase v)
  | fault => fault

def SyntaxError.rebase (v : View) (e : SyntaxError) : SyntaxError :=
  ⟨e.fault.rebase v, e.span.rebase v⟩

def SourceFile.rebase (v : View) (file : SourceFile) : SourceFile where
  imports := file.imports.map (·.rebase v)
  includes := file.includes.map (·.rebase v)
  rules := file.rules.map (·.rebase v)
  errors := file.errors.map (·.rebase v)

namespace Expr

theorem rebaseAll_append (v : View) (a b : List Expr) :
    rebaseAll v (a ++ b) = rebaseAll v a ++ rebaseAll v b := by
  induction a with
  | nil => rfl
  | cons e rest ih => rw [List.cons_append, rebaseAll, rebaseAll, ih, List.cons_append]

theorem rebase_span (v : View) (e : Expr) : (e.rebase v).span = e.span.rebase v := by
  cases e <;> rfl

/-- The operator and the operands of a binary expression. -/
def operands? : Expr → Option (BinaryOp × List Expr)
  | binary op operands _ => some (op, operands)
  | _ => none

theorem rebase_operands? (v : View) (e : Expr) :
    (e.rebase v).operands? = e.operands?.map fun (op, operands) => (op, rebaseAll v operands) := by
  cases e <;> rfl

theorem append?_eq (lhs : Expr) (op : BinaryOp) (rhs : Expr) :
    lhs.append? op rhs = lhs.operands?.bind fun (op', operands) =>
      if op' = op then some (binary op (operands ++ [rhs]) (lhs.span.through rhs.span))
        else none := by
  cases lhs <;> rfl

end Expr

theorem rebaseQuantifier_span (v : View) (q : Quantifier Expr) :
    (Expr.rebaseQuantifier v q).span = q.span.rebase v := by
  cases q with
  | none | all | any => rfl
  | percentage e | count e => exact e.rebase_span v

/-! ### The view in which nothing changes -/

/-- Texts seen as they are. -/
def View.same : View := .of id

theorem View.same_keepsNames : same.KeepsNames := of_keepsNames id

theorem View.same_ends {a b c d : Nat} (first : View.same.offset a = View.same.offset c)
    (second : View.same.offset b = View.same.offset d) :
    View.same.offset (max a b) = View.same.offset (max c d) := by
  obtain rfl : a = c := first
  obtain rfl : b = d := second
  rfl

theorem View.same_unnamed (span : Span) (name : String) :
    (View.same.name span name = "" ↔ name = "") ∧ (View.same.name span name = "$" ↔ name = "$") :=
  ⟨Iff.rfl, Iff.rfl⟩

theorem View.shifted_ends {n a b c d : Nat}
    (first : (View.of (· + n)).offset a = View.same.offset c)
    (second : (View.of (· + n)).offset b = View.same.offset d) :
    (View.of (· + n)).offset (max a b) = View.same.offset (max c d) := by
  dsimp only [View.same, View.of, id] at first second ⊢
  rw [← first, ← second, Nat.add_max_add_right]

theorem View.shifted_unnamed (n : Nat) (span : Span) (name : String) :
    ((View.of (· + n)).name span name = "" ↔ name = "") ∧
      ((View.of (· + n)).name span name = "$" ↔ name = "$") := ⟨Iff.rfl, Iff.rfl⟩

@[simp] theorem Span.rebase_same (s : Span) : s.rebase .same = s := rfl

@[simp] theorem Ident.rebase_same (i : Ident) : i.rebase .same = i := rfl

theorem map_rebase_same {rebase : α → α} (h : ∀ a, rebase a = a) (list : List α) :
    list.map rebase = list := by
  rw [funext h]
  exact List.map_id list

theorem option_rebase_same {rebase : α → α} (h : ∀ a, rebase a = a) (o : Option α) :
    o.map rebase = o := by
  rw [funext h]
  exact congrFun Option.map_id o

@[simp] theorem PatternSet.rebase_same (s : PatternSet) : s.rebase .same = s := by
  cases s with
  | them span => rfl
  | items set => exact congrArg items (map_rebase_same (fun _ => rfl) set)

mutual

theorem Expr.rebase_same : ∀ e : Expr, e.rebase .same = e
  | .atom _ _ | .integer _ _ | .ident _ | .ruleWildcard _ | .error _ => rfl
  | .pattern i anchor s => by
    simp only [Expr.rebase, Expr.rebaseAnchor_same anchor, Ident.rebase_same, Span.rebase_same]
  | .count i range s => by
    simp only [Expr.rebase, Expr.rebaseRange_same range, Ident.rebase_same, Span.rebase_same]
  | .offset i index s => by
    simp only [Expr.rebase, Expr.rebaseIndex_same index, Ident.rebase_same, Span.rebase_same]
  | .length i index s => by
    simp only [Expr.rebase, Expr.rebaseIndex_same index, Ident.rebase_same, Span.rebase_same]
  | .field object name s => by
    simp only [Expr.rebase, Expr.rebase_same object, Ident.rebase_same, Span.rebase_same]
  | .lookup object index s => by
    simp only [Expr.rebase, Expr.rebase_same object, Expr.rebase_same index, Span.rebase_same]
  | .call callee args s => by
    simp only [Expr.rebase, Expr.rebase_same callee, Expr.rebaseAll_same args, Span.rebase_same]
  | .group inner s => by simp only [Expr.rebase, Expr.rebase_same inner, Span.rebase_same]
  | .unary op operand s => by simp only [Expr.rebase, Expr.rebase_same operand, Span.rebase_same]
  | .binary op operands s => by
    simp only [Expr.rebase, Expr.rebaseAll_same operands, Span.rebase_same]
  | .of quantifier items anchor s => by
    simp only [Expr.rebase, Expr.rebaseQuantifier_same quantifier, Expr.rebaseItems_same items,
      Expr.rebaseAnchor_same anchor, Span.rebase_same]
  | .forOf quantifier set body s => by
    simp only [Expr.rebase, Expr.rebaseQuantifier_same quantifier, PatternSet.rebase_same,
      Expr.rebase_same body, Span.rebase_same]
  | .forIn quantifier vars iterable body s => by
    simp only [Expr.rebase, Expr.rebaseQuantifier_same quantifier,
      map_rebase_same Ident.rebase_same vars,
      Expr.rebaseIterable_same iterable, Expr.rebase_same body, Span.rebase_same]

theorem Expr.rebaseAll_same : ∀ es : List Expr, Expr.rebaseAll .same es = es
  | [] => rfl
  | e :: rest => by simp only [Expr.rebaseAll, Expr.rebase_same e, Expr.rebaseAll_same rest]

theorem Expr.rebaseBounds_same : ∀ b : Bounds Expr, Expr.rebaseBounds .same b = b
  | ⟨s, lower, upper⟩ => by
    simp only [Expr.rebaseBounds, Expr.rebase_same lower, Expr.rebase_same upper, Span.rebase_same]

theorem Expr.rebaseRange_same : ∀ o : Option (Bounds Expr), Expr.rebaseRange .same o = o
  | none => rfl
  | some b => congrArg some (Expr.rebaseBounds_same b)

theorem Expr.rebaseIndex_same : ∀ o : Option Expr, Expr.rebaseIndex .same o = o
  | none => rfl
  | some e => congrArg some (Expr.rebase_same e)

theorem Expr.rebaseAnchor_same : ∀ a : Anchor Expr, Expr.rebaseAnchor .same a = a
  | .anywhere => rfl
  | .at e => congrArg Anchor.at (Expr.rebase_same e)
  | .within b => congrArg Anchor.within (Expr.rebaseBounds_same b)

theorem Expr.rebaseQuantifier_same : ∀ q : Quantifier Expr, Expr.rebaseQuantifier .same q = q
  | .none _ | .all _ | .any _ => rfl
  | .percentage e => congrArg Quantifier.percentage (Expr.rebase_same e)
  | .count e => congrArg Quantifier.count (Expr.rebase_same e)

theorem Expr.rebaseItems_same : ∀ i : OfItems Expr, Expr.rebaseItems .same i = i
  | .patterns set => congrArg OfItems.patterns set.rebase_same
  | .tuple items => congrArg OfItems.tuple (Expr.rebaseAll_same items)

theorem Expr.rebaseIterable_same : ∀ i : Iterable Expr, Expr.rebaseIterable .same i = i
  | .range b => congrArg Iterable.range (Expr.rebaseBounds_same b)
  | .tuple items => congrArg Iterable.tuple (Expr.rebaseAll_same items)
  | .value e => congrArg Iterable.value (Expr.rebase_same e)

end

theorem Pattern.rebase_same (p : Pattern) : p.rebase .same = p := by
  simp only [rebase, map_rebase_same (fun _ => rfl : ∀ m : Modifier, m.rebase .same = m),
    Ident.rebase_same, Span.rebase_same]

theorem Rule.rebase_same (r : Rule) : r.rebase .same = r := by
  simp only [rebase, Ident.rebase_same, Span.rebase_same, List.map_id', Option.map_id',
    map_rebase_same (fun _ => rfl : ∀ m : MetaEntry, m.rebase .same = m),
      map_rebase_same Pattern.rebase_same,
    option_rebase_same Expr.rebase_same,
      map_rebase_same (fun _ => rfl : ∀ s : RuleSection, s.rebase .same = s)]

theorem SyntaxError.rebase_same (e : SyntaxError) : e.rebase .same = e := by
  obtain ⟨fault, span⟩ := e
  cases fault <;> rfl

theorem SourceFile.rebase_same (file : SourceFile) : file.rebase .same = file := by
  simp only [rebase, map_rebase_same (fun _ => rfl : ∀ i : Import, i.rebase .same = i),
    map_rebase_same (fun _ => rfl : ∀ i : Include, i.rebase .same = i),
      map_rebase_same Rule.rebase_same,
    map_rebase_same SyntaxError.rebase_same]

end RuleDesk
