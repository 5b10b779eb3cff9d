import Mathlib.Data.List.Perm.Basic
import RuleDesk.Proofs.Parsing.Leaves

namespace RuleDesk

/-! ### The names of leaves -/

@[simp] theorem namesOf_nil : namesOf [] = [] := rfl

@[simp] theorem namesOf_mark (kind : Kind) (leaves : List Leaf) :
    namesOf (.mark kind :: leaves) = namesOf leaves := rfl

@[simp] theorem namesOf_place (kind : Kind) (span : Span) (leaves : List Leaf) :
    namesOf (.place kind span :: leaves) = namesOf leaves := rfl

@[simp] theorem namesOf_name (kind : Kind) (ident : Ident) (leaves : List Leaf) :
    namesOf (.name kind ident :: leaves) = (kind, ident) :: namesOf leaves := rfl

@[simp] theorem namesOf_separated (kind : Kind) (parts : List (List Leaf)) :
    namesOf (separated kind parts) = parts.flatMap namesOf := by
  induction parts with
  | nil => rfl
  | cons part rest ih =>
    cases rest with
    | nil => simp [separated]
    | cons second rest => simp only [separated, namesOf_append, namesOf_mark, ih, List.flatMap_cons]

/-- The names in some expressions. -/
def namesIn (es : List Expr) : List (Kind × Ident) := es.flatMap fun e => namesOf e.leaves

@[simp] theorem namesIn_nil : namesIn [] = [] := rfl

@[simp] theorem namesIn_cons (e : Expr) (es : List Expr) :
    namesIn (e :: es) = namesOf e.leaves ++ namesIn es := rfl

@[simp] theorem namesIn_append (es fs : List Expr) :
    namesIn (es ++ fs) = namesIn es ++ namesIn fs := List.flatMap_append

@[simp] theorem namesOf_leavesOfEach (es : List Expr) :
    (Expr.leavesOfEach es).flatMap namesOf = namesIn es := by
  induction es with
  | nil => rfl
  | cons e rest ih => rw [Expr.leavesOfEach, List.flatMap_cons, ih, namesIn_cons]

@[simp] theorem namesOf_leavesOfBounds (b : Bounds Expr) :
    namesOf (Expr.leavesOfBounds b) = namesIn b.parts := by
  cases b
  simp [Expr.leavesOfBounds, Bounds.parts]

@[simp] theorem namesOf_leavesOfRange (range : Option (Bounds Expr)) :
    namesOf (Expr.leavesOfRange range) = namesIn (range.elim [] Bounds.parts) := by
  cases range <;> simp [Expr.leavesOfRange]

@[simp] theorem namesOf_leavesOfIndex (index : Option Expr) :
    namesOf (Expr.leavesOfIndex index) = namesIn index.toList := by
  cases index <;> simp [Expr.leavesOfIndex]

@[simp] theorem namesOf_leavesOfAnchor (a : Anchor Expr) :
    namesOf (Expr.leavesOfAnchor a) = namesIn a.parts := by
  cases a <;> simp [Expr.leavesOfAnchor, Anchor.parts]

@[simp] theorem namesOf_leavesOfQuantifier (q : Quantifier Expr) :
    namesOf (Expr.leavesOfQuantifier q) = namesIn q.parts := by
  cases q <;> simp [Expr.leavesOfQuantifier, Quantifier.parts]

@[simp] theorem namesOf_leavesOfIterable (i : Iterable Expr) :
    namesOf (Expr.leavesOfIterable i) = namesIn i.parts := by
  cases i <;> simp [Expr.leavesOfIterable, Iterable.parts]

namespace Expr

/-- The expressions right inside of one, each with whether it stands in the body
of a loop over patterns. -/
def partsUnder (inForOf : Bool) : Expr → List (Bool × Expr)
  | forOf quantifier _ body _ => quantifier.parts.map (inForOf, ·) ++ [(true, body)]
  | e => e.parts.map (inForOf, ·)

theorem partsUnder_snd (b : Bool) (e : Expr) : (e.partsUnder b).map Prod.snd = e.parts := by
  cases e <;> simp [partsUnder, parts, Function.comp_def]

theorem mem_parts {b : Bool} {e : Expr} {p : Bool × Expr} (member : p ∈ e.partsUnder b) :
    p.2 ∈ e.parts :=
  partsUnder_snd b e ▸ List.mem_map_of_mem member

/-- Only the body of a loop over patterns stands otherwise than the whole does. -/
theorem partsUnder_cases {b : Bool} {e : Expr} {p : Bool × Expr} (member : p ∈ e.partsUnder b) :
    p.1 = b ∨ p.1 = true ∧ ∃ quantifier set span, e = .forOf quantifier set p.2 span := by
  have same : p ∈ e.parts.map (b, ·) → p.1 = b := fun inside => by
    obtain ⟨_, _, rfl⟩ := List.mem_map.mp inside
    rfl
  cases e with
  | forOf quantifier set body span =>
    rcases List.mem_append.mp member with inside | last
    · obtain ⟨_, _, rfl⟩ := List.mem_map.mp inside
      exact .inl rfl
    · obtain rfl := List.mem_singleton.mp last
      exact .inr ⟨rfl, quantifier, set, span, rfl⟩
  | _ => exact .inl (same member)

end Expr

/-! ### Mentions -/

/-- What a name in a condition is there for. A pattern may be asked with an
index, and the span of a wildcard goes on to its asterisk. -/
inductive Use
  | pattern (sigil : Sigil) (indexed : Bool)
  | wildcard (item : Span)
  | root
  | field
  | declared
  | rules

def Use.kind : Use → Kind
  | pattern sigil _ => .sigil sigil
  | wildcard _ => .sigil .identity
  | root | field | declared | rules => .ident

/-- A name in a condition, and whether it stands in the body of a loop over patterns. -/
structure Mention where
  use : Use
  ident : Ident
  inForOf : Bool

def Mention.named (m : Mention) : Kind × Ident := (m.use.kind, m.ident)

def SetItem.mention (inForOf : Bool) (i : SetItem) : Mention :=
  ⟨if i.wildcard then .wildcard i.span else .pattern .identity false, i.ident, inForOf⟩

/-- The items that are listed in a set. -/
def PatternSet.listed : PatternSet → List SetItem
  | .them _ => []
  | .items set => set

def OfItems.listed : OfItems Expr → List SetItem
  | .patterns set => set.listed
  | .tuple _ => []

/-- The items of the set of patterns that an expression counts or goes through. -/
def Expr.listed : Expr → List SetItem
  | of _ items _ _ => items.listed
  | forOf _ set _ _ => set.listed
  | _ => []

namespace Expr

/-- The names that an expression has apart from the expressions inside of it. -/
def ownMentions (inForOf : Bool) : Expr → List Mention
  | ident i => [⟨.root, i, inForOf⟩]
  | ruleWildcard i => [⟨.rules, i, inForOf⟩]
  | pattern i _ _ => [⟨.pattern .identity false, i, inForOf⟩]
  | count i _ _ => [⟨.pattern .count false, i, inForOf⟩]
  | offset i index _ => [⟨.pattern .offset index.isSome, i, inForOf⟩]
  | length i index _ => [⟨.pattern .length index.isSome, i, inForOf⟩]
  | field _ name _ => [⟨.field, name, inForOf⟩]
  | forIn _ vars _ _ _ => vars.map (⟨.declared, ·, inForOf⟩)
  | e => e.listed.map (·.mention inForOf)

/-- All the names of an expression. -/
def mentions (inForOf : Bool) (e : Expr) : List Mention :=
  e.ownMentions inForOf ++ (e.partsUnder inForOf).attach.flatMap fun p => p.1.2.mentions p.1.1
termination_by sizeOf e
decreasing_by exact sizeOf_part (mem_parts p.2)

theorem mentions_eq (b : Bool) (e : Expr) :
    e.mentions b = e.ownMentions b ++ (e.partsUnder b).flatMap fun p => p.2.mentions p.1 := by
  rw [mentions, List.flatMap_subtype (g := fun p : Bool × Expr => p.2.mentions p.1) fun _ _ => rfl,
    List.unattach_attach]

theorem mem_mentions {b : Bool} {e : Expr} {m : Mention} :
    m ∈ e.mentions b ↔ m ∈ e.ownMentions b ∨ ∃ p ∈ e.partsUnder b, m ∈ p.2.mentions p.1 := by
  rw [mentions_eq, List.mem_append, List.mem_flatMap]

/-- The names of some expressions that stand alike. -/
def mentionsIn (inForOf : Bool) (es : List Expr) : List Mention := es.flatMap (·.mentions inForOf)

@[simp] theorem mentionsIn_nil (b : Bool) : mentionsIn b [] = [] := rfl

@[simp] theorem mentionsIn_cons (b : Bool) (e : Expr) (es : List Expr) :
    mentionsIn b (e :: es) = e.mentions b ++ mentionsIn b es := rfl

@[simp] theorem mentionsIn_singleton (b : Bool) (e : Expr) : mentionsIn b [e] = e.mentions b :=
  List.flatMap_singleton ..

@[simp] theorem mentionsIn_append (b : Bool) (es fs : List Expr) :
    mentionsIn b (es ++ fs) = mentionsIn b es ++ mentionsIn b fs :=
  List.flatMap_append

theorem mentions_forOf (b : Bool) (quantifier : Quantifier Expr) (set : PatternSet) (body : Expr)
    (span : Span) :
    (forOf quantifier set body span).mentions b =
      set.listed.map (·.mention b) ++ (mentionsIn b quantifier.parts ++ body.mentions true) := by
  rw [mentions_eq, partsUnder, List.flatMap_append, List.flatMap_map, List.flatMap_singleton]
  rfl

/-- All other expressions stand as those inside of them do. -/
theorem mentions_parts (b : Bool) {e : Expr} (under : e.partsUnder b = e.parts.map (b, ·)) :
    e.mentions b = e.ownMentions b ++ mentionsIn b e.parts := by
  rw [mentions_eq, under, List.flatMap_map]
  rfl

theorem namesOf_set (b : Bool) (set : PatternSet) :
    namesOf set.leaves = (set.listed.map (·.mention b)).map Mention.named := by
  cases set with
  | them => rfl
  | items items =>
    simp only [PatternSet.leaves, PatternSet.listed, namesOf_mark, namesOf_append,
      namesOf_separated, namesOf_nil, List.append_nil, List.map_map]
    induction items with
    | nil => rfl
    | cons item rest ih =>
      rw [List.map_cons, List.flatMap_cons, ih, List.map_cons]
      refine congrArg (· ++ _) (?_ : namesOf item.leaves = [(item.mention b).named])
      unfold SetItem.leaves SetItem.mention
      cases item.wildcard <;> rfl

/-- The names of an expression are its own and those of the expressions inside. -/
theorem namesOf_leaves (b : Bool) (e : Expr) :
    (namesOf e.leaves).Perm ((e.ownMentions b).map Mention.named ++ namesIn e.parts) := by
  cases e with
  | field object name s =>
    simp only [leaves, parts, namesOf_append, namesOf_mark, namesOf_name, namesOf_nil, namesIn_cons,
      namesIn_nil, List.append_nil]
    exact List.perm_append_comm
  | of q items anchor s =>
    cases items with
    | patterns set =>
      simp only [leaves, leavesOfItems, parts, OfItems.parts, namesOf_append, namesOf_mark,
        namesOf_leavesOfQuantifier,
        namesOf_leavesOfAnchor, namesIn_append, List.nil_append, namesOf_set b]
      exact List.perm_append_comm_assoc ..
    | tuple items =>
      simp [leaves, leavesOfItems, parts, OfItems.parts, ownMentions, listed, OfItems.listed]
  | forOf q set body s =>
    simp only [leaves, parts, namesOf_append, namesOf_mark, namesOf_leavesOfQuantifier,
      namesIn_append, namesIn_cons, namesIn_nil, List.append_nil, namesOf_set b]
    exact List.perm_append_comm_assoc ..
  | forIn q vars iterable body s =>
    have declared : (vars.map fun i => [Leaf.name .ident i]).flatMap namesOf =
        (vars.map fun i => (⟨.declared, i, b⟩ : Mention)).map Mention.named := by
      simp [List.flatMap_map, ← List.map_eq_flatMap, Mention.named, Use.kind, Function.comp_def]
    simp only [leaves, parts, namesOf_append, namesOf_mark, namesOf_leavesOfQuantifier,
      namesOf_separated, namesOf_leavesOfIterable,
      namesIn_append, namesIn_cons, namesIn_nil, List.append_nil, declared]
    exact List.perm_append_comm_assoc ..
  | _ => simp [leaves, parts, ownMentions, listed, Mention.named, Use.kind]

/-- The names of an expression, each one once. -/
theorem mentions_names (b : Bool) (e : Expr) :
    ((e.mentions b).map Mention.named).Perm (namesOf e.leaves) := by
  induction e using inductParts generalizing b with
  | step e ih =>
    rw [mentions_eq, List.map_append, List.map_flatMap]
    refine .trans (List.Perm.append_left _ ?_) (namesOf_leaves b e).symm
    have each : ∀ p ∈ e.partsUnder b,
        ((p.2.mentions p.1).map Mention.named).Perm (namesOf p.2.leaves) := fun p member =>
      ih p.2 (mem_parts member) p.1
    rw [namesIn, ← partsUnder_snd b e, List.flatMap_map]
    exact List.Perm.flatMap_left _ each

/-! ### Where a name stands -/

theorem Contains.mentions {e f : Expr} (h : e.Contains f) (b : Bool) :
    ∃ b', f.mentions b' ⊆ e.mentions b := by
  induction h generalizing b with
  | whole e => exact ⟨b, List.Subset.refl _⟩
  | @part e part f member inside ih =>
    rw [← partsUnder_snd b e] at member
    obtain ⟨p, known, rfl⟩ := List.mem_map.mp member
    obtain ⟨b', within⟩ := ih p.1
    exact ⟨b', fun m found => mem_mentions.mpr (.inr ⟨p, known, within found⟩)⟩

theorem ownMentions_inForOf {b : Bool} {e : Expr} {m : Mention} (own : m ∈ e.ownMentions b) :
    m.inForOf = b := by
  have listed : m ∈ e.listed.map (·.mention b) → m.inForOf = b := fun member => by
    obtain ⟨_, _, rfl⟩ := List.mem_map.mp member
    rfl
  cases e with
  | forIn quantifier vars iterable body span =>
    obtain ⟨_, _, rfl⟩ := List.mem_map.mp own
    rfl
  | atom | integer | group | lookup | call | unary | binary | of | forOf | error => exact listed own
  | _ =>
    obtain rfl := List.mem_singleton.mp own
    rfl

theorem wildcard_of_own {b : Bool} {e : Expr} {m : Mention} (own : m ∈ e.ownMentions b)
    {item : Span} (use : m.use = .wildcard item) :
    ∃ i ∈ e.listed, i.wildcard = true ∧ i.span = item ∧ i.ident = m.ident := by
  have listed : m ∈ e.listed.map (·.mention b) → ∃ i ∈ e.listed, i.wildcard = true ∧ i.span = item ∧
      i.ident = m.ident := by
    intro member
    obtain ⟨i, known, rfl⟩ := List.mem_map.mp member
    unfold SetItem.mention at use ⊢
    cases wildcard : i.wildcard with
    | false =>
      rw [wildcard] at use
      cases use
    | true =>
      rw [wildcard] at use
      exact ⟨i, known, wildcard, Use.wildcard.inj use, rfl⟩
  cases e with
  | forIn quantifier vars iterable body span =>
    obtain ⟨_, _, rfl⟩ := List.mem_map.mp own
    cases use
  | atom | integer | group | lookup | call | unary | binary | of | forOf | error => exact listed own
  | _ =>
    obtain rfl := List.mem_singleton.mp own
    cases use

theorem own_of_wildcard (b : Bool) {e : Expr} {i : SetItem} (member : i ∈ e.listed)
    (wildcard : i.wildcard = true) :
    ⟨.wildcard i.span, i.ident, b⟩ ∈ e.ownMentions b := by
  have same : i.mention b = ⟨.wildcard i.span, i.ident, b⟩ := by
    rw [SetItem.mention, wildcard, if_pos rfl]
  cases e with
  | of | forOf => exact same ▸ List.mem_map_of_mem member
  | _ => cases member

/-- A name is one expression's own, of one that stands in the whole. -/
theorem own_of_mentions {b : Bool} {e : Expr} {m : Mention} (member : m ∈ e.mentions b) :
    ∃ f, e.Contains f ∧ m ∈ f.ownMentions m.inForOf := by
  induction e using inductParts generalizing b with
  | step e ih =>
    rcases mem_mentions.mp member with own | ⟨p, known, inside⟩
    · exact ⟨e, .whole e, ownMentions_inForOf own ▸ own⟩
    · obtain ⟨f, contains, own⟩ := ih p.2 (mem_parts known) inside
      exact ⟨f, .part (mem_parts known) contains, own⟩

/-- What stands in the body of a loop over patterns stays there. -/
theorem mentions_inForOf {e : Expr} {m : Mention} (member : m ∈ e.mentions true) :
    m.inForOf = true := by
  induction e using inductParts with
  | step e ih =>
    rcases mem_mentions.mp member with own | ⟨p, known, inside⟩
    · exact ownMentions_inForOf own
    · have still : p.1 = true := (partsUnder_cases known).elim id And.left
      exact ih p.2 (mem_parts known) (still ▸ inside)

/-- A name that does not stand as the whole does stands in the body of a loop over patterns. -/
theorem body_of_mentions {b : Bool} {e : Expr} {m : Mention} (member : m ∈ e.mentions b) :
    m.inForOf = b ∨
    ∃ quantifier set body span, e.Contains (.forOf quantifier set body span) ∧
      m ∈ body.mentions true := by
  induction e using inductParts generalizing b with
  | step e ih =>
    rcases mem_mentions.mp member with own | ⟨p, known, inside⟩
    · exact .inl (ownMentions_inForOf own)
    rcases partsUnder_cases known with same | ⟨inBody, quantifier, set, span, rfl⟩
    · rcases ih p.2 (mem_parts known) inside
        with as | ⟨quantifier, set, body, span, contains, inBody⟩
      · exact .inl (as.trans same)
      · exact .inr ⟨quantifier, set, body, span, .part (mem_parts known) contains, inBody⟩
    · exact .inr ⟨quantifier, set, p.2, span, .whole _, inBody ▸ inside⟩

/-- The names in the body of a loop over patterns that stands in an expression. -/
theorem Contains.body {e body : Expr} {quantifier : Quantifier Expr} {set : PatternSet}
    {span : Span}
    (h : e.Contains (.forOf quantifier set body span)) (b : Bool) {name : Kind × Ident}
    (named : name ∈ namesOf body.leaves) :
    ∃ m ∈ e.mentions b, m.named = name ∧ m.inForOf = true := by
  obtain ⟨m, inside, rfl⟩ := List.mem_map.mp ((mentions_names true body).mem_iff.mpr named)
  obtain ⟨b', within⟩ := h.mentions b
  refine ⟨m, within (mem_mentions.mpr (.inr ⟨(true, body), ?_, inside⟩)), rfl,
    mentions_inForOf inside⟩
  exact List.mem_append_right _ (List.mem_singleton_self _)

end Expr

/-- The names in the condition of a rule. -/
def Rule.mentions (r : Rule) : List Mention := r.condition.elim [] (Expr.mentions false)

theorem Rule.mentions_names (r : Rule) :
    (r.mentions.map Mention.named).Perm (r.condition.elim [] fun e => namesOf e.leaves) := by
  unfold Rule.mentions
  cases r.condition with
  | none => exact .nil
  | some e => exact e.mentions_names false

theorem Rule.mentions_spans (r : Rule) :
    (r.mentions.map (·.ident.span)).Perm
      ((r.condition.elim [] fun e => namesOf e.leaves).map (·.2.span)) := by
  have same := r.mentions_names.map (·.2.span)
  rwa [List.map_map] at same

end RuleDesk
