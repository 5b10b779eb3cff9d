import Mathlib.Data.List.Pairwise
import RuleDesk.Proofs.Indexing.Places
import RuleDesk.Proofs.Parsing.Enclosed
import RuleDesk.Proofs.Parsing.FileFrames

namespace RuleDesk

/-! ## Trees inside of trees -/

namespace Expr

variable {P : SpanTree → Prop}

theorem everywhere_each (es : List Expr) (h : ∀ t ∈ treesOfEach es, t.Everywhere P) :
    ∀ part ∈ es, part.tree.Everywhere P := by
  induction es with
  | nil => exact nofun
  | cons e rest ih =>
    obtain ⟨first, later⟩ := List.forall_mem_cons.mp h
    exact List.forall_mem_cons.mpr ⟨first, ih later⟩

theorem everywhere_bounds {b : Bounds Expr} (h : (treeOfBounds b).Everywhere P) :
    ∀ part ∈ b.parts, part.tree.Everywhere P := by
  cases b with
  | mk s lower upper => exact everywhere_each [lower, upper] h.inv.2

theorem everywhere_anchor {a : Anchor Expr} (h : ∀ t ∈ treesOfAnchor a, t.Everywhere P) :
    ∀ part ∈ a.parts, part.tree.Everywhere P := by
  cases a with
  | anywhere => exact nofun
  | «at» e => exact everywhere_each [e] h
  | within b => exact everywhere_bounds (h _ (List.mem_singleton_self _))

theorem everywhere_quantifier {q : Quantifier Expr} (h : (treeOfQuantifier q).Everywhere P) :
    ∀ part ∈ q.parts, part.tree.Everywhere P := by
  cases q with
  | none | all | any => exact nofun
  | percentage e | count e => exact List.forall_mem_singleton.mpr h

/-- What holds everywhere in a tree holds in the expressions inside. -/
theorem everywhere_part {e : Expr} (h : e.tree.Everywhere P) :
    ∀ part ∈ e.parts, part.tree.Everywhere P := by
  have inside := h.inv.2
  cases e with
  | atom | integer | ident | ruleWildcard | error => exact nofun
  | pattern i anchor s => exact everywhere_anchor (List.forall_mem_cons.mp inside).2
  | count i range s =>
    cases range with
    | none => exact nofun
    | some b =>
      exact everywhere_bounds (inside _ (List.mem_cons_of_mem _ (List.mem_singleton_self _)))
  | offset i index s | length i index s =>
    cases index with
    | none => exact nofun
    | some e => exact everywhere_each [e] (List.forall_mem_cons.mp inside).2
  | field object name s => exact List.forall_mem_singleton.mpr (inside _ (List.mem_cons_self ..))
  | lookup object index s => exact everywhere_each [object, index] inside
  | call callee args s => exact everywhere_each (callee :: args) inside
  | group inner s => exact everywhere_each [inner] inside
  | unary op operand s => exact everywhere_each [operand] inside
  | binary op operands s => exact everywhere_each operands inside
  | of q items anchor s =>
    obtain ⟨first, rest⟩ := List.forall_mem_cons.mp inside
    obtain ⟨second, third⟩ := List.forall_mem_append.mp rest
    refine List.forall_mem_append.mpr
      ⟨everywhere_quantifier first, List.forall_mem_append.mpr ⟨?_, everywhere_anchor third⟩⟩
    cases items with
    | patterns set => exact nofun
    | tuple items => exact everywhere_each items second
  | forOf q set body s =>
    obtain ⟨first, rest⟩ := List.forall_mem_cons.mp inside
    exact List.forall_mem_append.mpr
      ⟨everywhere_quantifier first, everywhere_each [body] (List.forall_mem_append.mp rest).2⟩
  | forIn q vars iterable body s =>
    obtain ⟨first, rest⟩ := List.forall_mem_cons.mp inside
    obtain ⟨second, third⟩ := List.forall_mem_append.mp (List.forall_mem_append.mp rest).2
    refine List.forall_mem_append.mpr
      ⟨everywhere_quantifier first, List.forall_mem_append.mpr ⟨?_, everywhere_each [body] third⟩⟩
    cases iterable with
    | range b => exact everywhere_bounds (second _ (List.mem_singleton_self _))
    | tuple items => exact everywhere_each items second
    | value e => exact everywhere_each [e] second

theorem Contains.everywhere {e f : Expr} (contains : e.Contains f) (h : e.tree.Everywhere P) :
    f.tree.Everywhere P := by
  induction contains with
  | whole => exact h
  | part member _ ih => exact ih (everywhere_part h _ member)

theorem everywhere_listed {e : Expr} (h : e.tree.Everywhere P) :
    ∀ i ∈ e.listed, i.tree.Everywhere P := by
  have set_trees : ∀ set : PatternSet, (∀ t ∈ set.trees, t.Everywhere P) → ∀ i ∈ set.listed,
      i.tree.Everywhere P := by
    intro set all
    cases set with
    | them => exact nofun
    | items set => exact fun i member => all _ (List.mem_map_of_mem member)
  have inside := h.inv.2
  cases e with
  | of q items anchor s =>
    cases items with
    | patterns set =>
      exact set_trees set (List.forall_mem_append.mp (List.forall_mem_cons.mp inside).2).1
    | tuple items => exact nofun
  | forOf q set body s =>
    exact set_trees set (List.forall_mem_append.mp (List.forall_mem_cons.mp inside).2).1
  | _ => exact nofun

/-- The name of a wildcard stands inside of the wildcard. -/
theorem wildcard_inside {e : Expr} (h : e.tree.Everywhere SpanTree.Nested) {b : Bool} {m : Mention}
    (member : m ∈ e.mentions b)
    {item : Span} (use : m.use = .wildcard item) : item.start ≤ m.ident.span.start ∧
    m.ident.span.stop ≤ item.stop := by
  obtain ⟨f, contains, own⟩ := own_of_mentions member
  obtain ⟨i, listed, _, rfl, same⟩ := wildcard_of_own own use
  rw [← same]
  exact (everywhere_listed (contains.everywhere h) i listed).inv.1.inside _
    (List.mem_singleton_self _)

end Expr

/-! ## Names in conditions -/

section

variable {text : List Char} {i j : Nat} {r q : Rule} {m m' : Mention}

theorem mention_nonempty (place : (parse text).rules[i]? = some r) (member : m ∈ r.mentions) :
    m.ident.span.start < m.ident.span.stop :=
  (names_apart text).2 _
    (List.mem_flatMap.mpr ⟨r, List.mem_of_getElem? place, Document.mention_name member⟩)

/-- The names in the conditions of a text stand apart: one is at a place at most. -/
theorem mention_unique (place : (parse text).rules[i]? = some r)
    (place' : (parse text).rules[j]? = some q) (member : m ∈ r.mentions)
    (member' : m' ∈ q.mentions) (together : ¬ m.ident.span.Apart m'.ident.span) :
    i = j ∧ m = m' := by
  obtain ⟨each, across⟩ := List.pairwise_flatMap.mp (names_apart text).1
  have same : i = j := by
    by_contra other
    obtain ⟨inside, rfl⟩ := List.getElem?_eq_some_iff.mp place
    obtain ⟨inside', rfl⟩ := List.getElem?_eq_some_iff.mp place'
    have apart := List.pairwise_iff_getElem.mp across
    rcases Nat.lt_or_gt_of_ne other with before | behind
    · exact together (apart i j inside inside' before _ (Document.mention_name member) _
        (Document.mention_name member'))
    · exact together (apart j i inside' inside behind _ (Document.mention_name member') _
        (Document.mention_name member)).symm
  refine ⟨same, ?_⟩
  subst same
  obtain rfl := Option.some.inj (place.symm.trans place')
  have names := (each r (List.mem_of_getElem? place)).sublist
    ((List.sublist_append_right _ _).trans (List.sublist_append_right _ _))
  have apart := List.pairwise_map.mp ((r.mentions_names.pairwise_iff fun h => h.symm).mpr names)
  have symm : Std.Symm fun m m' : Mention => m.named.2.span.Apart m'.named.2.span :=
    ⟨fun _ _ => Span.Apart.symm⟩
  by_contra other
  exact together (apart.forall member member' other)

end

/-- A rule has one section for its condition, which has some tokens. The
condition stands for them. -/
structure Rule.Reads (text : List Char) (r : Rule) (e : Expr) (tokens : List Token) : Prop where
  condition : r.condition = some e
  holds : ∃ s, r.sections.filter (·.kind == .condition) = [s] ∧ s.Holds text tokens
  stand : List.Forall₂ Leaf.Stands e.leaves tokens

/-- The name in front of the asterisk of a wildcard. -/
def Expr.HasWildcard (e : Expr) (t : Token) : Prop :=
  ∃ f, e.Contains f ∧ ∃ i ∈ f.listed, i.wildcard = true ∧ i.ident = Parser.identOf t

/-- A name in the body of a loop over patterns. -/
def Expr.HasInForOf (e : Expr) (t : Token) : Prop :=
  ∃ quantifier set body span, e.Contains (.forOf quantifier set body span) ∧
    t.named ∈ namesOf body.leaves

/-- What the names in a condition say of one of its tokens. -/
structure Mention.Of (m : Mention) (r : Rule) (e : Expr) (t : Token) : Prop where
  member : m ∈ r.mentions
  named : m.named = t.named
  wildcard : (∃ item, m.use = .wildcard item) ↔ e.HasWildcard t
  inForOf : m.inForOf = true ↔ e.HasInForOf t

section

variable {text : List Char} {i : Nat} {r : Rule} {e : Expr} {tokens : List Token} {m : Mention}
    {t : Token}

theorem Mention.Of.ident (h : m.Of r e t) : m.ident = Parser.identOf t := congrArg Prod.snd h.named

theorem Mention.Of.kind (h : m.Of r e t) : m.use.kind = t.kind := congrArg Prod.fst h.named

/-- A token that asks for a pattern is not that of a wildcard. -/
theorem Mention.Of.plain (h : m.Of r e t) {sigil : Sigil} {indexed : Bool}
    (use : m.use = .pattern sigil indexed) :
    ¬ e.HasWildcard t := fun wildcard => by
  obtain ⟨item, other⟩ := h.wildcard.mpr wildcard
  cases use.symm.trans other

theorem condition_reads (clean : (parse text).errors = []) (member : r ∈ (parse text).rules) :
    ∃ e tokens, r.Reads text e tokens := by
  obtain ⟨read, d, walk, known⟩ := parse_reads text
  obtain ⟨t, inside, _, missing | ⟨e, s, stands⟩⟩ := known.stands (clean ▸ .nil) r member
  · exact absurd missing (walk.nonempty t inside)
  · obtain ⟨tokens, holds, stand⟩ := stands.leaves
    exact ⟨e, tokens, stands.condition, ⟨s, stands.sole, holds⟩, stand⟩

theorem Rule.Reads.mentions (h : r.Reads text e tokens) : r.mentions = e.mentions false := by
  rw [Rule.mentions, h.condition]
  rfl

/-- A name is the only one at its place. -/
theorem mention_eq (place : (parse text).rules[i]? = some r) {m' : Mention}
    (member : m ∈ r.mentions) (member' : m' ∈ r.mentions) (same : m.ident = m'.ident) : m = m' := by
  refine (mention_unique place place member member' fun apart => ?_).2
  rw [← same] at apart
  exact Nat.not_lt_of_le (or_self_iff.mp apart) (mention_nonempty place member)

theorem Rule.Reads.mention_of (h : r.Reads text e tokens) (place : (parse text).rules[i]? = some r)
    (member : m ∈ r.mentions) (named : m.named = t.named) : m.Of r e t := by
  have ident : m.ident = Parser.identOf t := congrArg Prod.snd named
  refine ⟨member, named,
    ⟨fun ⟨item, use⟩ => ?_, fun ⟨f, contains, i, listed, wildcard, same⟩ => ?_⟩, fun inBody => ?_,
    fun ⟨quantifier, set, body, span, contains, inBody⟩ => ?_⟩
  · obtain ⟨f, contains, own⟩ := Expr.own_of_mentions (h.mentions ▸ member)
    obtain ⟨i, listed, wildcard, _, same⟩ := Expr.wildcard_of_own own use
    exact ⟨f, contains, i, listed, wildcard, same.trans ident⟩
  · obtain ⟨b, within⟩ := contains.mentions false
    have own := within (Expr.mem_mentions.mpr (.inl (Expr.own_of_wildcard b listed wildcard)))
    rw [← h.mentions] at own
    exact ⟨i.span, congrArg Mention.use (mention_eq place member own (ident.trans same.symm))⟩
  · rcases Expr.body_of_mentions (h.mentions ▸ member)
      with outside | ⟨quantifier, set, body, span, contains, inside⟩
    · exact nomatch outside.symm.trans inBody
    · refine ⟨quantifier, set, body, span, contains, ?_⟩
      exact named ▸ (Expr.mentions_names true body).mem_iff.mp (List.mem_map_of_mem inside)
  · obtain ⟨m', inside, named', still⟩ := contains.body false inBody
    have same : m.ident = m'.ident := congrArg Prod.snd (named.trans named'.symm)
    rw [mention_eq place member (h.mentions ▸ inside) same]
    exact still

/-- The tokens of a condition that may be names are its names. -/
theorem Rule.Reads.exists_mention (h : r.Reads text e tokens)
    (place : (parse text).rules[i]? = some r) (member : t ∈ tokens)
    (name : t.kind.isName) : ∃ m : Mention, m.Of r e t := by
  have named := Leaf.AllInTree.named h.stand e.leaves_inTree member name
  obtain ⟨m, inside, same⟩ := List.mem_map.mp ((e.mentions_names false).mem_iff.mpr named)
  exact ⟨m, h.mention_of place (h.mentions ▸ inside) same⟩

theorem Rule.Reads.exists_token (h : r.Reads text e tokens)
    (place : (parse text).rules[i]? = some r) (member : m ∈ r.mentions) :
    ∃ t ∈ tokens, m.Of r e t := by
  have named := (e.mentions_names false).mem_iff.mp (List.mem_map_of_mem (h.mentions ▸ member))
  obtain ⟨t, inside, same⟩ := Leaf.token_of_name h.stand named
  exact ⟨t, inside, h.mention_of place member same.symm⟩

end

end RuleDesk
