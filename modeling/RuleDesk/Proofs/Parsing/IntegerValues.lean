import RuleDesk.Proofs.Parsing.Origins

namespace RuleDesk

/-! ## Integers and their values

An integer counts as what it says when that is below 2 ^ 63. Otherwise it
counts as zero, and there is one error about it. -/

/-! ### The integers among leaves -/

/-- Integers among some leaves are leaves of some expressions. -/
def IntegersIn (leaves : List Leaf) (parts : List Expr) : Prop :=
  ∀ l ∈ leaves, l.kind = .integer → ∃ e ∈ parts, l ∈ e.leaves

namespace IntegersIn

variable {leaves more : List Leaf} {parts others : List Expr} {l : Leaf} {kind : Kind}

theorem nil : IntegersIn [] parts := nofun

theorem cons (other : l.kind ≠ .integer) (h : IntegersIn leaves parts) :
    IntegersIn (l :: leaves) parts :=
  List.forall_mem_cons.mpr ⟨fun kind => absurd kind other, h⟩

theorem one (e : Expr) : IntegersIn e.leaves [e] :=
  fun _ member _ => ⟨e, List.mem_singleton_self e, member⟩

theorem widen (h : IntegersIn leaves parts) (wider : parts ⊆ others) :
    IntegersIn leaves others := by
  intro l member kind
  obtain ⟨e, inside, leaf⟩ := h l member kind
  exact ⟨e, wider inside, leaf⟩

theorem append (h : IntegersIn leaves parts) (h' : IntegersIn more others) :
    IntegersIn (leaves ++ more) (parts ++ others) :=
  List.forall_mem_append.mpr ⟨h.widen (List.subset_append_left ..),
    h'.widen (List.subset_append_right ..)⟩

/-- A token behind some others. -/
theorem concat (h : IntegersIn leaves parts) (last : l.kind ≠ .integer) :
    IntegersIn (leaves ++ [l]) parts :=
  List.forall_mem_append.mpr ⟨h, cons last nil⟩

theorem separated (between : kind ≠ .integer) {lists : List (List Leaf)}
    (h : ∀ list ∈ lists, IntegersIn list parts) :
    IntegersIn (separated kind lists) parts := by
  induction lists with
  | nil => exact nil
  | cons list lists ih =>
    obtain ⟨first, rest⟩ := List.forall_mem_cons.mp h
    cases lists with
    | nil => exact first
    | cons => exact List.forall_mem_append.mpr ⟨first, cons between (ih rest)⟩

theorem each (between : kind ≠ .integer) (es : List Expr) :
    IntegersIn (RuleDesk.separated kind (Expr.leavesOfEach es)) es := by
  refine separated between ?_
  induction es with
  | nil => exact nofun
  | cons e es ih =>
    refine List.forall_mem_cons.mpr ⟨(one e).widen (List.cons_subset_cons e (List.nil_subset es)),
      fun list member => ?_⟩
    exact (ih list member).widen (List.subset_cons_self e es)

theorem tuple (es : List Expr) : IntegersIn (.mark (.symbol .lparen) ::
    (RuleDesk.separated (.symbol .comma) (Expr.leavesOfEach es) ++ [.mark (.symbol .rparen)])) es :=
  cons nofun ((each (by nofun) es).concat nofun)

theorem bounds (b : Bounds Expr) : IntegersIn (Expr.leavesOfBounds b) b.parts := by
  obtain ⟨span, lower, upper⟩ := b
  exact cons nofun ((one lower).append (cons nofun (cons nofun ((one upper).concat nofun))))

theorem index (o : Option Expr) : IntegersIn (Expr.leavesOfIndex o) o.toList := by
  cases o with
  | none => exact nil
  | some e => exact cons nofun ((one e).concat nofun)

theorem anchor (a : Anchor Expr) : IntegersIn (Expr.leavesOfAnchor a) a.parts := by
  cases a with
  | anywhere => exact nil
  | «at» e => exact cons nofun (one e)
  | within b => exact cons nofun (bounds b)

theorem quantifier (q : Quantifier Expr) : IntegersIn (Expr.leavesOfQuantifier q) q.parts := by
  cases q with
  | none | all | any => exact cons nofun nil
  | percentage e => exact (one e).concat nofun
  | count e => exact one e

theorem set (s : PatternSet) : IntegersIn s.leaves [] := by
  cases s with
  | them s => exact cons nofun nil
  | items set =>
    refine cons nofun ((separated (by nofun) (List.forall_mem_map.mpr fun i _ => ?_)).concat nofun)
    unfold SetItem.leaves
    split
    · exact cons nofun (cons nofun nil)
    · exact cons nofun nil

theorem items (i : OfItems Expr) : IntegersIn (Expr.leavesOfItems i) i.parts := by
  cases i with
  | patterns s => exact set s
  | tuple es => exact tuple es

theorem iterable (i : Iterable Expr) : IntegersIn (Expr.leavesOfIterable i) i.parts := by
  cases i with
  | range b => exact bounds b
  | tuple es => exact tuple es
  | value e => exact one e

end IntegersIn

namespace Expr

open IntegersIn

/-- An integer is one of the leaves of the parts, unless it is the whole. -/
theorem integers_in_parts {e : Expr} (plain : ∀ v span, e ≠ .integer v span) :
    IntegersIn e.leaves e.parts := by
  cases e with
  | atom kind s => cases kind <;> exact cons nofun nil
  | integer v s => exact absurd rfl (plain v s)
  | ident i => exact cons nofun nil
  | ruleWildcard i => exact cons nofun (cons nofun nil)
  | pattern i a s => exact cons nofun (anchor a)
  | count i range s =>
    cases range with
    | none => exact cons nofun nil
    | some b => exact cons nofun (cons nofun (bounds b))
  | offset i o s => exact cons nofun (index o)
  | length i o s => exact cons nofun (index o)
  | field object name s => exact (one object).append (cons nofun (cons nofun nil))
  | lookup object o s => exact (one object).append (cons nofun ((one o).concat nofun))
  | call callee args s => exact (one callee).append (tuple args)
  | group inner s => exact cons nofun ((one inner).concat nofun)
  | unary op operand s => exact cons (by cases op <;> exact nofun) (one operand)
  | binary op operands s => exact each (by cases op <;> exact nofun) operands
  | of q i a s => exact (quantifier q).append (cons nofun ((items i).append (anchor a)))
  | forOf q s body span =>
    exact cons nofun ((quantifier q).append (cons nofun ((set s).append (cons nofun (one body)))))
  | forIn q vars i body s =>
    have names :
      IntegersIn (RuleDesk.separated (.symbol .comma) (vars.map fun i => [.name .ident i])) [] :=
      IntegersIn.separated (by nofun) (List.forall_mem_map.mpr fun _ _ => cons (by nofun) nil)
    exact cons nofun ((quantifier q).append
      (names.append (cons nofun ((iterable i).append (cons nofun (one body))))))
  | error s => exact nil

/-- Each integer among the leaves of a tree has its node there. -/
theorem integer_of_leaf (e : Expr) {l : Leaf} (member : l ∈ e.leaves) (kind : l.kind = .integer) :
    ∃ v span, l = .place .integer span ∧ e.Contains (.integer v span) := by
  induction e using inductParts with
  | step e ih =>
    by_cases whole : ∃ v span, e = .integer v span
    · obtain ⟨v, span, rfl⟩ := whole
      exact ⟨v, span, List.mem_singleton.mp member, .whole _⟩
    · obtain ⟨part, inside, leaf⟩ :=
        integers_in_parts (fun v span same => whole ⟨v, span, same⟩) l member kind
      obtain ⟨v, span, place, contains⟩ := ih part inside leaf
      exact ⟨v, span, place, .part inside contains⟩

end Expr

/-! ### What an integer counts as -/

/-- The errors about the value of an integer at a place. -/
def valueErrorsAt (text : List Char) (span : Span) : List SyntaxError :=
  (parse text).errors.filter fun e => e.fault.isOfValue && e.span == span

/-- An integer that is read counts as a number in the tree of a text: as what it
says, or as zero when that does not fit. Then one error points at it. -/
structure Token.CountsAs (text : List Char) (t : Token) (v : Nat) : Prop where
  read : t ∈ (finalState text).read
  kind : t.kind = .integer
  exact : ∃ n, IsLiteral t.text n ∧ v = (if n < 0x8000000000000000 then n else 0) ∧
    valueErrorsAt text t.span = if n < 0x8000000000000000 then []
        else [⟨.invalidInteger t.name, t.span⟩]

/-- The value of an entry is the number of an integer right behind its equals
sign, or behind a sign there. -/
def MetaEntry.EndsIn (text : List Char) (m : MetaEntry) (t : Token) (v : Nat) : Prop :=
  ∃ name equal, name.kind = .ident ∧ m.ident = Parser.identOf name ∧ equal.kind = .symbol .equal ∧
    (m.value = .integer v ∧ [name, equal, t] <:+: (finalState text).read.reverse ∨
      ∃ hyphen, hyphen.kind = .symbol .hyphen ∧ m.value = .integer (-v) ∧
        [name, equal, hyphen, t] <:+: (finalState text).read.reverse)

/-- The integers in a rule are integers of the text, and no value overflows. -/
structure Rule.IntegersCount (text : List Char) (r : Rule) : Prop where
  condition : ∀ e, r.condition = some e → ∀ v span, e.Contains (.integer v span) → ∃ t :
      Token, t.span = span ∧ t.CountsAs text v
  metas : ∀ m ∈ r.metas, ∀ v, m.value = .integer v → (-0x8000000000000000 < v ∧
      v < 0x8000000000000000) ∧ ∃ t n, m.EndsIn text t n ∧ t.CountsAs text n

/-- The integers of the text in the sections of a rule are integers in the rule. -/
structure Rule.IntegersKept (text : List Char) (r : Rule) : Prop where
  condition : ∃ e s held, r.condition = some e ∧ r.sections.filter (·.kind == .condition) = [s] ∧
    s.Holds text held ∧
    ∀ t ∈ held, t.kind = .integer → ∃ v, e.Contains (.integer v t.span) ∧ t.CountsAs text v
  metas : ∀ s ∈ r.sections, s.kind = .metas → ∃ held, s.Holds text held ∧
    ∀ t ∈ held, t.kind = .integer → ∃ m ∈ r.metas, ∃ v, m.EndsIn text t v ∧ t.CountsAs text v

section

variable {text : List Char} {r : Rule} {m : MetaEntry} {t : Token} {v : Nat} {tokens : List Token}

theorem Token.Evaluates.countsAs (h : t.Evaluates text (parse text).errors v)
    (read : t ∈ (finalState text).read) : t.CountsAs text v := by
  obtain ⟨n, literal⟩ := h.literal
  have errors := (parse_valueErrors text).filter_eq h.toIsInteger h.reported
  have value := h.value
  rw [literal.value?] at errors value
  refine ⟨read, h.kind, n, literal, ?_, ?_⟩
  · by_cases fits : n < 0x8000000000000000
    · rw [value, unsigned63?_eq_some fits, if_pos fits]
      rfl
    · rw [value, unsigned63?_eq_none (Nat.not_lt.mp fits), if_neg fits]
      rfl
  · rw [valueErrorsAt, errors]
    by_cases fits : n < 0x8000000000000000
    · rw [unsigned63?_eq_some fits, if_pos fits, if_neg (Option.some_ne_none n)]
    · rw [unsigned63?_eq_none (Nat.not_lt.mp fits), if_neg fits, if_pos rfl]
      rfl

theorem Token.CountsAs.lt (h : t.CountsAs text v) : v < 0x8000000000000000 := by
  obtain ⟨n, _, rfl, _⟩ := h.exact
  split
  · assumption
  · decide

/-- An entry that is read ends in the integer among its tokens. -/
theorem MetaEntry.ReadFrom.endsIn {part : List Token} (h : m.ReadFrom text (parse text).errors part)
    (inside : part <:+: (finalState text).read.reverse) (member : t ∈ part)
    (kind : t.kind = .integer) :
    ∃ n, m.EndsIn text t n ∧ t.CountsAs text n := by
  obtain ⟨name, equal, value, rfl, isName, isEqual, ident, read⟩ := h
  have among : t ∈ (finalState text).read := List.mem_reverse.mp (inside.subset member)
  have last : t ∈ value := by
    rcases List.mem_cons.mp member with rfl | member
    · cases isName.symm.trans kind
    rcases List.mem_cons.mp member with rfl | member
    · cases isEqual.symm.trans kind
    · exact member
  generalize same : m.value = w at read
  cases read with
  | @integer u n evaluates =>
    obtain rfl := List.mem_singleton.mp last
    exact ⟨n, ⟨name, equal, isName, ident, isEqual, .inl ⟨same, inside⟩⟩, evaluates.countsAs among⟩
  | @negative hyphen u n isHyphen evaluates =>
    rcases List.mem_pair.mp last with rfl | rfl
    · cases isHyphen.symm.trans kind
    · exact ⟨n, ⟨name, equal, isName, ident, isEqual, .inr ⟨hyphen, isHyphen, same, inside⟩⟩,
        evaluates.countsAs among⟩
  | other _ none => exact absurd kind (none t last)

theorem MetaEntry.ReadFrom.integer {part : List Token} {n : Int}
    (h : m.ReadFrom text (parse text).errors part) (same : m.value = .integer n) :
    ∃ t ∈ part, t.kind = .integer := by
  obtain ⟨name, equal, value, rfl, _, _, _, read⟩ := h
  have integer : ∃ t ∈ value, t.kind = .integer := by
    generalize m.value = w at read same
    cases read with
    | integer evaluates => exact ⟨_, List.mem_singleton_self _, evaluates.kind⟩
    | negative _ evaluates =>
      exact ⟨_, List.mem_cons_of_mem _ (List.mem_singleton_self _), evaluates.kind⟩
    | other plain => exact absurd same (plain n)
  exact integer.imp fun t found =>
    ⟨List.mem_cons_of_mem _ (List.mem_cons_of_mem _ found.1), found.2⟩

theorem Rule.Valued.integersCount (h :
    r.Valued text (parse text).errors (finalState text).read.reverse) : r.IntegersCount text := by
  refine ⟨fun e condition v span inside => ?_, fun m member v same => ?_⟩
  · obtain ⟨t, among, place, evaluates⟩ := h.condition e condition v span inside
    exact ⟨t, place, evaluates.countsAs (List.mem_reverse.mp among)⟩
  · obtain ⟨part, inside, read⟩ := h.metas m member
    obtain ⟨t, among, kind⟩ := read.integer same
    obtain ⟨n, ends, counts⟩ := read.endsIn inside among kind
    refine ⟨?_, t, n, ends, counts⟩
    have small := counts.lt
    obtain ⟨name, equal, _, _, _, ⟨value, _⟩ | ⟨_, _, value, _⟩⟩ := ends
    all_goals
      cases same.symm.trans value
      omega

/-- What a section holds stands in the text. -/
theorem RuleSection.Holds.standsAt {s : RuleSection} (h : s.Holds text tokens)
    (member : t ∈ tokens) : StandsAt text t.start t.text := by
  obtain ⟨rest, keyword, colon, further, dropped, solid, _⟩ := h
  obtain ⟨front, rfl, width⟩ := dropBytes?_eq_some dropped
  refine Cursor.Reaches.standsAt_of_solid (c := ⟨.normal, s.span.start, rest⟩) ⟨front, rfl, ?_⟩ ?_
  · exact width.symm.trans (Nat.zero_add _).symm
  · rw [solid]
    exact List.mem_cons_of_mem _ (List.mem_cons_of_mem _ (List.mem_append_left _ member))

theorem Leaf.of_token {leaves : List Leaf} (stand : List.Forall₂ Leaf.Stands leaves tokens)
    (member : t ∈ tokens) :
    ∃ l ∈ leaves, l.Stands t := by
  induction stand with
  | nil => cases member
  | @cons l u _ _ stands _ ih =>
    rcases List.mem_cons.mp member with rfl | later
    · exact ⟨l, List.mem_cons_self, stands⟩
    · exact (ih later).imp fun l found => ⟨List.mem_cons_of_mem _ found.1, found.2⟩

theorem Rule.Valued.integersKept
    (h : r.Valued text (parse text).errors (finalState text).read.reverse)
    (grammatical : Grammatical (parse text).errors) {e : Expr} {s : RuleSection}
    (stands : r.Stands text e s) : r.IntegersKept text := by
  obtain ⟨held, holds, all⟩ := stands.leaves
  refine ⟨⟨e, s, held, stands.condition, stands.sole, holds, fun t member kind => ?_⟩,
    fun s member isMetas => ?_⟩
  · obtain ⟨l, among, stands'⟩ := Leaf.of_token all member
    obtain ⟨v, span, rfl, contains⟩ := e.integer_of_leaf among (stands'.kind.symm.trans kind)
    obtain ⟨u, read, place, evaluates⟩ := h.condition e stands.condition v span contains
    obtain rfl :=
      Token.eq_of_span (kind.trans evaluates.kind.symm) (holds.standsAt member) evaluates.stands
      (stands'.2.trans place.symm)
    exact ⟨v, stands'.2 ▸ contains, evaluates.countsAs (List.mem_reverse.mp read)⟩
  · have found : s ∈ r.sections.filter (·.kind == .metas) :=
      List.mem_filter.mpr ⟨member, beq_iff_eq.mpr isMetas⟩
    rcases h.entries grammatical with ⟨_, none⟩ | ⟨s', reads, sole, metas, holds', inside, read⟩
    · rw [none] at found
      cases found
    · rw [sole] at found
      obtain rfl := List.mem_singleton.mp found
      refine ⟨_, holds', fun t member kind => ?_⟩
      obtain ⟨x, among, part⟩ := List.mem_flatMap.mp member
      have within : x.2 <:+: (finalState text).read.reverse := by
        rw [List.flatMap_def] at inside
        exact (List.infix_of_mem_flatten (List.mem_map_of_mem among)).trans inside
      exact ⟨x.1, metas ▸ List.mem_map_of_mem among, (read x among).endsIn within part kind⟩

end

/-- The integers of a text count as what they say. Whatever the text is, each
integer in a condition or in an entry of a `meta` section comes from a literal,
which it is equal to if that is below 2 ^ 63. Otherwise it is zero, and there is
one error that points at the literal; there are no other errors about integers.
If the text is as the grammar asks, apart from such errors, then all the integers
that are written in conditions and entries are in the tree. -/
theorem integers_count (text : List Char) :
    (∀ r ∈ (parse text).rules, r.IntegersCount text) ∧
      (∀ e ∈ (parse text).errors, e.fault.isOfValue → ∃ (t : Token) (n : Nat), t.kind = .integer ∧
        StandsAt text t.start t.text ∧ IsLiteral t.text n ∧ 0x8000000000000000 ≤ n ∧
          e = ⟨.invalidInteger t.name, t.span⟩) ∧
      (Grammatical (parse text).errors → ∀ r ∈ (parse text).rules, r.IntegersKept text) := by
  obtain ⟨tokens, d, walk, all, known⟩ := parse_reads_all text
  have valued : ∀ r ∈ (parse text).rules,
      r.Valued text (parse text).errors (finalState text).read.reverse := by
    rw [all, List.reverse_reverse]
    exact known.valued
  refine ⟨fun r member => (valued r member).integersCount, fun e member ofValue => ?_,
    fun grammatical r member => ?_⟩
  · obtain ⟨t, integer, overflow, same, _⟩ := (parse_valueErrors text).overflow e member ofValue
    obtain ⟨n, literal⟩ := integer.literal
    rw [literal.value?] at overflow
    refine ⟨t, n, integer.kind, integer.stands, literal, Nat.not_lt.mp fun fits => ?_, same⟩
    cases (unsigned63?_eq_some fits).symm.trans overflow
  · obtain ⟨t, inside, _, missing | ⟨e, s, stands⟩⟩ := known.stands grammatical r member
    · exact absurd missing (walk.nonempty t inside)
    · exact (valued r member).integersKept grammatical stands

/-- Two literals are just too large. One counts without the sign before it, the
other with its unit. -/
def overflowingRule : List Char :=
  ("rule a \x7b meta: x = -9223372036854775808 " ++
    "condition: 0xF < 1KB or 9007199254740992KB > 0 \x7d").toList

example : (parse overflowingRule).errors.map (·.fault) =
    [.invalidInteger "9223372036854775808", .invalidInteger "9007199254740992KB"] ∧
    ((parse overflowingRule).rules.flatMap (·.metas)).map (·.value) = [.integer 0] := by
  decide +kernel

end RuleDesk
