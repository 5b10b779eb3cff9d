import RuleDesk.Proofs.Indexing.Conditions
import RuleDesk.Proofs.Indexing.Occurrences

namespace RuleDesk

/-! ## Patterns and their names -/

/-- Patterns of which no two have the same name, unless they are anonymous. -/
def NamesApart (ps : List Pattern) : Prop := ps.Pairwise fun p q => p.ident.name = "$" ∨
  p.ident.name ≠ q.ident.name

namespace Parser

theorem keepPattern_apart {ps : List Pattern} (h : NamesApart ps) (p : Pattern) :
    (keepPattern ps p).Gives NamesApart := by
  have added : (∀ q ∈ ps, q.ident.name = "$" ∨ q.ident.name ≠ p.ident.name) →
      NamesApart (ps ++ [p]) := fun other =>
    List.pairwise_append.mpr ⟨h, List.pairwise_singleton _ _, fun q member _ last =>
      List.mem_singleton.mp last ▸ other q member⟩
  unfold keepPattern
  split
  · rename_i anonymous
    exact .pure (added fun q _ => or_iff_not_imp_left.mpr fun named same =>
      named (same.trans (beq_iff_eq.mp anonymous)))
  cases found : ps.find? (·.ident.name == p.ident.name) with
  | some q => exact .bind fun _ => .pure h
  | none =>
    exact .pure (added fun q member => .inr fun same =>
      List.find?_eq_none.mp found q member (beq_iff_eq.mpr same))

theorem sectionContent_apart (kind : SectionKind) (duplicate : Bool) (r : Rule)
    (h : NamesApart r.patterns) :
    (sectionContent kind duplicate r).Gives (NamesApart ·.patterns) := by
  cases kind with
  | metas => exact .bind fun _ => .pure h
  | strings =>
    have loop : (iterate patternStep r.patterns).Gives NamesApart :=
      .iterate (fun _ apart => Lockstep.patternStep_gives apart (keepPattern_apart apart)) h
    exact loop.after fun _ apart => .pure apart
  | condition =>
    refine .bind fun e => .pure ?_
    cases duplicate with
    | true => exact h
    | false => exact h

end Parser

theorem parse_names_apart (text : List Char) : ∀ r ∈ (parse text).rules, NamesApart r.patterns :=
  parse_rules_give
    (Parser.Gives.ofContents Parser.sectionContent_apart (fun r none _ => by rw [none]; exact .nil)
    fun r q same _ h => by rw [same]; exact h) text

section

variable {text : List Char} {r : Rule}

/-- Only one pattern of a rule has a name behind its sigil. -/
theorem pattern_unique (member : r ∈ (parse text).rules) {n m : Nat} {p q : Pattern}
    (place : r.patterns[n]? = some p)
    (place' : r.patterns[m]? = some q) (same : bareName p.ident.name = bareName q.ident.name)
    (named : bareName p.ident.name ≠ "") :
    n = m := by
  have name : ∀ {n : Nat} {p : Pattern}, r.patterns[n]? = some p →
      ∃ bare, p.ident.name = String.ofList ('$' :: bare) ∧
      bareName p.ident.name = String.ofList bare := fun place => by
    have among : (.sigil .identity, _) ∈ r.names :=
      List.mem_append_right _
        (List.mem_append_left _ (List.mem_map_of_mem (List.mem_of_getElem? place)))
    obtain ⟨bare, known⟩ := name_pattern member among
    exact ⟨bare, known.name, known.bareName⟩
  obtain ⟨bare, full, behind⟩ := name place
  obtain ⟨bare', full', behind'⟩ := name place'
  obtain rfl : bare = bare' := String.ofList_inj.mp (behind.symm.trans (same.trans behind'))
  have distinct : ∀ {i j : Nat} {a b : Pattern}, i < j → r.patterns[i]? = some a →
      r.patterns[j]? = some b →
      a.ident.name = String.ofList ('$' :: bare) → b.ident.name ≠ String.ofList ('$' :: bare) := by
    intro i j a b less first second named_so same
    obtain ⟨inside, rfl⟩ := List.getElem?_eq_some_iff.mp first
    obtain ⟨inside', rfl⟩ := List.getElem?_eq_some_iff.mp second
    rcases List.pairwise_iff_getElem.mp (parse_names_apart text r member) i j inside inside' less
      with anonymous | other
    · have empty : '$' :: bare = ['$'] := String.ofList_inj.mp (named_so.symm.trans anonymous)
      obtain rfl := (List.cons.inj empty).2
      exact named behind
    · exact other (named_so.trans same.symm)
  rcases Nat.lt_trichotomy n m with less | same | less
  · exact (distinct less place place' full full').elim
  · exact same
  · exact (distinct less place' place full' full).elim

/-- A pattern of a rule has the name behind the sigil of another one. -/
def Rule.Declares (r : Rule) (n : Nat) (name : String) : Prop :=
  ∃ p, r.patterns[n]? = some p ∧ bareName p.ident.name = bareName name

/-- The pattern that is found by a name is the one that there is. -/
theorem patternNamed?_iff (member : r ∈ (parse text).rules) (d : Document) {n : Nat} {name : String}
    (named : bareName name ≠ "") :
    patternNamed? (r.patterns.map d.patternSymbol) name = some n ↔ r.Declares n name := by
  have declared : ∀ {n : Nat}, patternNamed? (r.patterns.map d.patternSymbol) name = some n →
      r.Declares n name := fun found => by
    obtain ⟨_, place, same, _⟩ := patternNamed?_some found
    obtain ⟨p, inside, rfl⟩ := Option.map_eq_some_iff.mp (List.getElem?_map ▸ place)
    exact ⟨p, inside, same⟩
  refine ⟨declared, fun ⟨p, place, same⟩ => ?_⟩
  cases found : patternNamed? (r.patterns.map d.patternSymbol) name with
  | some m =>
    obtain ⟨q, place', same'⟩ := declared found
    exact congrArg some (pattern_unique member place' place (same'.trans same.symm) (same' ▸ named))
  | none =>
    rw [patternNamed?, if_neg fun empty => named (beq_iff_eq.mp empty),
      List.findIdx?_eq_none_iff] at found
    have missing := found (d.patternSymbol p) (List.mem_map_of_mem (List.mem_of_getElem? place))
    exact (beq_eq_false_iff_ne.mp missing same).elim

end

/-! ## The occurrences and the errors at names -/

/-- What an identifier may be where a chain starts. -/
def OccurrenceKind.AtRoot : OccurrenceKind → Prop
  | variableReference _ | moduleReference .. | ruleReference _ => True
  | _ => False

namespace Mention.Yields

variable {rule : Nat} {patterns : List PatternSymbol} {vars : List LoopVariable} {m : Mention}
  {os os' : List Occurrence} {errors errors' : List Diagnostic} {d : Diagnostic}

/-- An error is reported at the name or around it. -/
theorem error_around (h : m.Yields rule patterns vars os errors) (member : d ∈ errors) :
    d.span = m.ident.span ∨ m.use = .wildcard d.span := by
  cases h with
  | anonymous =>
    exact .inl (congrArg Diagnostic.span
      (List.mem_singleton.mp (List.mem_ite_nil_left.mp member).2))
  | pattern =>
    exact .inl (congrArg Diagnostic.span
      (List.mem_singleton.mp (List.mem_ite_nil_right.mp member).2))
  | wildcard =>
    obtain rfl := List.mem_singleton.mp (List.mem_ite_nil_left.mp member).2
    exact .inr rfl
  | _ => cases member

/-- The errors at the name of a pattern depend on the name only. -/
theorem errors_eq (h : m.Yields rule patterns vars os errors)
    (h' : m.Yields rule patterns vars os' errors') {sigil : Sigil}
    {indexed : Bool} (use : m.use = .pattern sigil indexed) : errors = errors' := by
  obtain ⟨_, i, inForOf⟩ := m
  cases use
  cases h with
  | anonymous nameless =>
    cases h' with
    | anonymous => rfl
    | pattern named => exact absurd nameless named
  | pattern named =>
    cases h' with
    | anonymous nameless => exact absurd nameless named
    | pattern => rfl

/-- Patterns are said to be unknown at their names. -/
theorem unknown (h : m.Yields rule patterns vars os errors) (member : d ∈ errors)
    (code : d.code = some "unknown_pattern") :
    ∃ sigil indexed, m.use = .pattern sigil indexed ∧ bareName m.ident.name ≠ "" ∧
      d.span = m.ident.span := by
  cases h with
  | anonymous | wildcard =>
    obtain rfl := List.mem_singleton.mp (List.mem_ite_nil_left.mp member).2
    cases code
  | @pattern sigil indexed _ _ named =>
    obtain rfl := List.mem_singleton.mp (List.mem_ite_nil_right.mp member).2
    exact ⟨sigil, indexed, rfl, named, rfl⟩
  | _ => cases member

end Mention.Yields

namespace DocumentIndex

/-- The occurrences at a place. -/
def occurrencesAt (x : DocumentIndex) (s : Span) : List Occurrence :=
  x.occurrences.filter (·.span == s)

theorem mem_diagnostics {d : Document} {catalog : Catalog} {order : Nat} {e : Diagnostic} :
    e ∈ (d.index catalog order).diagnostics ↔ e ∈ (d.found catalog).diagnostics :=
  (List.mergeSort_perm _ _).mem_iff

namespace Read

variable {x : DocumentIndex} {i : Nat} {r : Rule} {m : Mention} {e : Expr} {t : Token}
    {d : Diagnostic}

/-- An occurrence is the only one at its place. -/
theorem occurrencesAt (h : x.Read) {o : Occurrence} (member : o ∈ x.occurrences) :
    x.occurrencesAt o.span = [o] := by
  obtain ⟨ordered, wide⟩ := h.ordered
  obtain ⟨before, later, split⟩ := List.append_of_mem member
  rw [split] at ordered
  obtain ⟨_, behind, front⟩ := List.pairwise_append.mp ordered
  have here := wide o member
  have earlier : ∀ u ∈ before, ¬ (u.span == o.span) = true := fun u inside same => by
    have ends := front u inside o (List.mem_cons_self ..)
    rw [beq_iff_eq.mp same] at ends
    exact Nat.not_lt_of_le ends here
  have after : ∀ u ∈ later, ¬ (u.span == o.span) = true := fun u inside same => by
    have starts := (List.pairwise_cons.mp behind).1 u inside
    rw [beq_iff_eq.mp same] at starts
    exact Nat.not_lt_of_le starts here
  rw [DocumentIndex.occurrencesAt, split, List.filter_append, List.filter_eq_nil_iff.mpr earlier,
    @List.filter_cons_of_pos _ (·.span == o.span) o later (beq_self_eq_true _),
      List.filter_eq_nil_iff.mpr after, List.nil_append]

/-- What a name yields is all there is at the name. -/
theorem told (h : x.Read) (place : x.document.file.rules[i]? = some r) (member : m ∈ r.mentions) :
    ∃ os errors, m.Yields i (r.patterns.map x.document.patternSymbol) x.loopVars os errors ∧
      (∀ o ∈ os, x.occurrencesAt o.span = [o]) ∧ errors ⊆ x.diagnostics := by
  have read := h
  obtain ⟨uri, version, text, catalog, order, rfl⟩ := h
  obtain ⟨os, errors, yields, occur, report⟩ :=
    ((Document.ofText uri version text).found_foundIn catalog).mentioned i r place m member
  exact ⟨os, errors, yields, fun o inside =>
    read.occurrencesAt (mem_occurrences.mpr (occur inside)),
    fun d inside => mem_diagnostics.mpr (report inside)⟩

/-- The errors in a text that parses come from the names in its conditions. -/
theorem reported (h : x.Read) (clean : x.document.file.errors = []) (known : d ∈ x.diagnostics) :
    ∃ (i : Nat) (r : Rule) (m : Mention) (os : List Occurrence) (errors : List Diagnostic),
      x.document.file.rules[i]? = some r ∧
      m ∈ r.mentions ∧ m.Yields i (r.patterns.map x.document.patternSymbol) x.loopVars os errors ∧
        d ∈ errors := by
  obtain ⟨uri, version, text, catalog, order, rfl⟩ := h
  rcases ((Document.ofText uri version text).found_foundIn catalog).reported d
    (mem_diagnostics.mp known) with
    syntactic | ⟨i, r, place, m, member, os, errors, yields, from_it⟩
  · rw [Document.syntaxDiagnostics, show (Document.ofText uri version text).file.errors = []
      from clean] at syntactic
    cases syntactic
  · exact ⟨i, r, m, os, errors, place, member, yields, from_it⟩

/-- An error at a name comes from this name. -/
theorem reported_at (h : x.Read) (clean : x.document.file.errors = [])
    (place : x.document.file.rules[i]? = some r)
    (member : m ∈ r.mentions) (known : d ∈ x.diagnostics) (span : d.span = m.ident.span) :
    ∃ os errors, m.Yields i (r.patterns.map x.document.patternSymbol) x.loopVars os errors ∧
      d ∈ errors := by
  obtain ⟨j, q, m', os, errors, place', member', yields, from_it⟩ := h.reported clean known
  obtain ⟨uri, version, text, catalog, order, rfl⟩ := h
  have within : d.span.start ≤ m'.ident.span.start ∧ m'.ident.span.stop ≤ d.span.stop := by
    rcases yields.error_around from_it with same | use
    · rw [same]
      exact ⟨Nat.le_refl _, Nat.le_refl _⟩
    obtain ⟨e, tokens, reads⟩ := condition_reads clean (List.mem_of_getElem? place')
    have nested := ((parse_laid text).1.rules q (List.mem_of_getElem? place')).condition e
      (Option.mem_def.mpr reads.condition)
    exact Expr.wildcard_inside (nested.nested clean) (reads.mentions ▸ member') use
  have wide : m'.ident.span.start < m'.ident.span.stop := mention_nonempty place' member'
  have together : ¬ m.ident.span.Apart m'.ident.span := by
    rw [← span]
    unfold Span.Apart
    omega
  obtain ⟨rfl, rfl⟩ := mention_unique place place' member member' together
  obtain rfl := Option.some.inj (place.symm.trans place')
  exact ⟨os, errors, yields, from_it⟩

/-- The errors at the name of a pattern are those that it yields. -/
theorem errors_at (h : x.Read) (clean : x.document.file.errors = [])
    (place : x.document.file.rules[i]? = some r)
    (member : m ∈ r.mentions) {sigil : Sigil} {indexed : Bool}
    (use : m.use = .pattern sigil indexed) :
    ∃ os errors, m.Yields i (r.patterns.map x.document.patternSymbol) x.loopVars os errors ∧
      (∀ o ∈ os, x.occurrencesAt o.span = [o]) ∧ ∀ d, d ∈ x.diagnostics ∧ d.span = m.ident.span ↔
        d ∈ errors := by
  obtain ⟨os, errors, yields, only, report⟩ := h.told place member
  refine ⟨os, errors, yields, only,
    fun d => ⟨fun ⟨known, span⟩ => ?_, fun from_it => ⟨report from_it, ?_⟩⟩⟩
  · obtain ⟨_, _, yields', from_it⟩ := h.reported_at clean place member known span
    exact yields.errors_eq yields' use ▸ from_it
  · exact (yields.error_around from_it).resolve_right fun other => nomatch use.symm.trans other

/-- Where a chain starts with a name, it is a loop variable, a module or a rule. -/
theorem root_at (h : x.Read) (place : x.document.file.rules[i]? = some r) {ident : Ident}
    {inForOf : Bool} (member : ⟨.root, ident, inForOf⟩ ∈ r.mentions) :
    ∃ kind : OccurrenceKind, x.occurrencesAt ident.span = [⟨ident.span, i, kind⟩] ∧
      kind.AtRoot := by
  obtain ⟨os, errors, yields, only, _⟩ := h.told place member
  cases yields with
  | loopVariable | module | rule => exact ⟨_, only _ (List.mem_singleton_self _), trivial⟩
  | nameless empty =>
    obtain ⟨uri, version, text, catalog, order, rfl⟩ := h
    have word := name_word (List.mem_of_getElem? place) (Document.mention_name member)
    rw [Ident.IsWord, empty] at word
    cases word

end Read

/-- What the index of a document has at a token of a condition with a sigil. -/
structure PatternAt (x : DocumentIndex) (i : Nat) (r : Rule) (e : Expr) (t : Token) : Prop where
  wildcard : bareName t.name ≠ "" → e.HasWildcard t →
      x.occurrencesAt t.span = [⟨t.span, i, .patternReference none true false⟩]
  reference : bareName t.name ≠ "" → ¬ e.HasWildcard t → ∃ p indexed,
    x.occurrencesAt t.span = [⟨t.span, i, .patternReference p false indexed⟩] ∧ ∀ n, p = some n ↔
        r.Declares n t.name
  unknown : bareName t.name ≠ "" → ¬ e.HasWildcard t → ∀ d, d ∈ x.diagnostics ∧ d.span = t.span ↔
    (∀ n, ¬ r.Declares n t.name) ∧
    d = .error t.span ("unknown pattern `" ++ t.name ++ "`") (some "unknown_pattern")
  anonymous : bareName t.name = "" → ¬ e.HasWildcard t → ∀ d, d ∈ x.diagnostics ∧ d.span = t.span ↔
    ¬ e.HasInForOf t ∧ d = .error t.span ("`" ++ t.name ++ "` used outside of `for .. of`") none

namespace Read

variable {x : DocumentIndex} {i : Nat} {r : Rule} {m : Mention} {e : Expr} {t : Token}

/-- A name with a sigil in front of an asterisk. -/
theorem wildcardAt (h : x.Read) (place : x.document.file.rules[i]? = some r) (of : m.Of r e t)
    {item : Span} (use : m.use = .wildcard item) : x.PatternAt i r e t := by
  obtain ⟨os, errors, yields, only, _⟩ := h.told place of.member
  have ident := of.ident
  have wildcard : e.HasWildcard t := of.wildcard.mp ⟨item, use⟩
  refine ⟨fun named _ => ?_, fun _ other => absurd wildcard other, fun _ other =>
    absurd wildcard other,
    fun _ other => absurd wildcard other⟩
  obtain ⟨_, _, inForOf⟩ := m
  cases use
  cases ident
  cases yields with
  | wildcard =>
    exact only _ (List.mem_ite_nil_left.mpr ⟨fun empty => named (beq_iff_eq.mp empty),
      List.mem_singleton_self _⟩)

/-- A name with a sigil elsewhere. -/
theorem patternAt (h : x.Read) (clean : x.document.file.errors = [])
    (place : x.document.file.rules[i]? = some r) (of : m.Of r e t)
    {sigil : Sigil} {indexed : Bool} (use : m.use = .pattern sigil indexed) :
    x.PatternAt i r e t := by
  obtain ⟨os, errors, yields, only, told⟩ := h.errors_at clean place of.member use
  have ident := of.ident
  have plain := of.plain use
  have inForOf := of.inForOf
  obtain ⟨_, _, inBody⟩ := m
  cases use
  cases ident
  cases yields with
  | anonymous nameless =>
    refine ⟨fun _ other => absurd other plain, fun named => absurd nameless named, fun named =>
      absurd nameless named, fun _ _ d => ?_⟩
    rw [told, List.mem_ite_nil_left, List.mem_singleton, ← inForOf]
  | pattern named =>
    have declares : ∀ n, patternNamed? (r.patterns.map x.document.patternSymbol) t.name = some n ↔
        r.Declares n t.name := by
      obtain ⟨uri, version, text, catalog, order, rfl⟩ := h
      exact fun n => patternNamed?_iff (List.mem_of_getElem? place) _ named
    refine ⟨fun _ other => absurd other plain,
      fun _ _ => ⟨_, indexed, only _ (List.mem_singleton_self _), declares⟩, fun _ _ d => ?_,
      fun nameless => absurd nameless named⟩
    rw [told, List.mem_ite_nil_right, List.mem_singleton, Option.isNone_iff_eq_none,
      Option.eq_none_iff_forall_ne_some]
    simp only [ne_eq, declares]

/-- What there is at a token with a sigil depends on whether an asterisk follows. -/
theorem sigil_at (h : x.Read) (clean : x.document.file.errors = [])
    (place : x.document.file.rules[i]? = some r) (of : m.Of r e t)
    {sigil : Sigil} (kind : t.kind = .sigil sigil) : x.PatternAt i r e t := by
  have named : m.use.kind = .sigil sigil := of.kind.trans kind
  cases use : m.use with
  | pattern => exact h.patternAt clean place of use
  | wildcard => exact h.wildcardAt place of use
  | root | field | declared | rules =>
    rw [use] at named
    cases named

end Read

end DocumentIndex

/-- In the index of a text without errors, the names in conditions are indexed one
by one. Each token with a sigil and a name has one occurrence: a reference to the
pattern of its rule with this name, if there is one and no asterisk follows. Where no
asterisk follows, there is an error at such a token if and only if no pattern of its
rule has the name, and at a token without a name if and only if it is in the body of
no loop over patterns. No other pattern is said to be unknown. Each identifier at
the root of a chain has one occurrence: a reference to a loop variable, a module or
a rule. -/
theorem conditions_indexed (uri : String) (version : Option Int) (text : List Char)
    (catalog : Catalog) (order : Nat) (clean : (parse text).errors = []) :
    let x := (Document.ofText uri version text).index catalog order
    (∀ i r, (parse text).rules[i]? = some r → ∃ e tokens, r.Reads text e tokens ∧
      (∀ t ∈ tokens, ∀ sigil, t.kind = .sigil sigil → x.PatternAt i r e t) ∧
      ∀ root, e.Contains (.ident root) → ∃ kind : OccurrenceKind,
        x.occurrencesAt root.span = [⟨root.span, i, kind⟩] ∧ kind.AtRoot) ∧
    ∀ d ∈ x.diagnostics, d.code = some "unknown_pattern" →
      ∃ (i : Nat) (r : Rule) (e : Expr) (tokens : List Token),
      (parse text).rules[i]? = some r ∧ r.Reads text e tokens ∧ ∃ t ∈ tokens, ∃ sigil,
        t.kind = .sigil sigil ∧
        d.span = t.span ∧ bareName t.name ≠ "" ∧ ¬ e.HasWildcard t ∧
          ∀ n, ¬ r.Declares n t.name := by
  intro x
  have read : x.Read := ⟨uri, version, text, catalog, order, rfl⟩
  refine ⟨fun i r place => ?_, fun d known code => ?_⟩
  · obtain ⟨e, tokens, reads⟩ := condition_reads clean (List.mem_of_getElem? place)
    refine ⟨e, tokens, reads, fun t member sigil kind => ?_, fun root contains => ?_⟩
    · obtain ⟨m, of⟩ := reads.exists_mention place member (kind ▸ rfl)
      exact read.sigil_at clean place of kind
    · obtain ⟨b, within⟩ := contains.mentions false
      have own : ⟨.root, root, b⟩ ∈ e.mentions false :=
        within (Expr.mem_mentions.mpr (.inl (List.mem_singleton_self _)))
      exact read.root_at place (reads.mentions ▸ own)
  · obtain ⟨i, r, m, os, errors, place, member, yields, from_it⟩ := read.reported clean known
    obtain ⟨sigil, indexed, use, named, span⟩ := yields.unknown from_it code
    obtain ⟨e, tokens, reads⟩ := condition_reads clean (List.mem_of_getElem? place)
    obtain ⟨t, inside, of⟩ := reads.exists_token place member
    have kind : t.kind = .sigil sigil := of.kind.symm.trans (congrArg Use.kind use)
    have plain := of.plain use
    rw [of.ident] at named span
    have told := ((read.sigil_at clean place of kind).unknown named plain d).mp ⟨known, span⟩
    exact ⟨i, r, e, tokens, place, reads, t, inside, sigil, kind, span, named, plain, told.1⟩

/-- A rule with a wildcard, an unknown pattern and two without a name, one of them in a loop. -/
def manyNames : List Char :=
  "rule a \x7b strings: $a = \"\" condition: @c or $ or for all of ($a*) : ($ at b) \x7d".toList

theorem conditions_indexed_manyNames : (parse manyNames).errors = [] ∧
    ((Document.ofText "file:///a.yar" none manyNames).index ⟨[]⟩ 0).diagnostics.map
      (fun d => (d.span, d.code)) = [(⟨37, 39⟩, some "unknown_pattern"), (⟨43, 44⟩, none)] ∧
    ∀ r, (parse manyNames).rules[0]? = some r → ∃ e tokens, r.Reads manyNames e tokens ∧
      ∀ t ∈ tokens, ∀ sigil, t.kind = .sigil sigil →
      ((Document.ofText "file:///a.yar" none manyNames).index ⟨[]⟩ 0).PatternAt 0 r e t := by
  have clean : (parse manyNames).errors = [] := by decide +kernel
  have sorted : (Document.ofText "file:///a.yar" none manyNames).InOrder ⟨[]⟩ :=
    ⟨by decide +kernel, by decide +kernel⟩
  refine ⟨clean, ?_, fun r place => ?_⟩
  · rw [sorted.index_eq]
    decide +kernel
  obtain ⟨e, tokens, reads, patterns, _⟩ :=
    (conditions_indexed "file:///a.yar" none manyNames ⟨[]⟩ 0 clean).1 0 r place
  exact ⟨e, tokens, reads, patterns⟩

end RuleDesk
