import RuleDesk.Proofs.Indexing.Places
import RuleDesk.Proofs.Lexing.Boundaries
import RuleDesk.Proofs.Parsing.Spelled

namespace RuleDesk

/-! ## Where the names of a text stand -/

theorem bareName_sigil (s : Sigil) (bare : List Char) :
    bareName (String.ofList (s.char :: bare)) = String.ofList bare := by
  unfold bareName
  rw [String.toList_ofList]
  dsimp only
  rw [Sigil.ofChar?_char]
  rfl

/-- What is known of a name that a pattern is called by in a text. -/
structure PatternName (text : List Char) (s : Sigil) (bare : List Char) (i : Ident) : Prop where
  name : i.name = String.ofList (s.char :: bare)
  parts : bare.all isWordPart
  stands : StandsAt text i.span.start (s.char :: bare)
  stop : i.span.stop = i.span.start + (1 + byteLength bare)
  token : ⟨.sigil s, i.span.start, s.char :: bare⟩ ∈ (finalState text).read

theorem PatternName.bareName {text : List Char} {s : Sigil} {bare : List Char} {i : Ident}
    (h : PatternName text s bare i) :
    RuleDesk.bareName i.name = String.ofList bare := by
  rw [h.name, bareName_sigil]

section

variable {text : List Char} {r : Rule} {i : Ident}

/-- The names of the rules of a text are tokens of it. -/
theorem name_token (member : r ∈ (parse text).rules) {kind : Kind} (named : (kind, i) ∈ r.names) :
    ∃ t ∈ (finalState text).read, t.kind = kind ∧ i = Parser.identOf t := by
  obtain ⟨tokens, d, _, all, read⟩ := parse_reads_all text
  have inside := read.names.subset (List.mem_flatMap.mpr ⟨r, member, named⟩)
  obtain ⟨t, known, same⟩ := List.mem_map.mp inside
  cases same
  exact ⟨t, all ▸ List.mem_reverse.mpr known, rfl, rfl⟩

theorem name_word (member : r ∈ (parse text).rules) (named : (.ident, i) ∈ r.names) : i.IsWord := by
  obtain ⟨t, read, kind, rfl⟩ := name_token member named
  obtain ⟨c, after, _, _, meant, next⟩ := (finalState_tracked text).read.stands t read
  show (String.ofList t.text).toList.head?.any isWordStart
  rw [String.toList_ofList]
  exact Cursor.nextSolid?_word (Cursor.nextSolid?_of_solid next meant) kind

theorem name_pattern (member : r ∈ (parse text).rules) {s : Sigil}
    (named : (.sigil s, i) ∈ r.names) :
    ∃ bare, PatternName text s bare i := by
  obtain ⟨t, read, kind, rfl⟩ := name_token member named
  obtain ⟨c, after, ⟨front, split, offset⟩, start, _, next⟩ :=
    (finalState_tracked text).read.stands t read
  obtain ⟨bare, written, parts⟩ := Cursor.next?_sigil next kind
  have rest := (Cursor.next?_place next).2.2
  refine ⟨bare, congrArg String.ofList written, parts, ⟨front, after.rest, ?_, ?_⟩, ?_, ?_⟩
  · rw [← written, ← rest]
    exact split
  · rw [start] at offset
    exact (offset.trans (Nat.zero_add _)).symm
  · show t.start + byteLength t.text = t.start + (1 + byteLength bare)
    rw [written, byteLength, s.char_utf8Size]
  · cases t
    cases kind
    cases written
    exact read

end

/-- A reference to a pattern stands at a name of its rule and has the number of
the pattern of this name. -/
def Document.Asks (d : Document) (o : Occurrence) : Prop :=
  ∀ p indexed, o.kind = .patternReference p false indexed →
    ∃ r s i, d.file.rules[o.rule]? = some r ∧
    (.sigil s, i) ∈ r.names ∧ i.span = o.span ∧ patternNamed? (d.ruleSymbol r).patterns i.name = p

theorem Document.found_asks (d : Document) (catalog : Catalog) :
    ∀ o ∈ (d.found catalog).occurrences, d.Asks o := by
  intro o member p indexed kind
  obtain ⟨r, place, declared | ⟨m, inside, os, errors, yields, from_it⟩⟩ :=
    (d.found_foundIn catalog).origin o member
  · rcases mem_declarations.mp declared with ⟨_, eq⟩ | ⟨_, _, _, _, eq⟩
    · cases kind.symm.trans (congrArg Occurrence.kind eq)
    · cases kind.symm.trans (congrArg Occurrence.kind eq)
  · obtain ⟨sigil, use, span, asked⟩ := yields.asks from_it kind
    have named := mention_name inside
    rw [Mention.named, use] at named
    exact ⟨r, sigil, m.ident, place, named, span, asked⟩

end RuleDesk
