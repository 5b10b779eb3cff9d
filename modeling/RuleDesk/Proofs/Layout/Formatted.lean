import RuleDesk.Proofs.Parsing.RelaidFiles

namespace RuleDesk

/-! ## What a text says once it is laid out

It has no errors, and it says what it said before: the trees differ in their places only, and the
values of the patterns consist of the same tokens. -/

open RuleDesk.Parser

/-- The tokens of the value of a pattern, in their order. -/
def Pattern.valueWords (text : List Char) (p : Pattern) : List (Kind × List Char) :=
  (wordsIn p.value (finalState text).read).reverse

theorem SameWords.valueWords {source out : List Char} {p p' : Pattern}
    (h : SameWords (finalState source) (finalState out) p p') :
    p.valueWords source = p'.valueWords out := by
  obtain ⟨words, first, second⟩ := h
  rw [Pattern.valueWords, Pattern.valueWords, first.words, second.words]

/-- Lists with related items are mapped to the same where related items are. -/
theorem map_eq_of_forall₂ {R : α → β → Prop} {f : α → γ} {g : β → γ} {as : List α} {bs : List β}
    (h : List.Forall₂ R as bs) (same : ∀ a b, R a b → f a = g b) : as.map f = bs.map g := by
  rw [← List.forall₂_eq_eq_eq, List.forall₂_map_left_iff, List.forall₂_map_right_iff]
  exact h.imp same

/-- What is parsed of a text and of what it is laid out as, and that both have the same lines. -/
theorem format_relaid {o : FormatOptions} {source out : List Char}
    (h : format o source = .ok out) : ∃ all all' : Items,
      parse source = ⟨all.imports, all.includes, all.rules, []⟩ ∧
      parse out = ⟨all'.imports, all'.includes, all'.rules, []⟩ ∧
      ItemsRelaid (finalState source) (finalState out) all all' ∧
      RulesAlike o source out all.rules all'.rules ∧
      Format.GapAlike (all.rules = []) false (Format.gapText source 0 all.rules)
        (Format.gapText out 0 all'.rules) := by
  have clean := format_clean h
  obtain ⟨all, runs, imports, includes, rules⟩ := parse_clean clean
  obtain ⟨g, tail', rfl, opening, alike_gap, ahead⟩ := format_ahead h runs.closed
  obtain ⟨tails, go⟩ := runs.relaid clean ahead
  obtain ⟨split, stops⟩ := runs.split
  have across : (initial source).input.here.Across ((parse source).rules = [])
      (Format.tailText source (parse source).rules) tail'
      (Format.tailStart source (parse source).rules) (initial (g ++ tail')).input.here := by
    cases opening with
    | laid spaced => exact .abreast rfl rfl rfl (.mk split rfl rfl stops spaced False.elim)
    | blank blank white => exact .blank split rfl rfl rfl stops blank white
  obtain ⟨rules', all', v', runs', clean', alike, tail_eq, same_lines⟩ :=
    go across ⟨rfl, .initial _⟩ ⟨rfl, rfl, .nil⟩
  have run' := runs'.run
  obtain rfl : v' = finalState (g ++ tail') := (congrArg Prod.snd run').symm
  have rules_eq' : all'.rules = rules' := runs'.rules_eq
  have split' := runs'.split.1
  rw [tail_eq] at split'
  have gap_eq : g = Format.gapText (g ++ tail') 0 rules' := List.append_cancel_right split'
  refine ⟨all, all', ?_, ?_, alike, ?_, ?_⟩
  · rw [← imports, ← includes, ← rules, ← clean]
  · have parsed : parse (g ++ tail') =
        ⟨all'.imports, all'.includes, all'.rules, (finalState (g ++ tail')).errors⟩ :=
      congrArg (fun r : Items × ParseState =>
        (⟨r.1.imports, r.1.includes, r.1.rules, r.2.errors⟩ : SourceFile)) run'
    rw [parsed, clean']
  · rw [← rules, rules_eq']
    exact same_lines
  · rw [← rules, rules_eq', ← gap_eq]
    exact alike_gap

/-- A text that is laid out has no errors. The tree is the one from before up to its places, and
the value of each pattern has the same tokens.

Indentation can make a text longer. That the program parses the laid out text needs it to be
shorter than `Span.maxOffset`, as any text. -/
theorem parse_formatted (o : FormatOptions) (source out : List Char)
    (h : format o source = .ok out) :
    (parse out).errors = [] ∧ (parse source).rebase .placeless = (parse out).rebase .placeless ∧
      (parse source).rules.map (·.patterns.map (·.valueWords source)) =
        (parse out).rules.map (·.patterns.map (·.valueWords out)) := by
  obtain ⟨all, all', parsed, parsed', alike, _⟩ := format_relaid h
  rw [parsed, parsed']
  refine ⟨rfl, ?_, ?_⟩
  · rw [SourceFile.rebase, SourceFile.rebase, alike.imports, alike.includes,
      map_eq_of_forall₂ alike.rules fun _ _ known => known.same]
  · exact map_eq_of_forall₂ alike.rules fun _ _ known =>
      map_eq_of_forall₂ known.words fun _ _ same => same.valueWords

/-- A rule whose lines are crowded, and what it is laid out as. -/
def crowdedRule : List Char :=
  "rule a:b\x7b//c\nstrings:$d=\x7b 0?\n[1-2]33\x7d xor condition:$d\x7d/* e */".toList

def spreadRule : List Char :=
  ("rule a : b\n\x7b\n  //c\n  strings:\n    $d=\x7b 0?\n    [1-2]33\x7d xor\n" ++
    "  condition:\n    $d\n\x7d /* e */\n").toList

/-- Its hex pattern is broken over two lines. -/
theorem parse_formatted_crowdedRule :
    format ⟨.spaces 2, 4, true⟩ crowdedRule = .ok spreadRule ∧ (parse spreadRule).errors = [] ∧
    (parse crowdedRule).rebase .placeless = (parse spreadRule).rebase .placeless ∧
      (parse crowdedRule).rules.map (·.patterns.map (·.valueWords crowdedRule)) =
        (parse spreadRule).rules.map (·.patterns.map (·.valueWords spreadRule)) := by
  have laid : format ⟨.spaces 2, 4, true⟩ crowdedRule = .ok spreadRule := by decide +kernel
  exact ⟨laid, parse_formatted _ _ _ laid⟩

end RuleDesk
