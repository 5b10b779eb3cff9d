import RuleDesk.Proofs.Indexing.References
import RuleDesk.Proofs.Parsing.RuleBodies

namespace RuleDesk

/-- What the index and the features rely on in a rule: a tag or a pattern that has a
name is found by it, what is kept lies in a section, and the condition is that of
the first section for one, if there is any. -/
structure Rule.WellFormed (text : List Char) (r : Rule) : Prop extends r.Arranged text where
  tags : (r.tags.map (·.name)).Nodup
  sigils : ∀ p ∈ r.patterns, p.ident.name.toList.head? = some '$'
  names : ((r.patterns.filter (·.ident.name != "$")).map (·.ident.name)).Nodup
  conditional : r.condition.isSome ↔ ∃ sec ∈ r.sections, sec.kind = .condition

theorem NamesApart.nodup {ps : List Pattern} (h : NamesApart ps) :
    ((ps.filter (·.ident.name != "$")).map (·.ident.name)).Nodup := by
  refine List.pairwise_map.mpr ((List.Pairwise.filter _ h).imp_of_mem fun member _ apart => ?_)
  exact apart.resolve_left (bne_iff_ne.mp (List.mem_filter.mp member).2)

theorem Rule.Arranged.conditional {text : List Char} {r : Rule} (h : r.Arranged text) :
    r.condition.isSome ↔ ∃ sec ∈ r.sections, sec.kind = .condition := by
  rw [h.condition, Option.isSome_map, List.find?_isSome]
  simp only [beq_iff_eq]

/-- Every rule of a text is well formed, also when the text is not. -/
theorem rules_wellFormed (text : List Char) (r : Rule) (member : r ∈ (parse text).rules) :
    r.WellFormed text where
  toArranged := parse_arranges text r member
  tags := parse_distinctTags text r member
  sigils p declared := by
    have among : (.sigil .identity, p.ident) ∈ r.names :=
      List.mem_append_right _ (List.mem_append_left _ (List.mem_map_of_mem declared))
    obtain ⟨bare, name⟩ := name_pattern member among
    rw [name.name, String.toList_ofList]
    rfl
  names := (parse_names_apart text r member).nodup
  conditional := (parse_arranges text r member).conditional

def repeatedParts : List Char :=
  ("rule a : t u t \x7b condition: $b and " ++
    "strings: $a = \"x\" $a = \"y\" $ = \"z\" $ = 1 meta: m = 1 " ++
    "condition: true strings: $c = /x/ b = \"x\"").toList

/-- A rule that is being typed, with a tag, a pattern and two sections more than once. -/
theorem rules_wellFormed_repeatedParts :
    ∃ r ∈ (parse repeatedParts).rules, r.tags.map (·.name) = ["t", "u"] ∧
    r.patterns.map (·.ident.name) = ["$a", "$", "$c"] ∧
    r.sections.map (·.kind) = [.condition, .strings, .metas, .condition, .strings] ∧
      r.WellFormed repeatedParts := by
  have shapes : (parse repeatedParts).rules.map
      (fun r => (r.tags.map (·.name), r.patterns.map (·.ident.name), r.sections.map (·.kind))) =
      [(["t", "u"], ["$a", "$", "$c"], [.condition, .strings, .metas, .condition, .strings])] := by
        decide +kernel
  obtain ⟨r, member, shape⟩ := List.mem_map.mp (shapes ▸ List.mem_singleton_self _)
  exact ⟨r, member, congrArg (·.1) shape, congrArg (·.2.1) shape, congrArg (·.2.2) shape,
    rules_wellFormed repeatedParts r member⟩

end RuleDesk
