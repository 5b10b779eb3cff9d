import RuleDesk.Proofs.Parsing.Composed
import RuleDesk.Proofs.Parsing.OneRule

namespace RuleDesk

/-! ## What the sections of a rule hold

This is so in every text: a section may be cut short by an error, and a rule may
have many sections of one kind. -/

/-- The expression that is read behind the keyword and the colon of a section. -/
def RuleSection.expression (text : List Char) (sec : RuleSection) : Expr :=
  (Parser.expression.run
    (.behind [] ⟨.normal, sec.keyword.stop, (dropBytes? text sec.keyword.stop).getD []⟩)).1

/-- The sections of a rule stand one behind the other, what is kept of a rule lies in
one of them, and the condition is that of the first section for one. -/
structure Rule.Arranged (text : List Char) (r : Rule) : Prop where
  ordered : r.sections.Pairwise fun a b => a.span.stop ≤ b.span.start
  keywords : ∀ sec ∈ r.sections, sec.keyword.start < sec.keyword.stop ∧
      sec.span.contains sec.keyword
  patterns : ∀ p ∈ r.patterns, ∃ sec ∈ r.sections, sec.kind = .strings ∧ sec.body.contains p.span
  metas : ∀ e ∈ r.metas, ∃ sec ∈ r.sections, sec.kind = .metas ∧ sec.body.contains e.span
  condition : r.condition = (r.sections.find? (·.kind == .condition)).map (·.expression text)

theorem Span.Lies.contained {low high : Nat} {s : Span} (h : s.Lies low high) :
    (Span.mk low high).contains s := by
  rw [Span.contains, Bool.and_eq_true, decide_eq_true_eq, decide_eq_true_eq]
  exact ⟨h.start, h.stop⟩

namespace ParseState

variable {s : ParseState} {t : Token}

theorem advanced_normal (h : s.input.here.mode = .normal) :
    (s.advanced .normal).input.here.mode = .normal := by
  cases ahead : s.input.ahead with
  | none => rwa [advanced_of_none (by rw [next?, ahead]; rfl)]
  | some entry =>
    rw [advanced, ahead]
    exact Cursor.nextSolid?_stays_normal (s.input.ahead_eq.symm.trans ahead) h

/-- Behind a token that no hex pattern has, the tokenizer is in normal mode. -/
theorem advanced_leaves_hex (next : s.next? = some t) (other : ¬ t.kind.isOfHex) :
    (s.advanced .normal).input.here.mode = .normal := by
  obtain ⟨after, ahead⟩ := next?_eq_some next
  rw [advanced, ahead]
  exact Cursor.nextSolid?_ends_hex (s.input.ahead_eq.symm.trans ahead) other

/-- The text behind a state is what is left of the whole text there. -/
theorem bare_eq_behind {text : List Char} (reached : (Cursor.start text).Reaches s.input.here)
    (normal : s.input.here.mode = .normal) :
    s.bare =
      { behind [] ⟨.normal, s.input.here.offset, (dropBytes? text s.input.here.offset).getD []⟩ with
        depth := s.depth } := by
  obtain ⟨front, split, place⟩ := reached
  have rest : dropBytes? text s.input.here.offset = some s.input.here.rest := by
    have whole : text = front ++ s.input.here.rest := split
    rw [whole, place.trans (Nat.zero_add _)]
    exact dropBytes?_byteLength_append front _
  have here : (⟨.normal, s.input.here.offset, (dropBytes? text s.input.here.offset).getD []⟩ :
      Cursor) = s.input.here := by
    rw [rest, ← normal]
    rfl
  rw [here]
  have input : s.input = Input.at s.input.here := by
    obtain ⟨⟨here, ahead, rfl⟩, _, _, _, _⟩ := s
    rfl
  exact congrArg (fun i => ParseState.mk i false s.depth [] []) input

end ParseState

namespace Parser

variable {low : Nat} {s : ParseState}

/-! ### Entries and patterns -/

/-- Items of a list that is read on from an offset: those that were there before, and
others that lie behind the offset. -/
structure Added (span : α → Span) (known : List α) (low : Nat) (items : List α)
    (s : ParseState) : Prop where
  here : low ≤ s.input.here.offset
  origin : ∀ a ∈ items, a ∈ known ∨ (span a).Lies low s.input.here.offset

namespace Added

variable {span : α → Span} {known items : List α} {t : ParseState}

theorem start (known : List α) (s : ParseState) : Added span known s.input.here.offset known s :=
  ⟨Nat.le_refl _, fun _ => .inl⟩

theorem later (h : Added span known low items s) (step : s.Before t) :
    Added span known low items t :=
  ⟨Nat.le_trans h.here step.here_le, fun a member =>
    (h.origin a member).imp_right (·.raise step.here_le)⟩

theorem keeps {p : Parser β} :
    Ensures (Added span known low items) p fun _ => Added span known low items :=
  .keeps fun _ _ step h => h.later step

theorem append (h : Added span known low items s) {a : α}
    (lies : (span a).Lies low s.input.here.offset) :
    Added span known low (items ++ [a]) s :=
  ⟨h.here, List.forall_mem_append.mpr ⟨h.origin, List.forall_mem_singleton.mpr (.inr lies)⟩⟩

/-- While an item is read, it is known where its first token lies. -/
theorem beside {t : Token} {p : Parser β} :
    Ensures (fun s => Added span known low items s ∧ t.span.Lies low s.input.here.offset) p
    fun _ s => Added span known low items s ∧ t.span.Lies low s.input.here.offset :=
  .keeps fun _ _ step h => ⟨h.1.later step, h.2.raise step.here_le⟩

end Added

theorem Span.through_point {n : Nat} {t : Span} (lies : t.Lies low n) :
    (t.through (.point n)).Lies low n :=
  lies.through ⟨Nat.le_trans lies.start lies.begun, Nat.le_refl n, Nat.le_refl n⟩

theorem metaStep_adds {known : List MetaEntry} (entries : List MetaEntry) :
    Ensures (Added MetaEntry.span known low entries)
    (metaStep entries)
      (Ensures.round (Added MetaEntry.span known low) (Added MetaEntry.span known low)) := by
  have eaten : Ensures (Added MetaEntry.span known low entries) (eat .ident) fun o s =>
      Added MetaEntry.span known low entries s ∧ ∀ t ∈ o, t.span.Lies low s.input.here.offset :=
    fun s h => ⟨h.later ((eat .ident).forward s), (eat_lies _ s h.here).2⟩
  refine eaten.bind fun o => ?_
  cases o with
  | none => exact .pure fun s h => h.1
  | some t =>
    intro s h
    refine (Added.beside.bind fun o => ?_) s ⟨h.1, h.2 t rfl⟩
    cases o with
    | none => exact .pure fun s h => h.1
    | some _ =>
      refine Added.beside.bind fun o => ?_
      cases o with
      | none => exact .pure fun s h => h.1
      | some value => exact fun s h => h.1.append (Span.through_point h.2)

theorem keepPattern_from (patterns : List Pattern) (p : Pattern) :
    (keepPattern patterns p).Gives fun qs => ∀ q ∈ qs, q ∈ patterns ∨ q = p := by
  have old : ∀ q ∈ patterns, q ∈ patterns ∨ q = p := fun q => .inl
  have new : ∀ q ∈ patterns ++ [p], q ∈ patterns ∨ q = p :=
    List.forall_mem_append.mpr ⟨old, List.forall_mem_singleton.mpr (.inr rfl)⟩
  unfold keepPattern
  split
  · exact .pure new
  split
  · exact .bind fun _ => .pure old
  · exact .pure new

theorem declaration_adds {known patterns : List Pattern} (t : Token) :
    Ensures (fun s => Added Pattern.span known low patterns s ∧ s.next? = some t)
      (declaration t patterns)
      (Ensures.round (Added Pattern.span known low) (Added Pattern.span known low)) := by
  have read : Ensures (fun s => Added Pattern.span known low patterns s ∧ s.next? = some t) advance
    fun _ s =>
      Added Pattern.span known low patterns s ∧ t.span.Lies low s.input.here.offset := by
    rintro s ⟨h, next⟩
    have start := Nat.le_trans h.here (ParseState.next?_start next)
    refine ⟨h.later (advance.forward s), ?_⟩
    rw [run_advance, ParseState.advanced_here next]
    exact ⟨start, Nat.le_add_right _ _, Nat.le_refl _⟩
  refine read.bind fun _ => Added.beside.bind fun o => ?_
  cases o with
  | none => exact .pure fun s h => h.1
  | some _ =>
    refine Added.beside.bind fun o => ?_
    cases o with
    | none => exact .pure fun s h => h.1
    | some value =>
      refine Added.beside.bind fun modifiers s h => ?_
      let p : Pattern :=
        ⟨t.span.through (.point s.input.here.offset), identOf t, value.1, value.2, modifiers⟩
      have step := (keepPattern patterns p).forward s
      have known : Added Pattern.span known low (patterns ++ [p]) s :=
        h.1.append (Span.through_point h.2)
      have from_these := keepPattern_from patterns p s
      refine Added.later (s := s) ⟨h.1.here, fun q member => known.origin q ?_⟩ step
      exact List.mem_append.mpr
        ((from_these q member).imp_right fun same => List.mem_singleton.mpr same)

theorem patternStep_adds {known : List Pattern} (patterns : List Pattern) :
    Ensures (Added Pattern.span known low patterns)
    (patternStep patterns)
      (Ensures.round (Added Pattern.span known low) (Added Pattern.span known low)) := by
  intro s h
  rw [patternStep, run_bind, run_peek]
  cases next : s.next? with
  | none => exact h
  | some t =>
    dsimp only
    rw [run_ite]
    split
    · exact declaration_adds t s ⟨h, next⟩
    rw [run_bind, run_declaresMisnamed, run_ite]
    split
    · refine (Added.keeps.bind fun _ => Added.keeps.bind fun _ => Added.keeps.bind fun _ =>
        Added.keeps.bind fun o => ?_) s h
      cases o with
      | none => exact .pure fun _ h => h
      | some _ => exact Added.keeps.bind fun _ => .pure fun _ h => h
    · exact h

/-! ### Sections -/

/-- What the content of a section, between two states, adds to a rule. -/
structure Filled (kind : SectionKind) (duplicate : Bool) (r : Rule) (s t : ParseState)
    (q : Rule) : Prop where
  sections : q.sections = r.sections
  patterns : ∀ p ∈ q.patterns, p ∈ r.patterns ∨ kind = .strings ∧
      p.span.Lies s.input.here.offset t.input.here.offset
  metas : ∀ e ∈ q.metas, e ∈ r.metas ∨ kind = .metas ∧
      e.span.Lies s.input.here.offset t.input.here.offset
  condition : q.condition = if kind = .condition ∧ duplicate = false then some (expression.run s).1
      else r.condition

theorem sectionContent_fills (kind : SectionKind) (duplicate : Bool) (r : Rule) (s : ParseState) :
    Filled kind duplicate r s ((sectionContent kind duplicate r).run s).2
      ((sectionContent kind duplicate r).run s).1 := by
  refine ⟨sectionContent_sections kind duplicate r s, ?_, ?_, ?_⟩
  · cases kind with
    | strings =>
      have added :=
        Ensures.iterate patternStep_progress patternStep_adds r.patterns s (.start r.patterns s)
      exact fun p member => (added.origin p member).imp_right fun lies => ⟨rfl, lies⟩
    | metas => exact fun p => .inl
    | condition => cases duplicate <;> exact fun p => .inl
  · cases kind with
    | metas =>
      have added := Ensures.iterate metaStep_progress metaStep_adds r.metas s (.start r.metas s)
      exact fun e member => (added.origin e member).imp_right fun lies => ⟨rfl, lies⟩
    | strings => exact fun p => .inl
    | condition => cases duplicate <;> exact fun p => .inl
  · cases kind with
    | metas | strings => rfl
    | condition => cases duplicate <;> rfl

theorem sectionHead_normal (kind : SectionKind) (duplicate : Bool) (keyword : Token) :
    Ensures (·.input.here.mode = .normal) (sectionHead kind duplicate keyword) fun _ s =>
      s.input.here.mode = .normal := by
  have head : Ensures (·.input.here.mode = .normal)
      (do let _ ← expect (.symbol .colon); return (⟨keyword.start, ← lastStop⟩ : Span)) fun _ s =>
        s.input.here.mode = .normal := by
    have eaten : Ensures (·.input.here.mode = .normal) (eat (.symbol .colon)) fun _ s =>
        s.input.here.mode = .normal := by
      intro s normal
      rw [run_eat]
      split
      · exact ParseState.advanced_normal normal
      · exact normal
    have expected : Ensures (·.input.here.mode = .normal) (expect (.symbol .colon)) fun _ s =>
        s.input.here.mode = .normal := by
      refine eaten.bind fun o => ?_
      cases o with
      | some _ => exact .pure fun _ h => h
      | none =>
        intro s normal
        rw [run_bind, run_unexpected]
        split <;> exact normal
    exact expected.bind fun _ s normal => normal
  cases duplicate with
  | false => exact head
  | true => exact fun s normal => head _ normal

/-- The sections that a rule has while it is read. -/
structure Arranging (text : List Char) (r : Rule)
    (s : ParseState) : Prop extends r.Arranged text where
  reached : (Cursor.start text).Reaches s.input.here
  before : ∀ sec ∈ r.sections, sec.span.stop ≤ sectionStop s

variable {text : List Char} {r q : Rule} {t u : ParseState}

theorem reached_later (s t : ParseState) (step : s.Before t)
    (reached : (Cursor.start text).Reaches s.input.here) :
    (Cursor.start text).Reaches t.input.here := reached.trans step.reaches

theorem Arranging.later (h : Arranging text r s) (step : s.Before t) : Arranging text r t :=
  ⟨h.toArranged, h.reached.trans step.reaches, fun sec member =>
    Nat.le_trans (h.before sec member) step.sectionStop_le⟩

theorem kind_of_sectionKindOf? {k : Kind} {kind : SectionKind} (h : sectionKindOf? k = some kind) :
    ¬ k.isOfHex := by
  unfold sectionKindOf? at h
  split at h
  · exact Bool.false_ne_true
  · exact Bool.false_ne_true
  · exact Bool.false_ne_true
  · cases h

/-- The first section of a kind stays the first one. -/
theorem find?_append_section (sections : List RuleSection) (kind : SectionKind)
    (sec : RuleSection) :
    (sections ++ [sec]).find? (·.kind == kind) =
      if sec.kind = kind ∧ sections.any (·.kind == kind) = false then some sec
        else sections.find? (·.kind == kind) := by
  rw [List.find?_append, List.find?_singleton]
  cases found : sections.find? (·.kind == kind) with
  | some first =>
    have known : sections.any (·.kind == kind) = true :=
      List.any_eq_true.mpr ⟨first, List.mem_of_find?_eq_some found,
        List.find?_some (p := fun sec : RuleSection => sec.kind == kind) found⟩
    have not_first : ¬ (sec.kind = kind ∧ sections.any (·.kind == kind) = false) :=
      fun both => nomatch known.symm.trans both.2
    rw [if_neg not_first, Option.some_or]
  | none =>
    have unknown : sections.any (·.kind == kind) = false :=
      List.any_eq_false.mpr fun first member => List.find?_eq_none.mp found first member
    rw [unknown, Option.none_or]
    simp only [beq_iff_eq, and_true]

/-- A section is read from its keyword on: its head, its content and what is left. -/
theorem ruleSection_steps (kind : SectionKind) (r : Rule) {keyword : Token}
    (next : s.next? = some keyword) :
    let duplicate := r.sections.any (·.kind == kind)
    let head := (sectionHead kind duplicate keyword).run (s.advanced .normal)
    let content := (sectionContent kind duplicate r).run head.2
    let rest := sectionEnd.run content.2
    (ruleSection kind r).run s =
      ({ content.1 with
          sections := content.1.sections ++ [⟨kind, head.1, ⟨keyword.start, rest.1⟩⟩] },
        rest.2) := by
  rw [ruleSection, run_bind, run_advance, next]
  rfl

/-- What is read behind the keyword of a section is the expression of the section. -/
theorem run_expression_behind {mid : ParseState}
    (reached : (Cursor.start text).Reaches mid.input.here) (normal : mid.input.here.mode = .normal)
    (kind : SectionKind) (start stop : Nat) :
    (expression.run mid).1 =
      RuleSection.expression text ⟨kind, ⟨start, mid.input.here.offset⟩, ⟨start, stop⟩⟩ := by
  rw [(Composed.expression.blind mid).1, ParseState.bare_eq_behind reached normal]
  rfl

/-- A section more: `mid` is the state behind its head and `u` the one behind its content. -/
theorem Arranging.add {kind : SectionKind} {start : Nat} {mid : ParseState} (h : Arranging text r s)
    (behind : sectionStop s = start)
    (head : s.Before mid) (wide : start < mid.input.here.offset)
    (normal : mid.input.here.mode = .normal) (content : mid.Before u)
    (rest : u.Before t) (filled : Filled kind (r.sections.any (·.kind == kind)) r mid u q) :
    Arranging text
      { q with
        sections := q.sections ++
          [⟨kind, ⟨start, mid.input.here.offset⟩, ⟨start, sectionStop t⟩⟩] }
      t := by
  have later := h.later ((head.trans content).trans rest)
  have stop : u.input.here.offset ≤ sectionStop t :=
    Nat.le_trans rest.here_le (Nat.le_trans t.here_le_aheadStart t.aheadStart_le_stop)
  have known : ∀ {post : RuleSection → Prop}, (∃ sec ∈ r.sections, post sec) →
      ∃ sec ∈ r.sections ++ [⟨kind, ⟨start, mid.input.here.offset⟩, ⟨start, sectionStop t⟩⟩],
        post sec :=
    fun ⟨sec, member, fact⟩ => ⟨sec, List.mem_append_left _ member, fact⟩
  have new : ∀ {post : RuleSection → Prop},
      post ⟨kind, ⟨start, mid.input.here.offset⟩, ⟨start, sectionStop t⟩⟩ →
      ∃ sec ∈ r.sections ++ [⟨kind, ⟨start, mid.input.here.offset⟩, ⟨start, sectionStop t⟩⟩],
        post sec :=
    fun fact => ⟨_, List.mem_append_right _ (List.mem_singleton_self _), fact⟩
  rw [filled.sections]
  refine ⟨⟨?_, ?_, fun p member => ?_, fun e member => ?_, ?_⟩, later.reached, ?_⟩
  · refine List.pairwise_append.mpr ⟨h.ordered, List.pairwise_singleton _ _,
      fun sec member last same => ?_⟩
    rw [List.mem_singleton.mp same]
    exact behind ▸ h.before sec member
  · refine List.forall_mem_append.mpr ⟨h.keywords, List.forall_mem_singleton.mpr ?_⟩
    have end_le := Nat.le_trans content.here_le stop
    exact ⟨wide,
      Span.Lies.contained ⟨Nat.le_refl _, Nat.le_trans (Nat.le_of_lt wide) end_le, end_le⟩⟩
  · rcases filled.patterns p member with old | ⟨strings, lies⟩
    · exact known (h.patterns p old)
    · exact new ⟨strings, (lies.raise stop).contained⟩
  · rcases filled.metas e member with old | ⟨metas, lies⟩
    · exact known (h.metas e old)
    · exact new ⟨metas, (lies.raise stop).contained⟩
  · rw [filled.condition, find?_append_section]
    by_cases same : kind = .condition
    · subst same
      split
      · exact congrArg some (run_expression_behind (h.later head).reached normal ..)
      · exact h.condition
    · rw [if_neg fun both => same both.1, if_neg fun both => same both.1]
      exact h.condition
  · exact List.forall_mem_append.mpr ⟨later.before, List.forall_mem_singleton.mpr (Nat.le_refl _)⟩

/-- A section more, at its keyword. -/
theorem ruleSection_arranges {kind : SectionKind} {keyword : Token} (h : Arranging text r s)
    (next : s.next? = some keyword) (opens : sectionKindOf? keyword.kind = some kind) :
    Arranging text ((ruleSection kind r).run s).1 ((ruleSection kind r).run s).2 := by
  have start : sectionStop s = keyword.start := by rw [sectionStop, next]; rfl
  have normal := ParseState.advanced_leaves_hex next (kind_of_sectionKindOf? opens)
  have read := advance.forward s
  rw [run_advance] at read
  have head :=
    (sectionHead kind (r.sections.any (·.kind == kind)) keyword).forward (s.advanced .normal)
  have wide : keyword.start < (s.advanced .normal).input.here.offset :=
    ParseState.advanced_here next .normal ▸ ParseState.next?_wide next
  rw [ruleSection_steps kind r next]
  dsimp only
  rw [run_sectionHead, run_sectionEnd]
  exact h.add start (read.trans head) (Nat.lt_of_lt_of_le wide head.here_le)
    (sectionHead_normal kind _ keyword _ normal) (Parser.forward _ _)
    (sectionEnd.forward _) (sectionContent_fills kind _ r _)

theorem bodyStep_arranges (r : Rule) : Ensures (Arranging text r) (bodyStep r)
    (Ensures.round (Arranging text) fun r _ => r.Arranged text) := by
  intro s h
  rw [bodyStep, run_bind, run_peek]
  cases next : s.next? with
  | none => exact h.toArranged
  | some t =>
    dsimp only
    rw [run_ite]
    split
    · exact { h.toArranged with }
    split
    · rename_i kind opens
      have calm : Arranging text r ((setPanicking false).run s).2 :=
        h.later ((setPanicking false).forward s)
      exact ruleSection_arranges calm next opens
    · rw [run_bind, run_atTopLevelItem, run_ite]
      split
      · exact h.toArranged
      · exact h.later ((unexpected .ruleSection >>= fun _ => advance).forward s)

theorem ruleAfterKeyword_arranges (start : Nat) (flags : RuleFlags) :
    Ensures (fun s => (Cursor.start text).Reaches s.input.here) (ruleAfterKeyword start flags)
      fun r _ => r.Arranged text := by
  have head : Ensures (fun s => (Cursor.start text).Reaches s.input.here) (ruleHead flags)
      (Arranging text) := by
    refine Ensures.bind (.keeps reached_later) fun _ =>
      Ensures.bind (.keeps reached_later) fun _ => ?_
    refine Ensures.bind (.keeps reached_later) fun _ => .pure fun s reached => ?_
    exact ⟨⟨.nil, nofun, nofun, nofun, rfl⟩, reached, nofun⟩
  refine head.bind fun r => (Ensures.iterate bodyStep_progress bodyStep_arranges r).bind fun q => ?_
  refine Ensures.bind (.keeps fun _ _ _ h => h) fun stop => ?_
  have whole : q.Arranged text → ({ q with span := ⟨start, stop⟩ } : Rule).Arranged text :=
    fun h => { h with }
  split
  · exact Ensures.bind (.keeps fun _ _ _ h => h) fun _ => .pure fun _ h => whole h
  · exact .pure fun _ h => whole h

/-! ### Rules -/

/-- What later states keep holds where the rules of a text are read. -/
theorem itemStep_ensures {pre : ParseState → Prop} {post : Rule → Prop}
    (kept : ∀ s t : ParseState, s.Before t → pre s → pre t)
    (rule : ∀ start flags, Ensures pre (ruleAfterKeyword start flags) fun r _ => post r)
    (items : Items) :
    Ensures (fun s => pre s ∧ ∀ r ∈ items.rules, post r) (itemStep items)
      (Ensures.round (fun items s => pre s ∧ ∀ r ∈ items.rules, post r) fun items _ =>
        ∀ r ∈ items.rules, post r) := by
  have item : Ensures pre ruleItem fun o _ => ∀ r ∈ o, post r := by
    refine Ensures.bind (.keeps kept) fun o => ?_
    cases o with
    | none => exact .pure fun _ _ => nofun
    | some t =>
      refine Ensures.bind (.keeps kept) fun flags => Ensures.bind (.keeps kept) fun o => ?_
      cases o with
      | none => exact .pure fun _ _ => nofun
      | some _ =>
        exact (rule _ _).bind fun r => .pure fun s held q same => Option.some.inj same ▸ held
  rintro s ⟨start, known⟩
  rw [itemStep, run_bind, run_peekKind]
  split
  · exact known
  · exact ⟨kept _ _ ((setPanicking false >>= fun _ => importItem).forward s) start, known⟩
  · exact ⟨kept _ _ ((setPanicking false >>= fun _ => includeItem).forward s) start, known⟩
  · rw [run_ite]
    split
    · have calm := kept _ _ ((setPanicking false).forward s) start
      refine ⟨kept _ _ (ruleItem.forward _) calm,
        List.forall_mem_append.mpr ⟨known, fun r member => ?_⟩⟩
      exact item _ calm r (Option.mem_toList.mp member)
    · exact ⟨kept _ _ ((unexpected .topLevelItem >>= fun _ => advance).forward s) start, known⟩

/-- The tags of a rule have different names. -/
def DistinctTags (r : Rule) : Prop := (r.tags.map (·.name)).Nodup

theorem tagStep_distinct (tags : List Ident) (h : (tags.map (·.name)).Nodup) :
    (tagStep tags).Gives fun r => (r.value.map (·.name)).Nodup := by
  refine .bind fun o => ?_
  cases o with
  | none => exact .pure h
  | some t =>
    dsimp only
    split
    · exact .bind fun _ => .pure h
    · rename_i fresh
      refine .pure ?_
      show ((tags ++ [identOf t]).map (·.name)).Nodup
      rw [List.map_append, List.map_singleton, List.nodup_append]
      refine ⟨h, List.pairwise_singleton _ _, fun name member last same => fun eq => ?_⟩
      obtain ⟨i, inside, rfl⟩ := List.mem_map.mp member
      exact fresh (List.any_eq_true.mpr
        ⟨i, inside, beq_iff_eq.mpr (eq.trans (List.mem_singleton.mp same))⟩)

theorem ruleAfterKeyword_distinctTags (start : Nat) (flags : RuleFlags) :
    (ruleAfterKeyword start flags).Gives DistinctTags := by
  have none : ((([] : List Ident)).map (·.name)).Nodup := List.nodup_nil
  have tags : tags.Gives fun is => (is.map (·.name)).Nodup := .bind fun _ => by
    split
    · exact .iterate tagStep_distinct none
    · exact .pure none
  have head : (ruleHead flags).Gives DistinctTags :=
    .bind fun _ => tags.after fun _ distinct => .bind fun _ => .pure distinct
  refine head.after fun r distinct => (Lockstep.ruleBody_grows r).after fun q grows s => ?_
  have same := (grows.trans (Lockstep.ruleEnd_grows start q s)).tags
  rw [DistinctTags, ← same]
  exact distinct

end Parser

theorem parse_distinctTags (text : List Char) : ∀ r ∈ (parse text).rules, Parser.DistinctTags r :=
  parse_rules_give Parser.ruleAfterKeyword_distinctTags text

/-- The rules of a text, malformed or not, are arranged. -/
theorem parse_arranges (text : List Char) : ∀ r ∈ (parse text).rules, r.Arranged text :=
  Parser.Ensures.iterate Parser.itemStep_progress
    (Parser.itemStep_ensures Parser.reached_later Parser.ruleAfterKeyword_arranges)
    ⟨[], [], []⟩ (Parser.initial text) ⟨.refl _, nofun⟩

end RuleDesk
