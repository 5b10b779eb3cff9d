import RuleDesk.Proofs.Parsing.Sections

namespace RuleDesk

namespace Lockstep

open RuleDesk.Parser

variable {L : Lockstep} {pre : ParseState → Prop}

/-! ### Imports and includes -/

def importOf (L : Lockstep) (o o' : Option Import) : Prop :=
  o.map (·.rebase L.left) = o'.map (·.rebase L.right)

def includeOf (L : Lockstep) (o o' : Option Include) : Prop :=
  o.map (·.rebase L.left) = o'.map (·.rebase L.right)

theorem importItem_when :
    L.When (atKind (.keyword .kwImport)) importItem importItem L.importOf := by
  refine .read rfl fun o o' same => ?_
  cases same with
  | none => exact .pure rfl
  | some start =>
    refine .expectKind rfl (.pure rfl) fun t t' token kind => .pure ?_
    have span := start.span.through token.span
    simp only [importOf, Option.map_some, Import.rebase, span.eq,
      token.text (kind ▸ rfl) (kind ▸ nofun), token.span.eq]

theorem includeItem_when :
    L.When (atKind (.keyword .kwInclude)) includeItem includeItem L.includeOf := by
  refine .read rfl fun o o' same => ?_
  cases same with
  | none => exact .pure rfl
  | some start =>
    refine .expectKind rfl (.pure rfl) fun t t' token kind => .pure ?_
    have span := start.span.through token.span
    simp only [includeOf, Option.map_some, Include.rebase, span.eq,
      token.text (kind ▸ rfl) (kind ▸ nofun)]

/-! ### Sections -/

/-- Two rules that are the same but for their places, which are alike. -/
def rules (L : Lockstep) (r r' : Rule) : Prop := r.rebase L.left = r'.rebase L.right

theorem rules.eq {r r' : Rule} (h : L.rules r r') : r.rebase L.left = r'.rebase L.right := h

theorem rules.metas {r r' : Rule} (h : L.rules r r') : L.metaLists r.metas r'.metas :=
  congrArg Rule.metas h

theorem rules.patterns {r r' : Rule} (h : L.rules r r') : L.patternLists r.patterns r'.patterns :=
  congrArg Rule.patterns h

theorem rules.sections {r r' : Rule} (h : L.rules r r') :
    r.sections.map (·.rebase L.left) = r'.sections.map (·.rebase L.right) :=
  congrArg Rule.sections h

theorem rules.any_section {r r' : Rule} (h : L.rules r r') (kind : SectionKind) :
    r.sections.any (·.kind == kind) = r'.sections.any (·.kind == kind) := by
  have any : ∀ (v : View) (sections : List RuleSection),
      (sections.map (·.rebase v)).any (·.kind == kind) = sections.any (·.kind == kind) :=
        fun v sections => List.any_map
  rw [← any L.left, h.sections, any]

theorem rules.ident {r r' : Rule} (h : L.rules r r') : L.idents r.ident r'.ident :=
  congrArg Rule.ident h

/-- What is put into two alike rules has to be alike, too. -/
theorem rules.set {r r' : Rule} (put : Rule → α → Rule) {a b : α} (h : L.rules r r')
    (same : a = b) :
    put (r.rebase L.left) a = put (r'.rebase L.right) b := by
  rw [h.eq, same]

theorem rules.withMetas {r r' : Rule} {ms ms' : List MetaEntry} (h : L.rules r r')
    (same : L.metaLists ms ms') :
    L.rules { r with metas := ms } { r' with metas := ms' } :=
  h.set (fun (r : Rule) metas => { r with metas }) same

theorem rules.withPatterns {r r' : Rule} {ps ps' : List Pattern} (h : L.rules r r')
    (same : L.patternLists ps ps') :
    L.rules { r with patterns := ps } { r' with patterns := ps' } :=
  h.set (fun (r : Rule) patterns => { r with patterns }) same

theorem rules.withCondition {r r' : Rule} {e e' : Expr} (h : L.rules r r') (same : L.exprs e e') :
    L.rules { r with condition := some e } { r' with condition := some e' } :=
  h.set (fun (r : Rule) e => { r with condition := some e }) same

theorem rules.withSection {r r' : Rule} {kind : SectionKind} {keyword keyword' span span' : Span}
    (h : L.rules r r') (head : L.spans keyword keyword') (whole : L.spans span span') :
    L.rules { r with sections := r.sections ++ [⟨kind, keyword, span⟩] }
      { r' with sections := r'.sections ++ [⟨kind, keyword', span'⟩] } := by
  have one : (⟨kind, keyword, span⟩ : RuleSection).rebase L.left =
      RuleSection.rebase L.right ⟨kind, keyword', span'⟩ := by
    simp only [RuleSection.rebase, head.eq, whole.eq]
  exact h.set (fun (r : Rule) sections => { r with sections }) (map_append_one h.sections one)

theorem rules.withEnd {r r' : Rule} {span span' : Span} (h : L.rules r r')
    (same : L.spans span span') :
    L.rules { r with rbrace := some span } { r' with rbrace := some span' } :=
  h.set (fun (r : Rule) span => { r with rbrace := some span }) same

theorem rules.withSpan {r r' : Rule} {span span' : Span} (h : L.rules r r')
    (same : L.spans span span') :
    L.rules { r with span } { r' with span := span' } :=
  h.set (fun (r : Rule) span => { r with span }) same

/-- The names of the tags and those of the patterns of a rule have to be distinct. -/
structure distinctNames (L : Lockstep) (r : Rule) : Prop where
  tags : L.Distinct r.tags
  patterns : L.distinctPatterns r.patterns

theorem distinctNames_of_exact (exact : L.exact) (r : Rule) : L.distinctNames r :=
  ⟨distinct_of_exact exact _, distinct_of_exact exact _⟩

/-- In the body of a rule patterns come in, and its tags stay as they are. -/
structure Grows (r q : Rule) : Prop where
  tags : r.tags = q.tags
  patterns : r.patterns <+: q.patterns

theorem Grows.refl (r : Rule) : Grows r r := ⟨rfl, List.prefix_refl _⟩

theorem Grows.trans {r q p : Rule} (h : Grows r q) (h' : Grows q p) : Grows r p :=
  ⟨h.tags.trans h'.tags, h.patterns.trans h'.patterns⟩

theorem distinctNames.before {r q : Rule} (h : L.distinctNames q) (grows : Grows r q) :
    L.distinctNames r :=
  ⟨grows.tags ▸ h.tags, h.patterns.fewer grows.patterns⟩

theorem sectionContent_grows (kind : SectionKind) (duplicate : Bool) (r : Rule) :
    (sectionContent kind duplicate r).Gives (Grows r ·) := by
  cases kind with
  | metas => exact .bind fun ms => .pure ⟨rfl, List.prefix_refl _⟩
  | strings =>
    have loop : (iterate patternStep r.patterns).Gives (r.patterns <+: ·) :=
      .iterate (fun ps longer s => longer.trans (patternStep_grows ps s)) (List.prefix_refl _)
    exact loop.after fun ps longer => .pure ⟨rfl, longer⟩
  | condition =>
    refine .bind fun e => .pure ?_
    cases duplicate with
    | true => exact .refl r
    | false => exact ⟨rfl, List.prefix_refl _⟩

theorem ruleSection_grows (kind : SectionKind) (r : Rule) :
    (ruleSection kind r).Gives (Grows r ·) := by
  refine .bind fun o => ?_
  cases o with
  | none => exact .pure (.refl r)
  | some keyword =>
    refine .bind fun head => (sectionContent_grows kind _ r).after fun q grows =>
      .bind fun stop => .pure ?_
    exact grows.trans ⟨rfl, List.prefix_refl _⟩

theorem bodyStep_grows (r : Rule) : (bodyStep r).Gives (Grows r ·.value) := by
  refine .bind fun o => ?_
  cases o with
  | none => exact .bind fun _ => .pure (.refl r)
  | some t =>
    dsimp only
    split
    · exact .bind fun _ => .pure ⟨rfl, List.prefix_refl _⟩
    split
    · exact .bind fun _ => (ruleSection_grows _ r).after fun q grows => .pure grows
    · refine .bind fun item => ?_
      split
      · exact .bind fun _ => .pure (.refl r)
      · exact .bind fun _ => .bind fun _ => .pure (.refl r)

theorem sectionContent_always (arguments : L.TakesArguments) (kind : SectionKind) (duplicate : Bool)
    {r r' : Rule} (h : L.rules r r') :
    L.Always (sectionContent kind duplicate r) (sectionContent kind duplicate r') L.rules
      L.distinctNames := by
  cases kind with
  | metas =>
    have loop := Always.iterate metaStep_progress metaStep_progress metaStep_always h.metas
    exact loop.then fun ms ms' same => .pure (h.withMetas same)
  | strings =>
    have back : ∀ ps s, L.distinctPatterns ((patternStep ps).run s).1.value →
      L.distinctPatterns ps :=
      fun ps s distinct => distinct.fewer (patternStep_grows ps s)
    have loop := Always.iterateGood patternStep_progress patternStep_progress back
      (patternStep_always arguments) h.patterns
    exact loop.thenGood (fun _ _ distinct => distinct.patterns) fun ps ps' same =>
      .pure (h.withPatterns same)
  | condition =>
    refine expression_always.then fun e e' same => .pure ?_
    cases duplicate with
    | true => exact h
    | false => exact h.withCondition same

/-- True at `private` or `global` where no rule starts. -/
def falseModifier (s : ParseState) : Bool :=
  (s.kindAhead? == some (.keyword .kwPrivate) || s.kindAhead? == some (.keyword .kwGlobal)) &&
    !startsItem s.kindAhead? s.kindBeyond?

theorem run_atFalseTopLevelModifier (s : ParseState) :
    atFalseTopLevelModifier.run s = (falseModifier s, s) := by
  rw [atFalseTopLevelModifier, run_bind, run_peekKind, falseModifier]
  dsimp only
  cases s.kindAhead? == some (.keyword .kwPrivate) || s.kindAhead? == some (.keyword .kwGlobal) with
  | true =>
    rw [if_pos rfl, run_bind, run_atTopLevelItem]
    rfl
  | false => rfl

theorem sectionEnd_always :
    L.Always sectionEnd sectionEnd (L.left.offset · = L.right.offset ·) := by
  refine .atSyncPoint fun sync => .look Eq run_atFalseTopLevelModifier run_atFalseTopLevelModifier
    (fun s s' related _ => ?_) ?_
  · rw [falseModifier, falseModifier, startsItem_alike related, kindAhead? related]
  rintro b _ rfl
  split
  · refine .unexpectedSkip _ (.peek ?_ fun t t' token => .pure token.span.start)
    exact textStop_when fun s start => start.2
  · refine .peek ?_ fun t t' token => .pure token.span.start
    exact textStop_when fun s start => start.2

theorem sectionHead_always (kind : SectionKind) (duplicate : Bool) {t t' : Token}
    (token : L.token t t') :
    L.Always (sectionHead kind duplicate t) (sectionHead kind duplicate t') L.spans := by
  have colon :
      L.Always (do let _ ← Parser.expect (.symbol .colon); return ⟨t.start, ← Parser.lastStop⟩)
      (do let _ ← Parser.expect (.symbol .colon); return ⟨t'.start, ← Parser.lastStop⟩) L.spans :=
    .demand rfl (.lastStop fun n n' stop => .pure (.mk token.span.start stop))
  cases duplicate with
  | true => exact (report_always (fun _ => rfl) token.span).then fun _ _ _ => colon
  | false => exact colon

theorem ruleSection_when (arguments : L.TakesArguments) (kind : SectionKind) {r r' : Rule}
    (h : L.rules r r') :
    L.When (fun s => ∃ k, s.kindAhead? = some k ∧ sectionKindOf? k = some kind) (ruleSection kind r)
      (ruleSection kind r') L.rules L.distinctNames := by
  refine When.bind (m := fun _ _ => True) (advance_when.restrict fun s start => ?_)
    (fun _ _ => trivial) ?_
  · obtain ⟨k, ahead, found⟩ := start
    refine ⟨k, ahead, .inl ?_⟩
    unfold sectionKindOf? at found
    split at found <;> first | rfl | cases found
  intro o o' same
  cases same with
  | none => exact .pure h
  | some token =>
    dsimp only
    rw [← h.any_section kind]
    refine (sectionHead_always kind _ token).at.then fun head head' headed => ?_
    refine (sectionContent_always arguments kind _ h).thenGood
      (fun _ _ fine => ⟨fine.tags, fine.patterns⟩) fun r r' content => ?_
    refine sectionEnd_always.then fun n n' stop => .pure ?_
    exact content.withSection headed (.mk token.span.start stop)

/-! ### Rules -/

theorem bodyStep_always (arguments : L.TakesArguments) (r r' : Rule) (h : L.rules r r') :
    L.Always (bodyStep r) (bodyStep r') (Steps L.rules) (L.distinctNames ·.value) := by
  have brace : L.spans (r.lbrace.getD r.ident.span) (r'.lbrace.getD r'.ident.span) := by
    have opened : r.lbrace.map (·.rebase L.left) = r'.lbrace.map (·.rebase L.right) :=
      congrArg Rule.lbrace h
    have named := h.ident.span
    generalize r.lbrace = o, r'.lbrace = o' at opened
    cases o with
    | none =>
      cases o' with
      | none => exact named
      | some span' => exact nomatch opened
    | some span =>
      cases o' with
      | none => exact nomatch opened
      | some span' => exact Option.some.inj opened
  have cut : L.Always (do report .unbalancedBraces (r.lbrace.getD r.ident.span); return .done r)
      (do report .unbalancedBraces (r'.lbrace.getD r'.ident.span); return .done r')
        (Steps L.rules) :=
    (report_always (fun _ => rfl) brace).then fun _ _ _ => .pure (.done h)
  refine .peek cut.at.forget fun t t' token => ?_
  dsimp only
  rw [← token.kind]
  split
  · rename_i kind
    exact .readNext (kind ▸ rfl) fun _ _ _ => .pure (.done (h.withEnd token.span))
  cases found : sectionKindOf? t.kind with
  | some kind =>
    refine setPanicking_false_always.at.bind (m := fun _ s => ∃ k, s.kindAhead? = some k ∧
      sectionKindOf? k = some kind) (fun s start => ⟨t.kind, start.2.kind, found⟩) fun _ _ _ => ?_
    exact (ruleSection_when arguments kind h).thenGood (fun _ _ fine => fine) fun r r' same =>
      .pure (.yield same)
  | none =>
    refine .atTopLevelItem fun item => ?_
    cases item with
    | true => exact cut.at.forget
    | false =>
      refine .unexpected _ fun exact => ?_
      refine (unexpected_always _).at.bind (m := fun _ => atOther) (fun s start => ?_)
        fun _ _ _ => ?_
      · refine ⟨t.kind, ?_, ?_⟩
        · rw [run_unexpected]
          split <;> exact start.1.2.kind
        · intro kind
          have no_item := start.2
          rw [start.1.2.kind, kind] at no_item
          exact nomatch no_item
      · exact (advance_exact exact).then fun _ _ _ => .pure (.yield h)

theorem flagStep_always (flags : RuleFlags) :
    L.Always (flagStep flags) (flagStep flags) (Steps Eq) := by
  refine .peek (.pure (.done rfl)) fun t t' token => ?_
  have fault : L.exact → (SyntaxFault.duplicateModifier t.name).rebase L.left =
      (SyntaxFault.duplicateModifier t'.name).rebase L.right := fun exact => by
        rw [token.name exact]; rfl
  dsimp only
  rw [← token.kind]
  split
  · rename_i kind
    refine .readNext (kind ▸ rfl) fun _ _ _ => ?_
    split
    · exact Always.at ((report_always fault token.span).then fun _ _ _ => .pure (.yield rfl))
    · exact .pure (.yield rfl)
  split
  · rename_i kind
    refine .readNext (kind ▸ rfl) fun _ _ _ => ?_
    split
    · exact Always.at ((report_always fault token.span).then fun _ _ _ => .pure (.yield rfl))
    · exact .pure (.yield rfl)
  · exact .pure (.done rfl)

theorem flags_always (flags : RuleFlags) :
    L.Always (iterate flagStep flags) (iterate flagStep flags) Eq := by
  refine Always.iterate flagStep_progress flagStep_progress ?_ rfl
  rintro flags _ rfl
  exact flagStep_always flags

theorem ruleName_always : L.Always ruleName ruleName L.idents := by
  refine .eatKind rfl ?_ fun t t' token kind => .pure (token.ident (kind ▸ rfl))
  refine (unexpected_always _).then fun _ _ _ => .pointHere fun a a' same => .pure ?_
  simp only [idents, Ident.rebase, (L.unnamed a "").1.mpr rfl, L.keeps a' "", same.eq]

/-- In an exact comparison a name is among both lists or among none of them. -/
theorem identLists.any_name {is is' : List Ident} (h : L.identLists is is') (exact : L.exact)
    (name : String) :
    is.any (·.name == name) = is'.any (·.name == name) := by
  have any : ∀ (v : View) (names : List Ident), v.KeepsNames →
      (names.map (·.rebase v)).any (·.name == name) = names.any (·.name == name) := by
    intro v names keeps
    rw [List.any_map]
    congr 1
    funext i
    exact congrArg (· == name) (keeps _ _)
  rw [← any L.left is (L.exact_keeps exact), show _ = _ from h, any L.right is' L.keeps]

theorem tagStep_grows (is : List Ident) : (tagStep is).Gives (is ⊆ ·.value) := by
  refine .bind fun o => ?_
  cases o with
  | none => exact .pure fun _ member => member
  | some t =>
    dsimp only
    split
    · exact .bind fun _ => .pure fun _ member => member
    · exact .pure (List.subset_append_left _ _)

theorem tagStep_always (is is' : List Ident) (h : L.identLists is is') :
    L.Always (tagStep is) (tagStep is') (Steps L.identLists) (L.Distinct ·.value) := by
  refine .eatKind rfl (.pure (.done h)) fun t t' token kind => ?_
  have ident : L.idents (identOf t) (identOf t') := token.ident (kind ▸ rfl)
  dsimp only
  cases found : is.any (·.name == t.name) with
  | true =>
    rw [if_pos rfl]
    refine .reported fun exact => ?_
    rw [← token.name exact, ← h.any_name exact, found, if_pos rfl]
    exact Always.at ((report_always (fun _ => rfl) token.span).then fun _ _ _ => .pure (.yield h))
  | false =>
    rw [if_neg Bool.false_ne_true]
    intro s s' related start distinct
    have fresh : is'.any (·.name == t'.name) = false := Distinct.fresh h ident distinct found
    rw [fresh, if_neg Bool.false_ne_true]
    exact .inr ⟨.yield (h.append ident), related⟩

theorem tags_always : L.Always tags tags L.identLists L.Distinct := by
  refine .eat rfl (.pure rfl) fun _ _ _ => ?_
  exact (Always.iterateGood tagStep_progress tagStep_progress
    (fun is s distinct => distinct.fewer (tagStep_grows is s)) tagStep_always identLists.nil).at

theorem ruleHead_always (flags : RuleFlags) :
    L.Always (ruleHead flags) (ruleHead flags) L.rules L.distinctNames := by
  refine ruleName_always.then fun i i' named => tags_always.thenGood (fun _ _ fine => fine.tags)
    fun is is' tagged => ?_
  refine (expect_always rfl).then fun o o' opened => .pure ?_
  have brace : o.map (fun t => t.span.rebase L.left) = o'.map fun t => t.span.rebase L.right := by
    cases opened with
    | none => rfl
    | some token => exact congrArg some token.span
  simp only [rules, Rule.rebase, named.eq, named.span.eq, show _ = _ from tagged, Option.map_map,
    Function.comp_def, brace]
  rfl

theorem ruleStop_always {r r' : Rule} (h : L.rules r r') :
    L.Always (ruleStop r) (ruleStop r') (L.left.offset · = L.right.offset ·) := by
  have brace : r.rbrace.map (·.rebase L.left) = r'.rbrace.map (·.rebase L.right) :=
    congrArg Rule.rbrace h
  unfold ruleStop
  generalize r.rbrace = o, r'.rbrace = o' at brace
  cases o with
  | none =>
    cases o' with
    | none => exact fun s s' related _ _ => .inr ⟨L.here related, related⟩
    | some span' => exact nomatch brace
  | some span =>
    cases o' with
    | none => exact nomatch brace
    | some span' => exact .pure (spans.stop (Option.some.inj brace))

theorem ruleBody_grows (r : Rule) : (iterate bodyStep r).Gives (Grows r ·) :=
  .iterate (fun q grows s => grows.trans (bodyStep_grows q s)) (.refl r)

theorem ruleEnd_grows (start : Nat) (r : Rule) : Parser.Gives (do
    let stop ← ruleStop r
    if !r.sections.any (·.kind == .condition) && r.ident.name != "" then
      report (.missingCondition r.ident.name) r.ident.span
    return { r with span := ⟨start, stop⟩ }) (Grows r ·) := by
  refine .bind fun stop => ?_
  split
  · exact .bind fun _ => .pure ⟨rfl, List.prefix_refl _⟩
  · exact .pure ⟨rfl, List.prefix_refl _⟩

theorem ruleAfterKeyword_always (arguments : L.TakesArguments) {start start' : Nat}
    (h : L.left.offset start = L.right.offset start') (flags : RuleFlags) :
    L.Always (ruleAfterKeyword start flags) (ruleAfterKeyword start' flags) L.rules
      L.distinctNames := by
  refine (ruleHead_always flags).thenGood (fun r s fine => fine.before ?_) fun r r' head => ?_
  · exact (ruleBody_grows r).after (fun q grows s => grows.trans (ruleEnd_grows start q s)) s
  refine (Always.iterateGood bodyStep_progress bodyStep_progress
    (fun r s fine => fine.before (bodyStep_grows r s)) (bodyStep_always arguments) head).thenGood
    (fun r s fine => fine.before (ruleEnd_grows start r s)) fun r r' body => ?_
  refine (ruleStop_always body).then fun stop stop' stops => ?_
  have whole := body.withSpan (.mk h stops)
  have named := body.ident.unnamed.1
  have fault : L.exact → (SyntaxFault.missingCondition r.ident.name).rebase L.left =
      (SyntaxFault.missingCondition r'.ident.name).rebase L.right := fun exact => by
    rw [body.ident.name exact]; rfl
  rw [← body.any_section, bne, bne, ← named]
  split
  · exact (report_always fault body.ident.span).then fun _ _ _ => .pure whole
  · exact .pure whole

/-! ### Items -/

def ruleOf (L : Lockstep) (o o' : Option Rule) : Prop :=
  o.map (·.rebase L.left) = o'.map (·.rebase L.right)

/-- The state behind the modifiers of a rule. -/
def behindFlags (s : ParseState) : ParseState := ((iterate flagStep ⟨false, false⟩).run s).2

/-- The keyword of a rule is taken by nothing inside of a rule, so how it is
taken is left open. -/
def KeywordAt (L : Lockstep) (s : ParseState) : Prop :=
  L.When (· = behindFlags s) (Parser.expect (.keyword .kwRule))
    (Parser.expect (.keyword .kwRule)) L.tokens

theorem keywordAt_of {s : ParseState}
    (taken : ∀ s', L.rel (behindFlags s) s' → (behindFlags s).kindAhead? = some (.keyword .kwRule) →
      L.parted ((behindFlags s).advanced .normal) (s'.advanced .normal) ∨
        L.rel ((behindFlags s).advanced .normal) (s'.advanced .normal)) : L.KeywordAt s := by
  rintro _ s' related rfl _
  generalize behindFlags s = u at related taken
  have same := kindAhead? related
  by_cases ahead : u.kindAhead? = some (.keyword .kwRule)
  · rw [Follows, run_expect ahead, run_expect (same ▸ ahead)]
    exact (taken s' related ahead).imp_right fun rel => ⟨L.next related, rel⟩
  · have report : L.Always (do unexpected (.token (.keyword .kwRule)); return none)
        (do unexpected (.token (.keyword .kwRule)); return none) L.tokens :=
      (unexpected_always _).then fun _ _ _ => .pure .none
    exact (report u s' related trivial trivial).congr (expect_missing ahead)
      (expect_missing (same ▸ ahead))

theorem ruleItem_when (arguments : L.TakesArguments) {s : ParseState} (keyword : L.KeywordAt s) :
    L.When (· = s) ruleItem ruleItem L.ruleOf fun o => ∀ r ∈ o, L.distinctNames r := by
  refine .peek (.pure rfl) fun t t' token => ?_
  refine (flags_always _).at.bind (m := fun _ u => u = behindFlags s)
    (fun u start => start.1 ▸ rfl) ?_
  rintro flags _ rfl
  refine keyword.then fun o o' same => ?_
  cases same with
  | none => exact .pure rfl
  | some _ =>
    exact (ruleAfterKeyword_always arguments token.span.start flags).thenGood
      (fun r s fine => fine r rfl) fun _ _ same =>
      .pure (congrArg some same)

structure ItemsAlike (L : Lockstep) (items items' : Items) : Prop where
  imports : items.imports.map (·.rebase L.left) = items'.imports.map (·.rebase L.right)
  includes : items.includes.map (·.rebase L.left) = items'.includes.map (·.rebase L.right)
  rules : items.rules.map (·.rebase L.left) = items'.rules.map (·.rebase L.right)

theorem map_append_option {f g : α → β} {as bs : List α} {o o' : Option α} (h : as.map f = bs.map g)
    (h' : o.map f = o'.map g) : (as ++ o.toList).map f = (bs ++ o'.toList).map g := by
  have list : ∀ (f : α → β) (o : Option α), o.toList.map f = (o.map f).toList := fun f o => by
    cases o <;> rfl
  rw [List.map_append, List.map_append, h, list, list, h']

theorem When.calm {s : ParseState} {k : Kind} {p p' : Parser α} {alike : α → α → Prop}
    {good : α → Prop}
    (rest : L.When (fun u => u = { s with panicking := false } ∧ u.kindAhead? = some k) p p'
    alike good) :
    L.When (fun u => u = s ∧ u.kindAhead? = some k) (do setPanicking false; p)
      (do setPanicking false; p') alike good :=
  setPanicking_false_always.at.bind (m := fun _ u => u = { s with panicking := false } ∧
    u.kindAhead? = some k) (fun _ start => ⟨start.1 ▸ rfl, start.2⟩) fun _ _ _ => rest

theorem itemStep_when (arguments : L.TakesArguments) {s : ParseState}
    (keyword : L.KeywordAt { s with panicking := false }) {items items' : Items}
    (h : L.ItemsAlike items items') :
    L.When (· = s) (itemStep items) (itemStep items') (Steps L.ItemsAlike) fun r =>
      ∀ q ∈ r.value.rules, L.distinctNames q := by
  refine .peekKind fun o => ?_
  cases o with
  | none => exact .pure (.done h)
  | some k =>
    split
    · exact .pure (.done h)
    · rename_i kind
      cases kind
      refine .calm ((importItem_when.restrict fun u start => start.2).then ?_)
      exact fun o o' same => .pure (.yield { h with imports := map_append_option h.imports same })
    · rename_i kind
      cases kind
      refine .calm ((includeItem_when.restrict fun u start => start.2).then ?_)
      exact fun o o' same => .pure (.yield { h with includes := map_append_option h.includes same })
    · rename_i kind
      cases kind
      split
      · refine .calm (((ruleItem_when arguments keyword).restrict fun u start => start.1).thenGood
          (fun o s fine r inside => ?_) ?_)
        · exact fine r (List.mem_append_right _ (Option.mem_toList.mpr inside))
        exact fun o o' same => .pure (.yield { h with rules := map_append_option h.rules same })
      · rename_i other
        refine .unexpected _ fun exact => ?_
        refine (unexpected_always _).at.bind (m := fun _ => atOther) (fun u start => ?_)
          fun _ _ _ => ?_
        · refine ⟨k, ?_, fun rule => other (.inl rule)⟩
          rw [run_unexpected]
          split <;> exact start.2
        · exact (advance_exact exact).then fun _ _ _ => .pure (.yield h)

theorem itemStep_grows (items : Items) : (itemStep items).Gives (items.rules ⊆ ·.value.rules) := by
  refine .bind fun o => ?_
  split
  · exact .pure (List.Subset.refl _)
  · exact .bind fun _ => .bind fun _ => .pure (List.Subset.refl _)
  · exact .bind fun _ => .bind fun _ => .pure (List.Subset.refl _)
  · split
    · exact .bind fun _ => .bind fun _ => .pure (List.subset_append_left _ _)
    · exact .bind fun _ => .bind fun _ => .pure (List.Subset.refl _)

/-- All the items of two texts, if the keyword of a rule is always taken in lockstep. -/
theorem items_always (arguments : L.TakesArguments) (keyword : ∀ s, L.KeywordAt s)
    {items items' : Items} (h : L.ItemsAlike items items') :
    L.Always (iterate itemStep items) (iterate itemStep items') L.ItemsAlike fun items =>
      ∀ r ∈ items.rules, L.distinctNames r :=
  Always.iterateGood itemStep_progress itemStep_progress
    (fun items s distinct r member => distinct r (itemStep_grows items s member))
    (fun _ _ same s s' related _ distinct =>
      itemStep_when arguments (keyword _) same s s' related rfl distinct) h

end Lockstep

end RuleDesk
