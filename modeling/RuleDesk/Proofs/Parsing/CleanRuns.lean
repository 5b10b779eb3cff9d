import RuleDesk.Proofs.Parsing.DeepReports
import RuleDesk.Proofs.Parsing.ReadWords
import RuleDesk.Proofs.Parsing.RuleBodies

namespace RuleDesk

/-! ## A text without errors, item by item

What the parser does at the top level of a text and in the body of a rule, where it reports
nothing: the items one behind the other, and the sections of each rule up to its brace. -/

namespace Parser

open ParseState

variable {s u : ParseState}

theorem unexpected_reports (calm : s.panicking = false) (expected : Expectation) :
    ((unexpected expected).run s).2.errors ≠ [] := by
  rw [run_unexpected, calm]
  exact reported_ne_nil _ _

theorem first_clean {p : Parser α} {f : α → Parser β} (clean : ((p >>= f).run s).2.errors = []) :
    (p.run s).2.errors = [] :=
  ((f _).forward _).no_errors clean

theorem expect_clean {k : Kind} (calm : s.panicking = false)
    (clean : ((expect k).run s).2.errors = []) : s.kindAhead? = some k := by
  by_contra missing
  rw [Lockstep.expect_missing missing] at clean
  exact unexpected_reports calm _ (first_clean clean)

/-! ### The head of a rule -/

theorem ruleName_clean (calm : s.panicking = false) (clean : (ruleName.run s).2.errors = []) :
    ∃ t, s.next? = some t ∧ t.kind = .ident ∧ ruleName.run s = (identOf t, s.advanced .normal) := by
  by_cases ahead : s.kindAhead? = some .ident
  · obtain ⟨t, next, kind⟩ := kindAhead?_eq_some ahead
    refine ⟨t, next, kind, ?_⟩
    rw [ruleName, run_bind, run_eat, if_pos ahead, next]
    rfl
  · rw [ruleName, run_bind, run_eat, if_neg ahead] at clean
    exact (unexpected_reports calm _ (first_clean clean)).elim

theorem tagList_clean (clean : (tags.run s).2.errors = []) :
    ∃ ts : List (Kind × List Char), s.ReadsWords ts (tags.run s).2 ∧
    (∀ t ∈ ts.head?, t.1 = .symbol .colon) ∧ (∀ t ∈ ts.tail, t.1 = .ident) ∧
      (ts.tail.map fun t => String.ofList t.2).Nodup := by
  by_cases ahead : s.kindAhead? = some (.symbol .colon)
  · obtain ⟨t, next, kind⟩ := kindAhead?_eq_some ahead
    have run : tags.run s = (iterate tagStep []).run (s.advanced .normal) := by
      have found : (eat (.symbol .colon)).run s = (some t, s.advanced .normal) := by
        rw [run_eat, if_pos ahead, next]
      rw [tags, run_bind, found]
      rfl
    rw [run] at clean ⊢
    obtain ⟨ts, read, idents, distinct, _⟩ := tags_clean [] _ List.nodup_nil clean
    refine ⟨t.word :: ts, .word next read, ?_, idents, distinct⟩
    rintro _ ⟨⟩
    exact kind
  · have run : tags.run s = ([], s) := by
      have missing : (eat (.symbol .colon)).run s = (none, s) := by rw [run_eat, if_neg ahead]
      rw [tags, run_bind, missing]
      rfl
    rw [run]
    exact ⟨[], .none s, by rintro _ ⟨⟩, List.forall_mem_nil _, List.nodup_nil⟩

/-- A rule behind its brace. -/
def ruleRest (start : Nat) (r : Rule) : Parser Rule := do
  let rule ← iterate bodyStep r
  let stop ← ruleStop rule
  if !rule.sections.any (·.kind == .condition) && rule.ident.name != "" then
    report (.missingCondition rule.ident.name) rule.ident.span
  return { rule with span := ⟨start, stop⟩ }

/-- What is read as a rule is put behind the rules before it. -/
theorem run_itemStep_rule {t : Token} (first : s.next? = some t)
    (starts : t.kind = .keyword .kwRule ∨ isRuleModifier t.kind)
    (calm : s.panicking = false) (items : Items) :
    (itemStep items).run s = (.yield
      { items with rules := items.rules ++ (ruleItem.run s).1.toList }, (ruleItem.run s).2) := by
  have same : ({ s with panicking := false } : ParseState) = s := by rw [← calm]
  have starts : t.kind = .keyword .kwRule ∨ t.kind = .keyword .kwPrivate ∨
      t.kind = .keyword .kwGlobal := starts.imp_right isRuleModifier_cases
  rw [itemStep, run_bind, run_peekKind, kindAhead?_of_next first]
  rcases starts with kind | kind | kind <;> rw [kind]
    <;> dsimp only <;> rw [run_ite, if_pos (by simp), run_bind, run_setPanicking, same] <;> rfl

/-- A rule at its first word goes on behind its brace. -/
theorem run_itemStep_line {l : RuleLine} {t brace : Token} (fine : l.Fine)
    (read : s.ReadsWords l.words u) (first : s.next? = some t)
    (next : u.next? = some brace) (kind : brace.kind = .symbol .lbrace)
    (calm : s.panicking = false) :
    ∃ r : Rule, r.rebase .placeless = l.rule ∧ r.lbrace = some brace.span ∧ ∀ items :
      Items, (itemStep items).run s =
      (do
        let q ← ruleRest t.start r
        return (.yield { items with rules := items.rules ++ [q] } : ForInStep Items)).run
          (u.advanced .normal) := by
  obtain ⟨mid, modifiers, rest⟩ := read.split
  obtain ⟨keyword, rule, word, title⟩ := rest.first
  obtain ⟨r, head, alike, opens⟩ := run_ruleHead fine title next kind
  have ahead : mid.kindAhead? = some (.keyword .kwRule) := by
    rw [kindAhead?_of_next rule]
    exact congrArg (fun w => some w.1) word
  have flags : (iterate flagStep ⟨false, false⟩).run s = (l.flags, mid) :=
    run_flags modifiers fine.modifiers (fun _ _ => rfl) fine.once ahead
  refine ⟨r, alike, opens, fun items => ?_⟩
  have item : ruleItem.run s =
      (do let q ← ruleRest t.start r; return some q : Parser (Option Rule)).run
      (u.advanced .normal) := by
    rw [ruleItem, run_bind, run_peek, first]
    dsimp only
    rw [run_bind, flags, run_bind, run_expect ahead, rule]
    dsimp only
    rw [run_bind, ruleAfterKeyword, run_bind, head]
    rfl
  rw [run_itemStep_rule first (fine.starts read first) calm, item]
  rfl

/-- The words of a rule without errors, up to its brace. -/
theorem ruleItem_clean (calm : s.panicking = false) {t : Token} (first : s.next? = some t)
    (clean : (ruleItem.run s).2.errors = []) :
    ∃ (l : RuleLine) (u : ParseState) (brace : Token), l.Fine ∧ s.ReadsWords l.words u ∧
      u.next? = some brace ∧ brace.kind = .symbol .lbrace := by
  rw [ruleItem, run_bind, run_peek, first] at clean
  dsimp only at clean
  obtain ⟨ms, modifiers, kinds, _, once⟩ := flags_clean ⟨false, false⟩ s (first_clean clean)
  rw [run_bind] at clean
  generalize (iterate flagStep ⟨false, false⟩).run s = flagged at clean modifiers
  obtain ⟨flags, mid⟩ := flagged
  have calm := modifiers.panicking.trans calm
  have rule := expect_clean calm (first_clean clean)
  obtain ⟨keyword, next, keyword_kind⟩ := kindAhead?_eq_some rule
  rw [run_bind, run_expect rule, next] at clean
  dsimp only at clean
  have head := first_clean (first_clean clean)
  have calm : (mid.advanced .normal).panicking = false := (advanced_panicking _ _).trans calm
  obtain ⟨name, named, ident, run⟩ := ruleName_clean calm (first_clean head)
  have nonempty : name.text ≠ [] := by
    obtain ⟨after, ahead⟩ := next?_eq_some named
    exact Cursor.nextSolid?_nonempty ((Input.ahead_eq _).symm.trans ahead)
  rw [ruleHead, run_bind, run] at head
  dsimp only at head
  obtain ⟨ts, read, colon, idents, distinct⟩ := tagList_clean (first_clean head)
  rw [run_bind] at head
  have calm := read.panicking.trans ((advanced_panicking _ _).trans calm)
  obtain ⟨brace, opens, kind⟩ := kindAhead?_eq_some (expect_clean calm (first_clean head))
  refine ⟨⟨ms, keyword.text, name.text, ts⟩, _, brace,
    ⟨nonempty, kinds, once, colon, idents, distinct⟩, ?_, opens, kind⟩
  have words : (mid.advanced .normal).ReadsWords (name.word :: ts) _ := .word named read
  have title : mid.ReadsWords (keyword.word :: name.word :: ts) _ := .word next words
  rw [Token.word, Token.word, keyword_kind, ident] at title
  exact modifiers.append title

/-! ### Imports and includes -/

/-- The kind of the keyword of an import or an include. -/
def isLoad (k : Kind) : Bool := k == .keyword .kwImport || k == .keyword .kwInclude

theorem isLoad_cases {k : Kind} (h : isLoad k) :
    k = .keyword .kwImport ∨ k = .keyword .kwInclude := by
  simpa [isLoad] using h

/-- What the import of a path adds, without places. -/
def loadedImports (k : Kind) (path : List Char) : List Import :=
  if k = .keyword .kwImport then [⟨⟨0, 0⟩, String.ofList (unquote path), ⟨0, 0⟩⟩] else []

def loadedIncludes (k : Kind) (path : List Char) : List Include :=
  if k = .keyword .kwInclude then [⟨⟨0, 0⟩, String.ofList (unquote path)⟩] else []

theorem run_itemStep_load {k : Kind} {word path : List Char} (load : isLoad k)
    (read : s.ReadsWords [(k, word), (.string, path)] u)
    (calm : s.panicking = false) (items : Items) :
      ∃ items', (itemStep items).run s = (.yield items', u) ∧ items'.rules = items.rules ∧
      items'.imports.map (·.rebase .placeless) =
        items.imports.map (·.rebase .placeless) ++ loadedImports k path ∧
        items'.includes.map (·.rebase .placeless) =
          items.includes.map (·.rebase .placeless) ++ loadedIncludes k path := by
  obtain ⟨start, first, named, rest⟩ := read.first
  obtain ⟨t, second, spelled, rest⟩ := rest.first
  cases rest
  have kind : start.kind = k := congrArg Prod.fst named
  have text : t.text = path := congrArg Prod.snd spelled
  have ahead : (s.advanced .normal).kindAhead? = some .string := by
    rw [kindAhead?_of_next second]
    exact congrArg (fun w => some w.1) spelled
  have same : ({ s with panicking := false } : ParseState) = s := by rw [← calm]
  rcases isLoad_cases load with import_ | include_
  · have item : importItem.run s = (some ⟨start.span.through t.span, String.ofList (unquote t.text),
        t.span⟩, (s.advanced .normal).advanced .normal) := by
      rw [importItem, run_bind, run_advance, first]
      dsimp only
      rw [run_bind, run_expect ahead, second]
      rfl
    refine ⟨{ items with
      imports := items.imports ++
        [⟨start.span.through t.span, String.ofList (unquote t.text), t.span⟩] }, ?_, rfl, ?_, ?_⟩
    · rw [itemStep, run_bind, run_peekKind, kindAhead?_of_next first, kind, import_]
      dsimp only
      rw [run_bind, run_setPanicking, same, run_bind, item]
      rfl
    · rw [List.map_append, import_, text]
      rfl
    · rw [import_]
      exact (List.append_nil _).symm
  · have item : includeItem.run s = (some ⟨start.span.through t.span,
        String.ofList (unquote t.text)⟩, (s.advanced .normal).advanced .normal) := by
      rw [includeItem, run_bind, run_advance, first]
      dsimp only
      rw [run_bind, run_expect ahead, second]
      rfl
    refine ⟨{ items with
      includes := items.includes ++
        [⟨start.span.through t.span, String.ofList (unquote t.text)⟩] }, ?_, rfl, ?_, ?_⟩
    · rw [itemStep, run_bind, run_peekKind, kindAhead?_of_next first, kind, include_]
      dsimp only
      rw [run_bind, run_setPanicking, same, run_bind, item]
      rfl
    · rw [include_]
      exact (List.append_nil _).symm
    · rw [List.map_append, include_, text]
      rfl

/-- An import or an include without errors has a path. -/
theorem load_clean {items : Items} {t : Token} (calm : s.panicking = false)
    (first : s.next? = some t) (load : isLoad t.kind)
    (clean : ((itemStep items).run s).2.errors = []) :
    ∃ path u, s.ReadsWords [t.word, (.string, path)] u := by
  have ahead : (s.advanced .normal).kindAhead? = some .string := by
    have same : ({ s with panicking := false } : ParseState) = s := by rw [← calm]
    have calm : (s.advanced .normal).panicking = false := (advanced_panicking _ _).trans calm
    rw [itemStep, run_bind, run_peekKind, kindAhead?_of_next first] at clean
    rcases isLoad_cases load with kind | kind <;> rw [kind] at clean <;> dsimp only at clean
      <;> rw [run_bind, run_setPanicking, same] at clean
    · have item := first_clean clean
      rw [importItem, run_bind, run_advance, first] at item
      exact expect_clean calm (first_clean item)
    · have item := first_clean clean
      rw [includeItem, run_bind, run_advance, first] at item
      exact expect_clean calm (first_clean item)
  obtain ⟨path, second, kind⟩ := kindAhead?_eq_some ahead
  refine ⟨path.text, (s.advanced .normal).advanced .normal, ?_⟩
  have word : path.word = (.string, path.text) := by rw [Token.word, kind]
  exact .word first (word ▸ .word second (.none _))

/-! ### The body of a rule -/

/-- Two rules with the same head. -/
structure SameHead (r q : Rule) : Prop where
  isPrivate : q.isPrivate = r.isPrivate
  isGlobal : q.isGlobal = r.isGlobal
  ident : q.ident = r.ident
  tags : q.tags = r.tags
  lbrace : q.lbrace = r.lbrace

theorem SameHead.trans {r q p : Rule} (h : SameHead r q) (h' : SameHead q p) : SameHead r p :=
  ⟨h'.isPrivate.trans h.isPrivate, h'.isGlobal.trans h.isGlobal, h'.ident.trans h.ident,
    h'.tags.trans h.tags, h'.lbrace.trans h.lbrace⟩

theorem sectionContent_sameHead (kind : SectionKind) (duplicate : Bool) (r : Rule) :
    (sectionContent kind duplicate r).Gives (SameHead r) := by
  cases kind with
  | metas | strings => exact .bind fun _ => .pure ⟨rfl, rfl, rfl, rfl, rfl⟩
  | condition => exact .bind fun _ => by cases duplicate <;> exact .pure ⟨rfl, rfl, rfl, rfl, rfl⟩

theorem Kind.word_section {k : Kind} {kind : SectionKind} (h : sectionKindOf? k = some kind) :
    k = .keyword kind.keyword := by
  unfold sectionKindOf? at h
  split at h <;> first | cases h; rfl | cases h

theorem run_bodyStep_brace {t : Token} (next : s.next? = some t) (brace : t.kind = .symbol .rbrace)
    (r : Rule) :
    (bodyStep r).run s = (.done { r with rbrace := some t.span }, s.advanced .normal) := by
  rw [bodyStep, run_bind, run_peek, next]
  dsimp only
  rw [if_pos brace, run_bind, run_advance]
  rfl

/-- The body of a rule without errors, from a state on: sections one behind the other, each up
to the token behind it, and the brace that closes the rule. -/
inductive BodyRuns (text : List Char) :
    Rule → ParseState → List RuleSection → Rule → ParseState → Prop
  | close {r : Rule} {s : ParseState} {t : Token} (good : s.Wholesome text)
    (next : s.next? = some t) (brace : t.kind = .symbol .rbrace) :
    BodyRuns text r s [] { r with rbrace := some t.span } (s.advanced .normal)
  | part {r q b : Rule} {s u v : ParseState} {t last : Token} {kind : SectionKind}
      {sections : List RuleSection} (good : s.Wholesome text)
      (next : s.next? = some t) (opens : sectionKindOf? t.kind = some kind)
      (colon : (s.advanced .normal).kindAhead? = some (.symbol .colon))
      (first : r.sections.any (·.kind == kind) = false)
      (content : (sectionContent kind false r).run ((s.advanced .normal).advanced .normal) = (q, u))
      (ends : u.next? = some last) (later : BodyRuns text { q with sections := q.sections ++
        [⟨kind, ⟨t.start, ((s.advanced .normal).advanced .normal).input.here.offset⟩,
            ⟨t.start, last.start⟩⟩] } u sections b v) :
    BodyRuns text r s (⟨kind, ⟨t.start, ((s.advanced .normal).advanced .normal).input.here.offset⟩,
        ⟨t.start, last.start⟩⟩ :: sections) b v

namespace BodyRuns

variable {text : List Char} {r b : Rule} {sections : List RuleSection} {v : ParseState} {t : Token}

theorem good (h : BodyRuns text r s sections b v) : s.Wholesome text := by
  cases h with
  | close good => exact good
  | part good => exact good

theorem before (h : BodyRuns text r s sections b v) : s.Before v := by
  induction h with
  | close => exact advanced_before _
  | @part r q b s u v t last kind sections _ _ _ _ _ content _ _ ih =>
    have step := (sectionContent kind false r).forward ((s.advanced .normal).advanced .normal)
    rw [content] at step
    exact (advanced_before _).trans ((advanced_before _).trans (step.trans ih))

theorem starts (h : BodyRuns text r s sections b v) : ∃ t, s.next? = some t := by
  cases h with
  | close _ next => exact ⟨_, next⟩
  | part _ next => exact ⟨_, next⟩

theorem good_end (h : BodyRuns text r s sections b v) : v.Wholesome text := by
  induction h with
  | close good next brace => exact good.onward next (by rw [brace]; rfl)
  | part _ _ _ _ _ _ _ _ ih => exact ih

/-- The next token closes the section before it or the rule. -/
theorem closes (h : BodyRuns text r s sections b v) (next : s.next? = some t) :
    t.kind.closesPart ∧ isSyncKind t.kind ∧ isRuleModifier t.kind = false := by
  cases h with
  | close _ next' brace =>
    obtain rfl := Option.some.inj (next.symm.trans next')
    rw [brace]
    exact ⟨rfl, rfl, rfl⟩
  | @part _ _ _ _ _ _ _ _ kind _ _ next' opens =>
    obtain rfl := Option.some.inj (next.symm.trans next')
    rw [Kind.word_section opens]
    cases kind <;> exact ⟨rfl, rfl, rfl⟩

/-- The parser reads the sections one behind the other. -/
theorem run (h : BodyRuns text r s sections b v) : (iterate bodyStep r).run s = (b, v) := by
  induction h with
  | close _ next brace => exact run_iterate_done (run_bodyStep_brace next brace _)
  | @part r q b s u v t last kind sections good next opens colon first content ends later ih =>
    obtain ⟨_, sync, no_modifier⟩ := later.closes ends
    have same : ({ s with panicking := false } : ParseState) = s := by rw [← good.calm]
    have run := run_bodyStep_section next opens r
    rw [same, run_ruleSection next colon first content,
      run_sectionEnd_sync ends sync no_modifier] at run
    exact (run_iterate_yield bodyStep_progress run).trans ih

/-- The rule that the sections are put in. -/
theorem rule_eq (h : BodyRuns text r s sections b v) :
    b.sections = r.sections ++ sections ∧ b.rbrace.isSome ∧ SameHead r b := by
  induction h with
  | close => exact ⟨(List.append_nil _).symm, rfl, rfl, rfl, rfl, rfl, rfl⟩
  | @part r q b s u v t last kind sections _ _ _ _ _ content _ _ ih =>
    obtain ⟨added, closed, later⟩ := ih
    have head := sectionContent_sameHead kind false r ((s.advanced .normal).advanced .normal)
    have known := sectionContent_sections kind false r ((s.advanced .normal).advanced .normal)
    rw [content] at head known
    refine ⟨by rw [added, known, List.append_assoc]; rfl, closed,
      head.trans ⟨later.isPrivate, later.isGlobal, later.ident, later.tags, later.lbrace⟩⟩

end BodyRuns

theorem sectionEnd_clean (calm : s.panicking = false) (clean : (sectionEnd.run s).2.errors = []) :
    sectionEnd.run s = (sectionStop s, s) := by
  rw [sectionEnd, run_bind, run_atSyncPoint, run_bind, Lockstep.run_atFalseTopLevelModifier,
    run_ite] at clean ⊢
  split at clean
  · exact (unexpected_reports calm _ (first_clean clean)).elim
  · rename_i ends
    rw [if_neg ends]
    exact run_stopAhead _

/-- A section without errors. -/
theorem ruleSection_clean {r : Rule} {kind : SectionKind} {t : Token} (calm : s.panicking = false)
    (next : s.next? = some t)
    (clean : ((ruleSection kind r).run s).2.errors = []) :
      (s.advanced .normal).kindAhead? = some (.symbol .colon) ∧
      r.sections.any (·.kind == kind) = false ∧ ((sectionContent kind false r).run
        ((s.advanced .normal).advanced .normal)).2.errors = [] := by
  rw [ruleSection_steps kind r next] at clean
  dsimp only at clean
  have content_clean := (sectionEnd.forward _).no_errors clean
  have head_clean := ((sectionContent kind _ r).forward _).no_errors content_clean
  have calm : (s.advanced .normal).panicking = false := (advanced_panicking _ _).trans calm
  cases duplicate : r.sections.any (·.kind == kind) with
  | true =>
    rw [duplicate] at head_clean
    exact (reported_ne_nil _ _ (first_clean head_clean)).elim
  | false =>
    rw [duplicate] at head_clean content_clean
    rw [sectionHead, if_neg Bool.false_ne_true] at head_clean
    have colon := expect_clean calm (first_clean head_clean)
    have run : (sectionHead kind false t).run (s.advanced .normal) =
        (⟨t.start, ((s.advanced .normal).advanced .normal).input.here.offset⟩,
          (s.advanced .normal).advanced .normal) := by
      rw [sectionHead, if_neg Bool.false_ne_true, run_bind, run_expect colon]
      rfl
    rw [run] at content_clean
    exact ⟨colon, rfl, content_clean⟩

/-- Behind the keyword and the colon of a section. -/
theorem sectionHead_good {text : List Char} {t : Token} {kind : SectionKind}
    (good : s.Wholesome text) (next : s.next? = some t)
    (opens : sectionKindOf? t.kind = some kind)
    (colon : (s.advanced .normal).kindAhead? = some (.symbol .colon)) :
    ((s.advanced .normal).advanced .normal).Wholesome text := by
  obtain ⟨sign, second, sign_kind⟩ := kindAhead?_eq_some colon
  have plain : t.kind.isPlain := by
    rw [Kind.word_section opens]
    cases kind <;> rfl
  exact (good.onward next plain).onward second (by rw [sign_kind]; rfl)

/-- Behind the content of a section. -/
theorem sectionContent_good {text : List Char} (kind : SectionKind) (r : Rule)
    (good : s.Wholesome text) (clean : ((sectionContent kind false r).run s).2.errors = []) :
    ((sectionContent kind false r).run s).2.Wholesome text :=
  good.run (Lockstep.sectionContent_always (wholesome_takesArguments text) kind false (r := r) rfl)
    trivial (Lockstep.distinctNames_of_keeps View.same_keepsNames _) clean

theorem body_clean {text : List Char} (r : Rule) (good : s.Wholesome text)
    (clean : ((iterate bodyStep r).run s).2.errors = []) :
    ∃ sections, BodyRuns text r s sections ((iterate bodyStep r).run s).1
      ((iterate bodyStep r).run s).2 := by
  induction size : s.unread using Nat.strongRecOn generalizing s r with
  | _ size ih =>
    have reports : ((bodyStep r).run s).2.errors ≠ [] → ∃ sections,
        BodyRuns text r s sections ((iterate bodyStep r).run s).1 ((iterate bodyStep r).run s).2 :=
          fun reported =>
      (reported ((iterate_first bodyStep r s).no_errors clean)).elim
    cases next : s.next? with
    | none =>
      refine reports ?_
      rw [bodyStep, run_bind, run_peek, next]
      exact reported_ne_nil _ _
    | some t =>
      by_cases brace : t.kind = .symbol .rbrace
      · rw [run_iterate_done (run_bodyStep_brace next brace r)]
        exact ⟨[], .close good next brace⟩
      cases opens : sectionKindOf? t.kind with
      | none =>
        refine reports ?_
        rw [bodyStep, run_bind, run_peek, next]
        dsimp only
        rw [if_neg brace, opens]
        dsimp only
        rw [run_bind, run_atTopLevelItem, run_ite]
        split
        · exact reported_ne_nil _ _
        · exact fun clean => unexpected_reports good.calm _ (first_clean clean)
      | some kind =>
        have same : ({ s with panicking := false } : ParseState) = s := by rw [← good.calm]
        have run := run_bodyStep_section next opens r
        rw [same] at run
        have step := iterate_first bodyStep r s
        rw [run] at step
        have section_clean : ((ruleSection kind r).run s).2.errors = [] := step.no_errors clean
        obtain ⟨colon, first, content_clean⟩ := ruleSection_clean good.calm next section_clean
        have behind := sectionHead_good good next opens colon
        cases content :
          (sectionContent kind false r).run ((s.advanced .normal).advanced .normal) with
        | mk q u =>
          have kept := sectionContent_good _ _ behind content_clean
          rw [content] at kept content_clean
          have whole := run_ruleSection next colon first content
          rw [whole] at section_clean run
          have ended := sectionEnd_clean kept.calm section_clean
          rw [ended] at run
          have more := run_iterate_yield bodyStep_progress run
          rw [more] at clean ⊢
          have shorter := bodyStep_progress r s trivial
          rw [run] at shorter
          obtain ⟨sections, later⟩ := ih _ (size ▸ shorter ⟨_, rfl⟩) _ kept clean rfl
          obtain ⟨last, ends⟩ := later.starts
          have stop : sectionStop u = last.start := by rw [sectionStop, ends]; rfl
          rw [stop] at later ⊢
          exact ⟨_, .part good next opens colon first content ends later⟩

/-! ### The items of a text -/

/-- The rule whose body has been read. -/
def closedRule (b : Rule) (start : Nat) (rbrace : Span) : Rule :=
  { b with span := ⟨start, rbrace.stop⟩ }

theorem run_ruleRest {start : Nat} {r b : Rule} {rbrace : Span}
    (body : (iterate bodyStep r).run s = (b, u)) (closed : b.rbrace = some rbrace)
    (headed : b.sections.any (·.kind == .condition)) :
    (ruleRest start r).run s = (closedRule b start rbrace, u) := by
  rw [closedRule, ruleRest, run_bind, body, ruleStop]
  dsimp only
  rw [closed, headed]
  rfl

theorem ruleRest_clean {text : List Char} {start : Nat} {r : Rule} (good : s.Wholesome text)
    (named : r.ident.name ≠ "")
    (clean : ((ruleRest start r).run s).2.errors = []) :
      ∃ sections b v rbrace, BodyRuns text r s sections b v ∧
      (iterate bodyStep r).run s = (b, v) ∧ b.rbrace = some rbrace ∧
        b.sections.any (·.kind == .condition) := by
  obtain ⟨sections, runs⟩ := body_clean r good (first_clean clean)
  cases body : (iterate bodyStep r).run s with
  | mk b v =>
    rw [body] at runs
    obtain ⟨_, closed, head⟩ := runs.rule_eq
    obtain ⟨rbrace, closed⟩ := Option.isSome_iff_exists.mp closed
    refine ⟨sections, b, v, rbrace, runs, rfl, closed, ?_⟩
    by_contra missing
    rw [ruleRest, run_bind, body, ruleStop] at clean
    dsimp only at clean
    have other : (b.ident.name != "") = true := bne_iff_ne.mpr (head.ident ▸ named)
    rw [closed, Bool.eq_false_iff.mpr missing, other] at clean
    exact reported_ne_nil _ _ clean

/-- A rule without errors from its first token up to its brace. -/
structure HeadRuns (text : List Char) (s : ParseState) (l : RuleLine) (u : ParseState)
    (t brace : Token) : Prop where
  good : s.Wholesome text
  fine : l.Fine
  read : s.ReadsWords l.words u
  first : s.next? = some t
  opens : u.next? = some brace
  kind : brace.kind = .symbol .lbrace

/-- A rule without errors, which is put behind those before it. -/
inductive RuleRuns (text : List Char) (s : ParseState) : Rule → ParseState → Prop
  | mk {u v : ParseState} {l : RuleLine} {t brace : Token} {rbrace : Span} {r b : Rule}
      {sections : List RuleSection} (head : HeadRuns text s l u t brace)
      (alike : r.rebase .placeless = l.rule) (lbrace : r.lbrace = some brace.span)
      (body : BodyRuns text r (u.advanced .normal) sections b v) (closed : b.rbrace = some rbrace)
      (whole : b.sections.any (·.kind == .condition))
      (step : ∀ items : Items, (itemStep items).run s =
        (.yield { items with rules := items.rules ++ [closedRule b t.start rbrace] }, v)) :
    RuleRuns text s (closedRule b t.start rbrace) v

/-- The items of a text without errors, from a state on: imports, includes and rules one behind
the other, up to the end of the text. -/
inductive FileRuns (text : List Char) : Items → ParseState → List Rule → Items → ParseState → Prop
  | ended {items : Items} {s : ParseState} (good : s.Wholesome text) (none : s.next? = none) :
      FileRuns text items s [] items s
  | load {items items' all : Items} {s u v : ParseState} {rules : List Rule} {k : Kind}
      {word path : List Char} (good : s.Wholesome text)
      (load : isLoad k) (read : s.ReadsWords [(k, word), (.string, path)] u)
      (step : (itemStep items).run s = (.yield items', u))
      (later : FileRuns text items' u rules all v) : FileRuns text items s rules all v
  | rule {items all : Items} {s v w : ParseState} {r : Rule} {rules : List Rule}
      (first : RuleRuns text s r v)
      (later : FileRuns text { items with rules := items.rules ++ [r] } v rules all w) :
    FileRuns text items s (r :: rules) all w

theorem FileRuns.rules_eq {text : List Char} {items all : Items} {rules : List Rule}
    {v : ParseState} (h : FileRuns text items s rules all v) :
    all.rules = items.rules ++ rules := by
  induction h with
  | ended => exact (List.append_nil _).symm
  | load good load read step _ ih =>
    have calm := good.calm
    obtain ⟨items', run, same, _⟩ := run_itemStep_load load read calm _
    rw [step] at run
    cases run
    rw [ih, same]
  | rule _ _ ih => rw [ih, List.append_assoc]; rfl

/-- The parser reads the items one behind the other. -/
theorem FileRuns.run {text : List Char} {items all : Items} {rules : List Rule}
    {v : ParseState} (h : FileRuns text items s rules all v) :
    (iterate itemStep items).run s = (all, v) := by
  induction h with
  | @ended items s _ none =>
    refine run_iterate_done ?_
    rw [itemStep, run_bind, run_peekKind, kindAhead?, none]
    rfl
  | load _ _ _ step _ ih => exact (run_iterate_yield itemStep_progress step).trans ih
  | @rule items _ _ _ _ _ _ first _ ih =>
    obtain ⟨_, _, _, _, _, _, step⟩ := first
    exact (run_iterate_yield itemStep_progress (step items)).trans ih

theorem file_clean {text : List Char} (items : Items) (good : s.Wholesome text)
    (clean : ((iterate itemStep items).run s).2.errors = []) :
    ∃ rules, FileRuns text items s rules ((iterate itemStep items).run s).1
      ((iterate itemStep items).run s).2 := by
  induction size : s.unread using Nat.strongRecOn generalizing s items with
  | _ size ih =>
    have step_clean : ((itemStep items).run s).2.errors = [] :=
      (iterate_first itemStep items s).no_errors clean
    cases first : s.next? with
    | none =>
      have run : (itemStep items).run s = (.done items, s) := by
        rw [itemStep, run_bind, run_peekKind, kindAhead?, first]
        rfl
      rw [run_iterate_done run]
      exact ⟨[], .ended good first⟩
    | some t =>
      by_cases load : isLoad t.kind
      · obtain ⟨path, u, read⟩ := load_clean good.calm first load step_clean
        obtain ⟨items', run, _⟩ := run_itemStep_load load read good.calm items
        have kept : u.Wholesome text := by
          refine read.wholesome
            (List.forall_mem_cons.mpr ⟨?_, List.forall_mem_singleton.mpr rfl⟩) good
          rcases isLoad_cases load with kind | kind <;> simp only [Token.word, kind] <;> rfl
        have shorter := itemStep_progress items s trivial
        rw [run] at shorter
        rw [run_iterate_yield itemStep_progress run] at clean ⊢
        obtain ⟨rules, later⟩ := ih _ (size ▸ shorter ⟨_, rfl⟩) items' kept clean rfl
        exact ⟨rules, .load good load read run later⟩
      by_cases starts : t.kind = .keyword .kwRule ∨ isRuleModifier t.kind
      · have item_clean := step_clean
        rw [run_itemStep_rule first starts good.calm] at item_clean
        obtain ⟨l, u, brace, fine, read, opens, kind⟩ := ruleItem_clean good.calm first item_clean
        obtain ⟨r, alike, lbrace, run⟩ := run_itemStep_line fine read first opens kind good.calm
        have kept : (u.advanced .normal).Wholesome text :=
          (read.wholesome fine.top good).onward opens (by rw [kind]; rfl)
        have named : r.ident.name ≠ "" := by
          have same : r.ident.name = String.ofList l.name :=
            congrArg (fun r : Rule => r.ident.name) alike
          rw [same, Ne, String.ofList_eq_empty_iff]
          exact fine.named
        rw [run] at step_clean
        obtain ⟨sections, b, v, rbrace, runs, body, closed, headed⟩ :=
          ruleRest_clean kept named (first_clean step_clean)
        have step : ∀ items : Items, (itemStep items).run s =
            (.yield { items with rules := items.rules ++ [closedRule b t.start rbrace] }, v) := by
          intro items
          rw [run, run_bind, run_ruleRest body closed headed]
          rfl
        have shorter := itemStep_progress items s trivial
        rw [step] at shorter
        rw [run_iterate_yield itemStep_progress (step items)] at clean ⊢
        obtain ⟨rules, later⟩ := ih _ (size ▸ shorter ⟨_, rfl⟩) _ runs.good_end clean rfl
        exact ⟨_, .rule (.mk ⟨good, fine, read, first, opens, kind⟩ alike lbrace runs closed headed
          step) later⟩
      · exfalso
        have other : t.kind ≠ .keyword .kwImport ∧ t.kind ≠ .keyword .kwInclude := by
          constructor <;> exact fun kind => load (by rw [kind]; rfl)
        have no_rule : ¬ (t.kind = .keyword .kwRule ∨ t.kind = .keyword .kwPrivate ∨
            t.kind = .keyword .kwGlobal) := fun kinds =>
          starts (kinds.imp_right
            fun modifier => by rcases modifier with kind | kind <;> rw [kind] <;> rfl)
        rw [itemStep, run_bind, run_peekKind, kindAhead?_of_next first] at step_clean
        dsimp only at step_clean
        split at step_clean
        · cases ‹some _ = none›
        · exact other.1 (Option.some.inj ‹_›)
        · exact other.2 (Option.some.inj ‹_›)
        · rename_i k _ _ same
          cases same
          rw [if_neg no_rule] at step_clean
          exact unexpected_reports good.calm _ (first_clean step_clean)

/-- A text without errors is read item by item. -/
theorem parse_clean {text : List Char} (clean : (parse text).errors = []) :
    ∃ all, FileRuns text ⟨[], [], []⟩ (initial text) (parse text).rules all (finalState text) ∧
    (parse text).imports = all.imports ∧ (parse text).includes = all.includes ∧
      (parse text).rules = all.rules := by
  obtain ⟨rules, runs⟩ := file_clean ⟨[], [], []⟩ (.initial text) clean
  have same : (parse text).rules = rules := runs.rules_eq
  exact ⟨_, same ▸ runs, rfl, rfl, rfl⟩

end Parser

end RuleDesk
