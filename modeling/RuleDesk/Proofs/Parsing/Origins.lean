import Mathlib.Data.List.Perm.Subperm
import RuleDesk.Proofs.Parsing.Contents
import RuleDesk.Proofs.Parsing.Modes

namespace RuleDesk

def patternNames (patterns : List Pattern) : List (Kind × Ident) :=
  patterns.map fun p => (.sigil .identity, p.ident)

/-- The names of a rule: its own, those of its patterns and those in its condition. -/
def Rule.names (r : Rule) : List (Kind × Ident) :=
  (if r.ident.name = "" then [] else [(.ident, r.ident)]) ++
    (patternNames r.patterns ++ r.condition.elim [] fun e => namesOf e.leaves)

/-- Names that were taken from tokens, each one from a token of its own. -/
def TakenFrom (names : List (Kind × Ident)) (tokens : List Token) : Prop :=
  names.Subperm (tokens.map Token.named)

namespace TakenFrom

variable {names others : List (Kind × Ident)} {tokens further : List Token}

theorem none (tokens : List Token) : TakenFrom [] tokens := (List.nil_sublist _).subperm

theorem append (h : TakenFrom names tokens) (h' : TakenFrom others further) :
    TakenFrom (names ++ others) (tokens ++ further) := by
  rw [TakenFrom, List.map_append]
  exact List.Subperm.append h h'

theorem more (h : TakenFrom names tokens) (further : List Token) :
    TakenFrom names (tokens ++ further) := by
  have longer := h.append (.none further)
  rwa [List.append_nil] at longer

theorem fewer (h : TakenFrom names tokens) (fewer : others.Subperm names) :
    TakenFrom others tokens := fewer.trans h

theorem within (h : TakenFrom names tokens) (fewer : tokens.Sublist further) :
    TakenFrom names further :=
  h.trans (fewer.map _).subperm

theorem one (t : Token) (further : List Token) : TakenFrom [t.named] (t :: further) :=
  ((List.nil_sublist _).cons_cons _).subperm

end TakenFrom

theorem Accounts.taken {clean : Prop} {leaves : List Leaf} {tokens : List Token}
    (h : Accounts clean leaves tokens) :
    TakenFrom (namesOf leaves) tokens := h.names.subperm

/-- The tokens of a section of a text: behind its keyword and its colon these
are up to its end, where a token stands at which the section ends. -/
def RuleSection.Holds (text : List Char) (s : RuleSection) (tokens : List Token) : Prop :=
  ∃ rest keyword colon further, dropBytes? text s.span.start = some rest ∧
    (Cursor.mk .normal s.span.start rest).solid = keyword :: colon :: (tokens ++ further) ∧
    keyword.kind = .keyword s.kind.keyword ∧ colon.kind = .symbol .colon ∧
      colon.stop = s.body.start ∧
    (∀ t ∈ tokens, t.stop ≤ s.body.stop) ∧ (∀ t ∈ further, s.body.stop ≤ t.start) ∧
    (further.head?.map (·.kind)).all Parser.isSyncKind

/-- A rule has one section for its condition. Its tokens are those that the
condition stands for, and the condition is grouped as its operators ask. -/
structure Rule.Stands (text : List Char) (r : Rule) (e : Expr) (s : RuleSection) : Prop where
  condition : r.condition = some e
  sole : r.sections.filter (·.kind == .condition) = [s]
  leaves : ∃ tokens, s.Holds text tokens ∧ List.Forall₂ Leaf.Stands e.leaves tokens
  grouped : e.Everywhere Expr.Grouped

/-- The integers of a rule have the values of tokens among some. In a text that
is grammatical the tokens of its section for entries are those of its entries. -/
structure Rule.Valued (text : List Char) (final : List SyntaxError) (r : Rule)
    (tokens : List Token) : Prop where
  condition : ∀ e, r.condition = some e → ∀ v span, e.Contains (.integer v span) →
    ∃ t ∈ tokens, t.span = span ∧ t.Evaluates text final v
  metas : ∀ m ∈ r.metas, ∃ part, part <:+: tokens ∧ m.ReadFrom text final part
  entries : Grammatical final → r.metas = [] ∧ r.sections.filter (·.kind == .metas) = [] ∨
    ∃ s reads, r.sections.filter (·.kind == .metas) = [s] ∧ r.metas = reads.map Prod.fst ∧
      s.Holds text (reads.flatMap Prod.snd) ∧ reads.flatMap Prod.snd <:+: tokens ∧
          MetaEntry.AllRead text final reads

namespace Rule.Valued

variable {text : List Char} {final : List SyntaxError} {r r' : Rule} {tokens further : List Token}

theorem within (h : r.Valued text final tokens) (among : tokens <:+: further) :
    r.Valued text final further := by
  refine ⟨fun e condition v span inside => ?_, fun m member => ?_, fun yes => ?_⟩
  · obtain ⟨t, member, known⟩ := h.condition e condition v span inside
    exact ⟨t, among.subset member, known⟩
  · obtain ⟨part, inside, read⟩ := h.metas m member
    exact ⟨part, inside.trans among, read⟩
  · exact (h.entries yes).imp_right fun ⟨s, reads, sole, metas, holds, inside, all⟩ =>
      ⟨s, reads, sole, metas, holds, inside.trans among, all⟩

theorem more (h : r.Valued text final tokens) (further : List Token) :
    r.Valued text final (tokens ++ further) :=
  h.within (List.prefix_append ..).isInfix

/-- The other fields of a rule do not matter. -/
theorem congr (h : r.Valued text final tokens) (condition : r'.condition = r.condition)
    (metas : r'.metas = r.metas)
    (sections : r'.sections.filter (·.kind == .metas) = r.sections.filter (·.kind == .metas)) :
    r'.Valued text final tokens := by
  obtain ⟨inCondition, inMetas, entries⟩ := h
  rw [← condition] at inCondition
  rw [← metas] at inMetas entries
  rw [← sections] at entries
  exact ⟨inCondition, inMetas, entries⟩

end Rule.Valued

/-- What is known of a rule when some tokens have been read for it. -/
structure RuleRead (text : List Char) (final : List SyntaxError) (r : Rule)
    (tokens : List Token) : Prop where
  names : TakenFrom r.names tokens
  named : Grammatical final → ∃ t ∈ tokens, r.ident = Parser.identOf t
  condition : Grammatical final → r.condition = none ∧
      r.sections.filter (·.kind == .condition) = [] ∨ ∃ e s, r.Stands text e s
  valued : r.Valued text final tokens

namespace RuleRead

variable {text : List Char} {final : List SyntaxError} {r r' : Rule} {tokens : List Token}

/-- The other fields of a rule do not matter. -/
theorem congr (h : RuleRead text final r tokens) (names : TakenFrom r'.names tokens)
    (ident : r'.ident = r.ident) (condition : r'.condition = r.condition)
    (sections : r'.sections.filter (·.kind == .condition) =
    r.sections.filter (·.kind == .condition))
    (valued : r'.Valued text final tokens) : RuleRead text final r' tokens := by
  refine ⟨names, fun yes => ident ▸ h.named yes, fun yes => ?_, valued⟩
  rw [condition, sections]
  refine (h.condition yes).imp_right fun ⟨e, s, stands⟩ =>
    ⟨e, s, condition ▸ stands.condition, ?_, ?_, ?_⟩
  · exact sections ▸ stands.sole
  · exact stands.leaves
  · exact stands.grouped

theorem more (h : RuleRead text final r tokens) (further : List Token) :
    RuleRead text final r (tokens ++ further) := by
  refine ⟨h.names.more further, fun yes => ?_, h.condition, h.valued.more further⟩
  obtain ⟨t, member, same⟩ := h.named yes
  exact ⟨t, List.mem_append_left _ member, same⟩

end RuleRead

/-- A condition brings its names with it. -/
theorem TakenFrom.withCondition {r : Rule} {tokens further : List Token}
    (h : TakenFrom r.names tokens) {e : Expr} (more : TakenFrom (namesOf e.leaves) further) :
    TakenFrom { r with condition := some e }.names (tokens ++ further) := by
  have kept := (h.fewer (((List.sublist_append_left _ _).append_left _).subperm)).append more
  rwa [List.append_assoc] at kept

/-- A walk in normal mode is over the next tokens. -/
theorem Cursor.Walk.solid {c d : Cursor} {tokens : List Token}
    (h : c.Walk Mode.unchanged tokens d) :
    c.solid = tokens ++ d.solid := by
  induction h with
  | stay c => rfl
  | @read c after d t tokens mode next allowed _ ih =>
    cases allowed
    rw [solid_of_next next, show after.solid = tokens ++ d.solid from ih, List.cons_append]

theorem Cursor.Walk.nonempty {M : Mode → Prop} {c d : Cursor} {tokens : List Token}
    (h : c.Walk M tokens d) :
    ∀ t ∈ tokens, t.text ≠ [] := by
  induction h with
  | stay => exact nofun
  | read next _ _ ih => exact List.forall_mem_cons.mpr ⟨nextSolid?_nonempty next, ih⟩

namespace Parser

variable {text : List Char} {final : List SyntaxError} {pre : ParseState → Prop}

/-! ### Patterns -/

/-- Patterns whose names, with some other names, were taken from tokens. -/
def PatternsRead (others : List (Kind × Ident)) (patterns : List Pattern)
    (tokens : List Token) : Prop :=
  TakenFrom (others ++ patternNames patterns) tokens

theorem PatternsRead.keep {others : List (Kind × Ident)} {patterns : List Pattern}
    {tokens : List Token}
    (h : PatternsRead others patterns tokens) {p : Pattern} {t : Token}
    (kind : t.kind = .sigil .identity)
    (ident : p.ident = identOf t) (further : List Token) :
    PatternsRead others (patterns ++ [p]) (tokens ++ t :: further) := by
  have named : t.named = (.sigil .identity, p.ident) := by rw [Token.named, kind, ident]
  have longer := h.append (named ▸ TakenFrom.one t further)
  rwa [PatternsRead, patternNames, List.map_append, ← List.append_assoc]

theorem keepPattern_reads (patterns : List Pattern) (p : Pattern) :
    Reads text final Mode.any pre (keepPattern patterns p)
    fun kept tokens => tokens = [] ∧ (kept = patterns ∨ kept = patterns ++ [p]) := by
  unfold keepPattern
  split
  · exact .pure ⟨rfl, .inr rfl⟩
  split
  · refine (Reads.report _ _ rfl).then ?_
    rintro _ _ ⟨rfl, _⟩
    exact .pure ⟨rfl, .inl rfl⟩
  · exact .pure ⟨rfl, .inr rfl⟩

theorem patternStep_reads (others : List (Kind × Ident)) (patterns : List Pattern)
    (tokens : List Token)
    (h : PatternsRead others patterns tokens) :
    Reads text final Mode.any anywhere (patternStep patterns) fun r further =>
      Reads.around (PatternsRead others) (PatternsRead others) r (tokens ++ further) := by
  have stop : ∀ further, PatternsRead others patterns (tokens ++ further) := h.more
  refine .peek (.pure (stop _)) fun t => ?_
  dsimp only
  split
  · rename_i kind
    refine .readNext trivial (.expect trivial (fun _ => .pure (stop _)) fun _ _ => ?_)
    refine patternValue_reads.then fun value _ _ => ?_
    cases value with
    | none => exact .pure (stop _)
    | some value =>
      refine modifiers_reads.then fun _ _ _ => .pointHere fun _ => (keepPattern_reads _ _).then ?_
      rintro kept _ ⟨rfl, rfl | rfl⟩
      · exact .pure (stop _)
      · exact .pure (h.keep kind rfl _)
  · refine .look (run_declaresMisnamed · _) fun misnamed => ?_
    split
    · refine (Reads.report _ _ rfl).then fun _ _ _ =>
        (Reads.advanceAny trivial).then fun _ _ _ => ?_
      refine (Reads.advanceAny trivial).then fun _ _ _ =>
        patternValue_reads.then fun value _ _ => ?_
      cases value with
      | none => exact .pure (stop _)
      | some value => exact modifiers_reads.then fun _ _ _ => .pure (stop _)
    · exact .pure (stop _)

/-! ### Sections -/

/-- The head of a section reads its colon and nothing else, unless there is an error. -/
theorem sectionHead_reads (kind : SectionKind) (duplicate : Bool) (keyword : Token) :
    Reads text final Mode.unchanged pre (sectionHead kind duplicate keyword) fun _ tokens =>
      Grammatical final → duplicate = false ∧ ∃ colon, colon.kind = .symbol .colon ∧
        tokens = [colon] := by
  have rest : Reads text final Mode.unchanged anywhere
      (do let _ ← expect (.symbol .colon); return (⟨keyword.start, ← lastStop⟩ : Span))
        fun _ tokens =>
        Grammatical final → ∃ colon, colon.kind = .symbol .colon ∧ tokens = [colon] := by
    refine .expect Mode.unchanged_normal (fun dirty => ?_) fun t kind => ?_
    · exact .glance run_lastStop fun _ => .pure fun yes => absurd yes dirty
    · exact .glance run_lastStop fun _ => .pure fun _ => ⟨t, kind, rfl⟩
  unfold sectionHead
  cases duplicate with
  | false => exact rest.at.weaken fun _ _ colon yes => ⟨rfl, colon yes⟩
  | true =>
    refine (Reads.report _ _ rfl).then ?_
    rintro _ _ ⟨rfl, dirty⟩
    exact rest.weaken fun _ _ _ yes => absurd yes dirty

theorem run_sectionHead (kind : SectionKind) (duplicate : Bool) (keyword : Token) (s : ParseState) :
    ((sectionHead kind duplicate keyword).run s).1 =
      ⟨keyword.start, ((sectionHead kind duplicate keyword).run s).2.input.here.offset⟩ := by
  cases duplicate <;> rfl

/-- Where a section ends: at the next token, or at the end of the text. -/
def sectionStop (s : ParseState) : Nat := (s.next?.map (·.start)).getD s.textStop

/-- Without an error a section is over when its content is. -/
theorem sectionEnd_reads (s : ParseState) :
    Reads text final Mode.any (· = s) sectionEnd fun stop tokens =>
    Grammatical final → tokens = [] ∧ stop = sectionStop s ∧ s.kindAhead?.all isSyncKind := by
  refine .look run_atSyncPoint fun sync => .look Lockstep.run_atFalseTopLevelModifier
    fun modifier => ?_
  split
  · refine (Reads.unexpected _).then ?_
    rintro _ _ ⟨rfl, dirty⟩
    refine (Reads.skipToSyncPoint trivial).then fun _ _ _ => ?_
    exact .peek (.onlyLook run_textStop fun _ _ yes => absurd yes dirty) fun t => .pure fun yes =>
      absurd yes dirty
  · rename_i going
    refine .given fun t _ start => ?_
    obtain ⟨⟨rfl, at_sync⟩, _⟩ := start
    refine .onlyLook (g := sectionStop) (fun s => ?_) fun u same _ =>
      ⟨rfl, congrArg sectionStop same, ?_⟩
    · rw [run_bind, run_peek, sectionStop]
      cases s.next? <;> rfl
    · cases sync with
      | true => exact at_sync
      | false => exact (going (Bool.or_eq_true_iff.mpr (.inl rfl))).elim

theorem sectionEnd_skips : Reads text final Mode.any pre sectionEnd fun _ _ => True :=
  .given fun s _ _ => (sectionEnd_reads s).weaken fun _ _ _ => trivial

theorem next?_eq (s : ParseState) : s.next? = s.input.here.nextSolid?.map (·.1) := by
  rw [ParseState.next?, s.input.ahead_eq]

/-- What is read behind the keyword and the colon of a section is what it
holds, if it ends right then. -/
theorem holds_of_walks {c c₁ c₂ : Cursor} {s : ParseState} (kind : SectionKind)
    {keyword colon : Token} {tokens : List Token}
    (place : (Cursor.start text).Reaches c) (first : c.Walk Mode.unchanged [keyword] c₁)
    (second : c₁.Walk Mode.unchanged [colon] c₂) (body : c₂.Walk Mode.unchanged tokens s.input.here)
    (is_keyword : keyword.kind = .keyword kind.keyword) (is_colon : colon.kind = .symbol .colon)
    (sync : s.kindAhead?.all isSyncKind) :
    RuleSection.Holds text ⟨kind, ⟨keyword.start, c₂.offset⟩, ⟨keyword.start, sectionStop s⟩⟩
      tokens := by
  have other : ¬ keyword.kind.isOfHex := by rw [is_keyword]; exact Bool.false_ne_true
  cases first with
  | @read _ after _ _ _ mode next allowed rest =>
    cases allowed
    cases rest
    obtain ⟨rest, reaches, solid⟩ := Cursor.nextSolid?_alone next other
    obtain ⟨taken, split, offset⟩ := place.trans reaches
    have dropped : dropBytes? text keyword.start = some rest := by
      rw [show text = taken ++ rest from split, show keyword.start = byteLength taken
        from (offset.trans (Nat.zero_add _))]
      exact dropBytes?_byteLength_append taken rest
    have stops : colon.stop = c₂.offset := by
      cases second with
      | read next allowed rest =>
        cases rest
        rw [Cursor.enter_offset]
        exact (Cursor.nextSolid?_place next).2.1.symm
    have all := solid.trans
      (congrArg (keyword :: ·) (second.solid.trans (congrArg ([colon] ++ ·) body.solid)))
    rw [ParseState.kindAhead?, next?_eq] at sync
    refine ⟨rest, keyword, colon, s.input.here.solid, dropped, all, is_keyword, is_colon, stops, ?_⟩
    cases ahead : s.input.here.nextSolid? with
    | none =>
      have stop : sectionStop s = s.textStop := by rw [sectionStop, next?_eq, ahead]; rfl
      rw [Cursor.solid_of_none ahead]
      refine ⟨fun t member => ?_, fun _ member => (List.not_mem_nil member).elim, rfl⟩
      show t.stop ≤ sectionStop s
      exact stop ▸ Nat.le_trans (body.ordered.1 t member).2 (Nat.le_add_right _ _)
    | some entry =>
      obtain ⟨u, later⟩ := entry
      obtain ⟨start, place, _⟩ := Cursor.nextSolid?_place ahead
      have stop : sectionStop s = u.start := by rw [sectionStop, next?_eq, ahead]; rfl
      rw [ahead] at sync
      rw [Cursor.solid_of_next ahead]
      refine ⟨fun t member => ?_, fun t member => ?_, sync⟩
      · show t.stop ≤ sectionStop s
        exact stop ▸ Nat.le_trans (body.ordered.1 t member).2 start
      · show sectionStop s ≤ t.start
        rw [stop]
        rcases List.mem_cons.mp member with rfl | member
        · exact Nat.le_refl _
        · have behind := Cursor.offset_le_of_solid member
          rw [place] at behind
          exact Nat.le_trans (Nat.le_add_right _ _) behind

/-- What is read for a section: its head, its content and what is skipped at its
end. Without an error it is the only one of its kind and holds its content. -/
theorem ruleSection_content (kind : SectionKind) (rule : Rule)
    {contents : Bool → Rule → List Token → Prop}
    (content : ∀ duplicate, Reads text final Mode.unchanged anywhere
    (sectionContent kind duplicate rule) (contents duplicate)) :
    Reads text final Mode.any (fun s => s.kindAhead? = some (.keyword kind.keyword))
      (ruleSection kind rule) fun r further =>
      ∃ rule' s front middle back, further = front ++ (middle ++ back) ∧
        r = { rule' with sections := rule'.sections ++ [s] } ∧
        s.kind = kind ∧ contents (rule.sections.any (·.kind == kind)) rule' middle ∧
        (Grammatical final → rule.sections.any (·.kind == kind) = false ∧ s.Holds text middle) := by
  refine .given fun s of start => ?_
  obtain ⟨keyword, next, is_keyword⟩ := ParseState.kindAhead?_eq_some start
  have read : Reads text final Mode.unchanged (· = s) advance fun o tokens => o = some keyword ∧
    tokens = [keyword] :=
    (Reads.advance Mode.unchanged_normal).restrict fun _ same => same ▸ next
  refine .step read (fun _ _ => trivial) ?_
  rintro _ ⟨result, rfl⟩ first
  rw [result]
  dsimp only
  generalize (advance.run s).2 = s₁ at first ⊢
  refine .step (sectionHead_reads _ _ _) (fun _ _ => trivial) fun colons headed second => ?_
  rw [run_sectionHead]
  generalize rule.sections.any (·.kind == kind) = duplicate at headed second ⊢
  generalize ((sectionHead kind duplicate keyword).run s₁).2 = s₂ at second ⊢
  refine .step (content duplicate).at (fun _ _ => trivial) fun middle known body => ?_
  generalize (sectionContent kind duplicate rule).run s₂ = result at known body ⊢
  obtain ⟨rule', s₃⟩ := result
  refine (sectionEnd_reads s₃).then fun stop rest ended => .pure ?_
  refine ⟨rule', _, [keyword] ++ colons, middle, rest ++ [], by simp only [List.append_assoc], rfl,
    rfl, known, fun yes => ?_⟩
  obtain ⟨sole, colon, is_colon, rfl⟩ := headed yes
  obtain ⟨_, rfl, sync⟩ := ended yes
  exact ⟨sole, holds_of_walks kind of.place first second body is_keyword is_colon sync⟩

theorem sections_filter_none {sections : List RuleSection} {kind : SectionKind}
    (sole : sections.any (·.kind == kind) = false) :
    sections.filter (·.kind == kind) = [] :=
  List.filter_eq_nil_iff.mpr fun s member found =>
    Bool.false_ne_true (sole ▸ List.any_eq_true.mpr ⟨s, member, found⟩)

theorem sectionContent_condition (duplicate : Bool) (rule : Rule) :
    Reads text final Mode.unchanged pre (sectionContent .condition duplicate rule) fun r tokens =>
      ∃ e, Built text final e.leaves [e] tokens ∧ r = if duplicate then rule
        else { rule with condition := some e } := by
  refine (expression_reads Mode.unchanged_normal).then fun e tokens built =>
    .pure ⟨e, built.cast rfl rfl (by simp), ?_⟩
  cases duplicate <;> rfl

theorem conditionSection_reads {rule : Rule} {tokens : List Token}
    (h : RuleRead text final rule tokens) :
    Reads text final Mode.any (fun s => s.kindAhead? = some (.keyword .kwCondition))
      (ruleSection .condition rule) fun r further => RuleRead text final r (tokens ++ further) := by
  refine (ruleSection_content .condition rule fun duplicate =>
    sectionContent_condition duplicate rule).weaken ?_
  rintro _ _ ⟨rule', s, front, middle, back, rfl, rfl, kind, ⟨e, built, content⟩, known⟩
  have longer := h.more (front ++ (middle ++ back))
  have kept : Rule.Valued text final { rule with sections := rule.sections ++ [s] }
      (tokens ++ (front ++ (middle ++ back))) := by
    refine longer.valued.congr rfl rfl ?_
    rw [List.filter_append, List.filter_singleton, kind]
    exact List.append_nil _
  cases sole : rule.sections.any (·.kind == .condition) with
  | true =>
    rw [sole] at content known
    subst content
    exact ⟨longer.names, longer.named, fun yes => absurd (known yes).1 Bool.noConfusion, kept⟩
  | false =>
    rw [sole] at content
    subst content
    refine ⟨?_, longer.named, fun yes => ?_, fun e' same v span inside => ?_, kept.metas,
      kept.entries⟩
    · have longer := (h.names.more front).withCondition (built.accounts.taken.more back)
      rwa [List.append_assoc] at longer
    · refine .inr ⟨e, s, rfl, ?_, ⟨middle, (known yes).2, built.accounts.stand yes⟩,
        built.grouped e (List.mem_singleton_self e)⟩
      show (rule.sections ++ [_]).filter _ = [_]
      rw [List.filter_append, sections_filter_none sole, List.filter_singleton, kind]
      rfl
    · cases same
      obtain ⟨t, member, valued⟩ := built.valued e (List.mem_singleton_self e) v span inside
      exact ⟨t, List.mem_append_right _ (List.mem_append_right _ (List.mem_append_left _ member)),
        valued⟩

theorem sectionContent_metas (duplicate : Bool) (rule : Rule) :
    Reads text final Mode.unchanged pre (sectionContent .metas duplicate rule) fun r tokens =>
      ∃ metas, r = { rule with metas } ∧ MetasLead text final rule.metas metas tokens := by
  refine (Reads.iterate _ _ metaStep_progress metaStep_reads [] .none).then
    fun metas further lead => .pure ⟨metas, rfl, ?_⟩
  rwa [List.append_nil]

theorem metasSection_reads {rule : Rule} {tokens : List Token}
    (h : RuleRead text final rule tokens) :
    Reads text final Mode.any (fun s => s.kindAhead? = some (.keyword .kwMeta))
      (ruleSection .metas rule) fun r further => RuleRead text final r (tokens ++ further) := by
  refine (ruleSection_content .metas rule fun duplicate =>
    sectionContent_metas duplicate rule).weaken ?_
  rintro _ _ ⟨_, s, front, _, back, rfl, rfl, kind,
    ⟨metas, rfl, read, junk, rfl, entries, none⟩, known⟩
  have longer := h.more (front ++ (read ++ junk ++ back))
  refine longer.congr longer.names rfl rfl ?_ ⟨longer.valued.condition, fun m member => ?_,
    fun yes => ?_⟩
  · rw [List.filter_append, List.filter_singleton, kind]
    exact List.append_nil _
  · rcases entries.part member with before | ⟨part, among, new⟩
    · exact longer.valued.metas m before
    · refine ⟨part, among.trans ⟨tokens ++ front, junk ++ back, ?_⟩, new⟩
      simp only [List.append_assoc]
  · obtain ⟨sole, holds⟩ := known yes
    obtain ⟨before, nothing⟩ : rule.metas = [] ∧ rule.sections.filter (·.kind == .metas) = [] := by
      refine (h.valued.entries yes).resolve_right fun ⟨s, _, one, _⟩ => ?_
      cases one.symm.trans (sections_filter_none sole)
    obtain ⟨reads, rfl, rfl, all⟩ := entries
    rw [none yes, List.append_nil] at holds
    refine .inr ⟨s, reads, ?_, ?_, holds, ?_, all⟩
    · show (rule.sections ++ [_]).filter _ = [_]
      rw [List.filter_append, nothing, List.filter_singleton, kind]
      rfl
    · show rule.metas ++ _ = _
      rw [before, List.nil_append]
    · refine ⟨tokens ++ front, junk ++ back, ?_⟩
      simp only [List.append_assoc]

theorem ruleSection_reads (kind : SectionKind) {rule : Rule} {tokens : List Token}
    (h : RuleRead text final rule tokens) :
    Reads text final Mode.any (fun s => s.kindAhead? = some (.keyword kind.keyword))
      (ruleSection kind rule) fun r further => RuleRead text final r (tokens ++ further) := by
  cases kind with
  | condition => exact conditionSection_reads h
  | metas => exact metasSection_reads h
  | strings =>
    have head : ∀ keyword, Reads text final Mode.any anywhere
        (sectionHead .strings (rule.sections.any (·.kind == .strings)) keyword) fun _ _ => True :=
          fun keyword =>
      ((sectionHead_reads _ _ keyword).widen fun _ _ => trivial).weaken fun _ _ _ => trivial
    refine .readKind trivial fun keyword _ => (head keyword).then fun span before _ => ?_
    have content : Reads text final Mode.any anywhere
        (sectionContent .strings (rule.sections.any (·.kind == .strings)) rule)
        fun r further => ∃ patterns, r = { rule with patterns } ∧
          TakenFrom { rule with patterns }.names (tokens ++ further) := by
      have start : PatternsRead ((if rule.ident.name = "" then [] else [(.ident, rule.ident)]) ++
          rule.condition.elim [] fun e => namesOf e.leaves) rule.patterns tokens := by
        refine h.names.fewer (List.Perm.subperm ?_)
        rw [Rule.names, List.append_assoc]
        exact List.perm_append_comm.append_left _
      refine (Reads.iterate _ _ patternStep_progress (patternStep_reads _) _ start).then
        fun patterns further read => .pure ?_
      rw [List.append_nil]
      refine ⟨patterns, rfl, read.fewer (List.Perm.subperm ?_)⟩
      rw [Rule.names, List.append_assoc]
      exact List.perm_append_comm.append_left _
    refine content.then ?_
    rintro _ middle ⟨patterns, rfl, names⟩
    refine sectionEnd_skips.then fun stop last _ => .pure ?_
    refine (h.more _).congr (names.within ?_) rfl rfl ?_ ((h.more _).valued.congr rfl rfl ?_)
    · refine .append_left ?_ tokens
      exact .cons _ ((List.sublist_append_left _ _).trans (List.sublist_append_right _ _))
    all_goals
      rw [List.filter_append]
      exact List.append_nil _

/-! ### Rules -/

theorem bodyStep_reads (rule : Rule) (tokens : List Token) (h : RuleRead text final rule tokens) :
    Reads text final Mode.any anywhere (bodyStep rule) fun r further =>
      Reads.around (RuleRead text final) (RuleRead text final) r (tokens ++ further) := by
  refine .peek ((Reads.report _ _ rfl).then fun _ _ _ => .pure (h.more _)) fun t => ?_
  dsimp only
  split
  · exact .readNext trivial
      (.pure ((h.more _).congr (h.more _).names rfl rfl rfl ((h.more _).valued.congr rfl rfl rfl)))
  cases found : sectionKindOf? t.kind with
  | some kind =>
    have keyword : t.kind = .keyword kind.keyword := by
      unfold sectionKindOf? at found
      split at found <;> cases found <;> assumption
    refine .bind (m := fun s => s.kindAhead? = some (.keyword kind.keyword))
      Reads.setPanicking_false ?_ ?_
    · exact fun s start => keyword ▸ ParseState.kindAhead?_of_next start.2
    · rintro _ _ rfl
      exact (ruleSection_reads kind h).then fun r further read => .pure (by rwa [List.append_nil])
  | none =>
    refine .glance run_atTopLevelItem fun top => ?_
    split
    · exact (Reads.report _ _ rfl).then fun _ _ _ => .pure (h.more _)
    · exact (Reads.unexpected _).then fun _ _ _ => (Reads.advanceAny trivial).then fun _ _ _ =>
        .pure (h.more _)

theorem ruleHead_reads (flags : RuleFlags) :
    Reads text final Mode.any pre (ruleHead flags) fun r tokens =>
      RuleRead text final r tokens := by
  have name : Reads text final Mode.any pre ruleName fun i tokens =>
      (i.name = "" ∧ ¬ Grammatical final) ∨ ∃ t, t.kind = .ident ∧ i = identOf t ∧
        tokens = [t] := by
    refine .eat trivial ?_ fun t kind => .pure (.inr ⟨t, kind, rfl, rfl⟩)
    exact (Reads.unexpected _).then fun _ _ ⟨_, dirty⟩ => .pointHere fun _ =>
      .pure (.inl ⟨rfl, dirty⟩)
  have tags : Reads text final Mode.any anywhere tags fun _ _ => True := by
    refine .eat trivial (.pure trivial) fun _ _ => loop_reads tagStep_progress (fun tags => ?_) _
    refine .eat trivial (.pure trivial) fun t _ => ?_
    dsimp only
    split
    · exact .skip (Reads.report _ _ rfl) fun _ => .pure trivial
    · exact .pure trivial
  refine name.then fun ident first named => tags.then fun tags second _ => ?_
  have finish : ∀ (o : Option Token) (third : List Token),
      RuleRead text final
        { isPrivate := flags.isPrivate, isGlobal := flags.isGlobal, ident, tags
          metas := [], patterns := [], condition := none, sections := []
          lbrace := o.map (·.span), rbrace := none, span := ident.span }
        (first ++ (second ++ third)) := by
    refine fun o third =>
      ⟨?_, fun yes => ?_, fun _ => .inl ⟨rfl, rfl⟩, nofun, nofun, fun _ => .inl ⟨rfl, rfl⟩⟩
    · rcases named with ⟨none, _⟩ | ⟨t, kind, rfl, rfl⟩
      · rw [Rule.names, if_pos none]
        exact .none _
      · rw [Rule.names]
        split
        · exact .none _
        · have named : t.named = (.ident, identOf t) := by rw [Token.named, kind]
          exact named ▸ TakenFrom.one t _
    · rcases named with ⟨_, dirty⟩ | ⟨t, _, rfl, rfl⟩
      · exact absurd yes dirty
      · exact ⟨t, List.mem_cons_self .., rfl⟩
  exact .expect trivial (fun _ => .pure (finish none _)) fun t _ => .pure (finish (some t) _)

/-- Of a whole rule it is known that it has a condition, unless its name is missing. -/
structure WholeRead (text : List Char) (final : List SyntaxError) (r : Rule)
    (tokens : List Token) : Prop where
  names : TakenFrom r.names tokens
  stands : Grammatical final → ∃ t ∈ tokens, r.ident = identOf t ∧
      (t.text = [] ∨ ∃ e s, r.Stands text e s)
  valued : r.Valued text final tokens

theorem ruleAfterKeyword_reads (start : Nat) (flags : RuleFlags) :
    Reads text final Mode.any pre (ruleAfterKeyword start flags) fun r tokens =>
      WholeRead text final r tokens := by
  refine (ruleHead_reads flags).then fun head first opened => ?_
  refine (Reads.iterate _ _ bodyStep_progress bodyStep_reads _ opened).then fun rule body read => ?_
  refine .glance (g := fun s => ((ruleStop rule).run s).1) (fun s => ?_) fun stop => ?_
  · unfold ruleStop
    cases rule.rbrace <;> rfl
  dsimp only
  split
  · refine (Reads.report _ _ rfl).then ?_
    rintro _ _ ⟨rfl, dirty⟩
    simp only [← List.append_assoc]
    exact .pure ⟨((read.more _).more _).names, fun yes => absurd yes dirty,
      ((read.more _).more _).valued.congr rfl rfl rfl⟩
  · rename_i complete
    simp only [← List.append_assoc]
    refine .pure ⟨(read.more _).names, fun yes => ?_, (read.more _).valued.congr rfl rfl rfl⟩
    obtain ⟨t, member, same⟩ := (read.more []).named yes
    refine ⟨t, member, same, ?_⟩
    refine (read.condition yes).imp (fun ⟨_, nothing⟩ => ?_) fun ⟨e, s, stands⟩ => ⟨e, s, ?_⟩
    · have missing : rule.sections.any (·.kind == .condition) = false :=
        List.any_eq_false.mpr fun s member => List.filter_eq_nil_iff.mp nothing s member
      rw [missing, Bool.not_false, Bool.true_and, bne_iff_ne, not_not, same] at complete
      exact String.ofList_eq_empty_iff.mp complete
    · exact ⟨stands.condition, stands.sole, stands.leaves, stands.grouped⟩

/-! ### Files -/

/-- What is known of the rules of a file when some tokens have been read. -/
structure RulesRead (text : List Char) (final : List SyntaxError) (rules : List Rule)
    (tokens : List Token) : Prop where
  names : TakenFrom (rules.flatMap Rule.names) tokens
  stands : Grammatical final → ∀ r ∈ rules, ∃ t ∈ tokens, r.ident = identOf t ∧
      (t.text = [] ∨ ∃ e s, r.Stands text e s)
  valued : ∀ r ∈ rules, r.Valued text final tokens

namespace RulesRead

variable {rules : List Rule} {tokens further : List Token}

theorem more (h : RulesRead text final rules tokens) (further : List Token) :
    RulesRead text final rules (tokens ++ further) := by
  refine ⟨h.names.more further, fun yes r member => ?_, fun r member =>
    (h.valued r member).more further⟩
  obtain ⟨t, inside, known⟩ := h.stands yes r member
  exact ⟨t, List.mem_append_left _ inside, known⟩

theorem add (h : RulesRead text final rules tokens) {r : Rule}
    (whole : WholeRead text final r further) :
    RulesRead text final (rules ++ [r]) (tokens ++ further) := by
  refine ⟨?_, fun yes r' member => ?_, fun r' member => ?_⟩
  · rw [List.flatMap_append, List.flatMap_singleton]
    exact h.names.append whole.names
  · rcases List.mem_append.mp member with member | last
    · exact (h.more further).stands yes r' member
    · obtain rfl := List.mem_singleton.mp last
      obtain ⟨t, inside, known⟩ := whole.stands yes
      exact ⟨t, List.mem_append_right _ inside, known⟩
  · rcases List.mem_append.mp member with member | last
    · exact (h.more further).valued r' member
    · obtain rfl := List.mem_singleton.mp last
      exact whole.valued.within (List.suffix_append ..).isInfix

end RulesRead

theorem ruleItem_reads : Reads text final Mode.any pre ruleItem fun o tokens => ∀ r ∈ o,
    WholeRead text final r tokens := by
  refine .peek (.pure nofun) fun t => ?_
  have flags : ∀ flags, Reads text final Mode.any anywhere (flagStep flags) fun _ _ => True := by
    refine fun flags => .peek (.pure trivial) fun t => ?_
    dsimp only
    split
    · refine .skip (.advanceAny trivial) fun _ => ?_
      split
      · exact .skip (Reads.report _ _ rfl) fun _ => .pure trivial
      · exact .pure trivial
    split
    · refine .skip (.advanceAny trivial) fun _ => ?_
      split
      · exact .skip (Reads.report _ _ rfl) fun _ => .pure trivial
      · exact .pure trivial
    · exact .pure trivial
  refine (loop_reads flagStep_progress flags _).then fun flags first _ => ?_
  refine .expect trivial (fun _ => .pure nofun) fun keyword _ =>
    (ruleAfterKeyword_reads _ flags).then fun r body whole => ?_
  refine .pure fun r' same => ?_
  obtain rfl := Option.some.inj same
  refine ⟨whole.names.within ?_, fun yes => ?_,
    whole.valued.within ⟨first ++ [keyword], [], by simp⟩⟩
  · rw [List.append_nil]
    exact (List.sublist_cons_self ..).trans (List.sublist_append_right ..)
  · obtain ⟨t, inside, known⟩ := whole.stands yes
    refine ⟨t, List.mem_append_right _ (List.mem_cons_of_mem _ ?_), known⟩
    exact List.mem_append_left _ inside

/-- The items of the top level that are no rules are a keyword and a string. -/
theorem stringItem_reads {f : Token → Token → α} : Reads text final Mode.any pre
    (do
      match ← advance with
      | none => return none
      | some start =>
        match ← expect .string with
        | none => return none
        | some t => return some (f start t)) fun _ _ => True := by
  refine .skip (.advanceAny trivial) fun o => ?_
  cases o with
  | none => exact .pure trivial
  | some t => exact .expect trivial (fun _ => .pure trivial) fun _ _ => .pure trivial

theorem itemStep_reads (items : Items) (tokens : List Token)
    (h : RulesRead text final items.rules tokens) :
    Reads text final Mode.any anywhere (itemStep items) fun r further =>
      Reads.around (RulesRead text final ·.rules) (RulesRead text final ·.rules) r
        (tokens ++ further) := by
  refine .glance run_peekKind fun ahead => ?_
  split
  · exact .pure (h.more _)
  · exact Reads.setPanicking_false.then fun _ _ _ => stringItem_reads.then fun _ _ _ =>
      .pure (h.more _)
  · exact Reads.setPanicking_false.then fun _ _ _ => stringItem_reads.then fun _ _ _ =>
      .pure (h.more _)
  · split
    · refine Reads.setPanicking_false.then ?_
      rintro _ _ rfl
      refine ruleItem_reads.then fun o further whole => .pure ?_
      rw [List.append_nil, List.nil_append]
      cases o with
      | none =>
        show RulesRead text final (items.rules ++ []) _
        rw [List.append_nil]
        exact h.more further
      | some r => exact h.add (whole r rfl)
    · exact (Reads.unexpected _).then fun _ _ _ => (Reads.advanceAny trivial).then fun _ _ _ =>
        .pure (h.more _)

end Parser

/-- The whole parse: the state that it ends in and what is known of its rules. -/
theorem Parser.items_read (text : List Char) : (finalState text).Of text ∧
    ∃ tokens, (Cursor.start text).Walk Mode.any tokens (finalState text).input.here ∧
    (finalState text).read = tokens.reverse ++ (initial text).read ∧
      RulesRead text (parse text).errors (parse text).rules tokens := by
  have loop : Reads text (parse text).errors Mode.any anywhere (iterate itemStep ⟨[], [], []⟩) _ :=
    .iterate _ _ itemStep_progress itemStep_reads [] ⟨.none _, fun _ => nofun, nofun⟩
  exact loop (initial text) ⟨.refl _, nofun, .nil⟩ trivial (List.prefix_refl _)

/-- The rules of a text come from tokens that stand one behind the other. These
are all the tokens that are read. -/
theorem parse_reads_all (text : List Char) :
    ∃ tokens d, (Cursor.start text).Walk Mode.any tokens d ∧
    (finalState text).read = tokens.reverse ∧
    Parser.RulesRead text (parse text).errors (parse text).rules tokens := by
  obtain ⟨_, tokens, walk, all, read⟩ := Parser.items_read text
  exact ⟨tokens, _, walk, all.trans (List.append_nil _), read⟩

/-- The errors about values are about integers of the text, at most one about each. -/
theorem parse_valueErrors (text : List Char) :
    ValueErrors text (finalState text).input.here.offset (parse text).errors :=
  (Parser.items_read text).1.values

theorem parse_reads (text : List Char) : ∃ tokens d, (Cursor.start text).Walk Mode.any tokens d ∧
    Parser.RulesRead text (parse text).errors (parse text).rules tokens := by
  obtain ⟨tokens, d, walk, _, read⟩ := parse_reads_all text
  exact ⟨tokens, d, walk, read⟩

/-- In a text without errors, every rule has one section for its condition.
The tokens of this section, from its colon to its end, are those that the tree
of the condition stands for, one for one and in the same order; and the tree is
grouped as the precedence and the associativity of its operators ask. -/
theorem condition_stands (text : List Char) (clean : (parse text).errors = []) (r : Rule)
    (member : r ∈ (parse text).rules) :
    ∃ e s, r.Stands text e s := by
  obtain ⟨tokens, d, walk, read⟩ := parse_reads text
  obtain ⟨t, inside, _, missing | stands⟩ := read.stands (clean ▸ .nil) r member
  · exact absurd missing (walk.nonempty t inside)
  · exact stands

def sumRule : List Char := "rule a \x7b condition: 1 + 2 == 3 or #x > 2 \x7d".toList

theorem condition_stands_sum :
    (parse sumRule).errors = [] ∧ ∃ r ∈ (parse sumRule).rules, ∃ e s, r.Stands sumRule e s := by
  have clean : (parse sumRule).errors = [] := by decide +kernel
  have some_rule : 0 < (parse sumRule).rules.length := by decide +kernel
  exact ⟨clean, _, List.get_mem _ ⟨0, some_rule⟩,
    condition_stands sumRule clean _ (List.get_mem _ ⟨0, some_rule⟩)⟩

end RuleDesk
