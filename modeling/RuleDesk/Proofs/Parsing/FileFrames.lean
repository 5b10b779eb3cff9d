import RuleDesk.Proofs.Parsing.ConditionFrames
import RuleDesk.Proofs.Parsing.DeepReports
import RuleDesk.Proofs.Parsing.Origins
import RuleDesk.Proofs.Parsing.RuleSpans

namespace RuleDesk

/-! ## The spans of a file -/

def Import.tree (i : Import) : SpanTree := .node i.span [.node i.nameSpan []]

def Include.tree (i : Include) : SpanTree := .node i.span []

def MetaEntry.tree (e : MetaEntry) : SpanTree := .node e.span [.name e.ident]

def Modifier.tree (m : Modifier) : SpanTree := .node m.span []

def Pattern.tree (p : Pattern) : SpanTree :=
  .node p.span (.name p.ident :: .node p.value [] :: p.modifiers.map Modifier.tree)

def RuleSection.tree (s : RuleSection) : SpanTree :=
  .node s.span [.node s.keyword [], .node s.body []]

/-- The spans of the parts of a rule, and those of its header and of the whole. -/
def Rule.trees (r : Rule) : List SpanTree :=
  [.node r.span [], .node r.headerSpan [], .name r.ident] ++ r.tags.map .name ++
    r.metas.map MetaEntry.tree ++
    r.patterns.map Pattern.tree ++ r.condition.toList.map Expr.tree ++
      r.sections.map RuleSection.tree ++
    (r.lbrace.toList ++ r.rbrace.toList).map fun s => .node s []

def SourceFile.trees (f : SourceFile) : List SpanTree :=
  f.imports.map Import.tree ++ f.includes.map Include.tree ++ f.rules.flatMap Rule.trees

/-- A tree that fits into the text, and that is nested in a clean parse. -/
structure SpanTree.Stands (text : List Char) (clean : Prop) (t : SpanTree) : Prop where
  fits : t.Everywhere (·.Fits text)
  nested : clean → t.Everywhere Nested

section

variable {text : List Char} {clean : Prop} {low high : Nat} {trees : List SpanTree}

theorem Laid.stands (h : Laid text clean low high trees) : ∀ t ∈ trees, t.Stands text clean :=
  fun t member => ⟨h.fits t member, fun yes => h.nested yes t member⟩

theorem Laid.stands_one {t : SpanTree} (h : Laid text clean low high [t]) : t.Stands text clean :=
  h.stands t (List.mem_singleton_self t)

theorem SpanTree.Stands.leaf {s : Span} (fits : s.Fits text) : (node s []).Stands text clean :=
  (Laid.leaf fits fun _ => ⟨Nat.le_refl _, Nat.le_refl _⟩).stands_one

theorem SpanTree.Stands.span {t : SpanTree} (h : t.Stands text clean) : t.span.Fits text :=
  h.fits.inv.1.1

end

/-- All the parts of a rule stand in the text, and its brace is behind its name. -/
structure RuleParts (text : List Char) (clean : Prop) (r : Rule) : Prop where
  ident : (SpanTree.name r.ident).Stands text clean
  named : clean → r.ident.name ≠ ""
  tags : ∀ i ∈ r.tags, (SpanTree.name i).Stands text clean
  metas : ∀ e ∈ r.metas, e.tree.Stands text clean
  patterns : ∀ p ∈ r.patterns, p.tree.Stands text clean
  condition : ∀ e ∈ r.condition, e.tree.Stands text clean
  sections : ∀ s ∈ r.sections, s.tree.Stands text clean
  lbrace : ∀ s ∈ r.lbrace, s.Fits text ∧ r.ident.span.stop ≤ s.start
  rbrace : ∀ s ∈ r.rbrace, s.Fits text

/-- What is known of a rule while it is read. In a clean parse it has no section
for a condition yet, or the condition lies in the body of the only one. -/
structure RuleLaid (text : List Char) (clean : Prop)
    (r : Rule) : Prop extends RuleParts text clean r where
  inside : clean → r.condition = none ∧ r.sections.filter (·.kind == .condition) = [] ∨
    ∃ e s, r.condition = some e ∧ r.sections.filter (·.kind == .condition) = [s] ∧
        s.body.contains e.span

namespace Parser

open Lays (around)

variable {text : List Char} {clean : Prop} {n : Nat} {pre : ParseState → Prop}

/-! ### Imports and meta entries -/

theorem importItem_lays :
    Lays text clean n pre importItem fun _ o => ∀ i ∈ o, i.tree.Stands text clean := by
  refine .advance (.pure nofun) fun start found =>
    .expect (fun _ => .pure nofun) fun t found' => .pure ?_
  rintro _ ⟨⟩
  exact (Laid.led found (.token found')).stands_one

theorem includeItem_lays :
    Lays text clean n pre includeItem fun _ o => ∀ i ∈ o, i.tree.Stands text clean := by
  refine .advance (.pure nofun) fun start found =>
    .expect (fun _ => .pure nofun) fun t found' => .pure ?_
  rintro _ ⟨⟩
  exact .leaf (found.stands.fits.through found'.stands.fits)

theorem negativeMeta_lays : Lays text clean n pre negativeMeta fun _ _ => True := by
  refine .peek ((Lays.unexpected _).still fun _ _ => .pure trivial) fun t found => ?_
  dsimp only
  split
  · exact .readNext ((integerValue_lays found.stands.fits).still fun _ _ => .pure trivial)
  · exact .readNext (.pure trivial)
  · exact ((Lays.unexpected _).still fun _ _ => .pure trivial).at

theorem metaValue_lays : Lays text clean n pre metaValue fun _ _ => True := by
  refine .peek ((Lays.unexpected _).still fun _ _ => .pure trivial) fun t found => ?_
  have fits := found.stands.fits
  dsimp only
  split
  · exact .readNext (.pure trivial)
  · exact .readNext (.pure trivial)
  · exact .readNext (.pure trivial)
  · exact (Lays.reportAt rfl fits).still fun _ _ => .pass fun _ _ => .pure trivial
  · exact .readNext (.pure trivial)
  · exact (integerValue_lays fits).still fun _ _ => .pass fun _ _ => .pure trivial
  · exact .readNext negativeMeta_lays
  · exact ((Lays.unexpected _).still fun _ _ => .pure trivial).at

theorem metaStep_lays (entries : List MetaEntry) (m : Nat)
    (h : ∀ e ∈ entries, e.tree.Stands text clean) :
    Lays text clean m anywhere (metaStep entries)
      (around (fun _ entries => ∀ e ∈ entries, e.tree.Stands text clean)
      fun _ entries => ∀ e ∈ entries, e.tree.Stands text clean) := by
  refine .eat (.pure h) fun t found => .expect (fun _ => .pure h) fun _ found' => ?_
  refine metaValue_lays.then fun o k between _ => ?_
  cases o with
  | none => exact .pure h
  | some value =>
    refine .pointHere fun here =>
      .pure (List.forall_mem_append.mpr ⟨h, List.forall_mem_singleton.mpr ?_⟩)
    have rest : t.stop ≤ k := Nat.le_trans found'.stop between.ordered
    exact ((Laid.name found).behind (.nil rest) here).stands_one

/-! ### Patterns -/

theorem hexJump_lays : Lays text clean n pre hexJump fun _ _ => True := by
  have close : ∀ m, Lays text clean m anywhere (do let _ ← expect (.symbol .rbracket)) fun _ _ =>
      True := fun m =>
    .demand fun _ _ => .pure trivial
  have upper : ∀ m, Lays text clean m anywhere
      (do
        if (← eat (.symbol .hyphen)).isSome then
          let _ ← eat .integer
        let _ ← expect (.symbol .rbracket)) fun _ _ => True := fun m =>
    .eat (close m) fun _ _ => .eat (close _) fun _ _ => close _
  exact .eat (upper n).at fun _ _ => upper _

/-- A hex pattern ends between its brace and the place it was read to. -/
def HexEnds (text : List Char) (n m : Nat) : HexProgress → Prop
  | .within _ => True
  | .ended stop => n ≤ stop ∧ stop ≤ m ∧ IsBoundary text stop

theorem hexStep_lays {lbrace : Span} (fits : lbrace.Fits text) (progress : HexProgress) (m : Nat)
    (start : n ≤ m)
    (h : HexEnds text n m progress) : Lays text clean m anywhere (hexStep lbrace progress)
      (around (fun k progress => n ≤ k ∧ HexEnds text n k progress) fun k progress => n ≤ k ∧
        HexEnds text n k progress) := by
  cases progress with
  | ended stop => exact .pure ⟨start, h⟩
  | within parens =>
    have cut : Lays text clean m anywhere
        (do report .unbalancedBraces lbrace; return .done (.ended (← lastStop)))
        (around (fun k progress => n ≤ k ∧ HexEnds text n k progress) fun k progress => n ≤ k ∧
          HexEnds text n k progress) :=
      (Lays.reportAt rfl fits).still fun _ _ => .lastStop fun here =>
        .pure ⟨start, start, Nat.le_refl m, here⟩
    refine .peek cut fun t found => ?_
    have read : n ≤ t.stop := Nat.le_trans start found.stop
    dsimp only
    split
    · exact .readNext (.pure ⟨read, trivial⟩)
    split
    · exact .readInto
        (hexJump_lays.then fun _ k between _ => .pure ⟨Nat.le_trans read between.ordered, trivial⟩)
    split
    · exact .readNext (.pure ⟨read, trivial⟩)
    split
    · exact .readNext (.pure ⟨read, trivial⟩)
    split
    · exact .readNext (.pure ⟨read, trivial⟩)
    split
    · exact .readNext (.pure ⟨read, read, Nat.le_refl _, found.stands.fits.stop⟩)
    refine .glance run_atSyncPoint fun sync => ?_
    split
    · exact cut.at
    refine ((Lays.unexpected _).still fun _ _ =>
      Lays.skipToSyncPoint.then fun _ k between _ => ?_).at
    have later := Nat.le_trans start between.ordered
    refine .eat (.lastStop fun here => .pure ⟨later, later, Nat.le_refl k, here⟩)
      fun u found' => .pure ?_
    have further := Nat.le_trans later found'.stop
    exact ⟨further, further, Nat.le_refl _, found'.stands.fits.stop⟩

theorem hexPattern_lays {lbrace : Span} (fits : lbrace.Fits text) :
    Lays text clean n pre (hexPattern lbrace) fun m stop => n ≤ stop ∧ stop ≤ m ∧
      IsBoundary text stop := by
  refine Lays.then (.iterate (fun k progress => n ≤ k ∧ HexEnds text n k progress)
    (fun k progress => n ≤ k ∧ HexEnds text n k progress) (hexStep_progress lbrace)
    (fun progress m h => hexStep_lays fits progress m h.1 h.2) ⟨Nat.le_refl n, trivial⟩)
      fun progress m _ ended => ?_
  cases progress with
  | ended stop => exact .pure ended.2
  | within _ => exact Lays.lastStop (f := pure) fun here => .pure ⟨ended.1, Nat.le_refl m, here⟩

/-- The value of a pattern. -/
theorem patternValue_lays :
    Lays text clean n pre patternValue fun m o => ∀ v ∈ o, Laid text clean n m [.node v.2 []] := by
  refine .peek ((Lays.unexpected _).still fun _ _ => .pure nofun) fun t found => ?_
  have fits := found.stands.fits
  have token : ∀ kind : PatternKind, ∀ v ∈ some (kind, t.span), Laid text clean n t.stop
      [.node v.2 []] := by
    rintro kind _ ⟨⟩
    exact .token found
  dsimp only
  split
  · exact .readNext (.pure (token _))
  · exact .readNext (.pure (token _))
  · exact .readNext ((Lays.reportAt rfl fits).still fun _ _ => .pure (token _))
  · exact .readNext ((Lays.reportAt rfl fits).still fun _ _ => .pure (token _))
  · refine .readInto ((hexPattern_lays fits).then fun stop m _ ended => .pure ?_)
    rintro _ ⟨⟩
    have value : (Span.mk t.start stop).Fits text :=
      fits.extend (.mk_of ended.1 fits.stop ended.2.2)
    exact .leaf value fun _ => ⟨found.start, ended.2.1⟩
  · exact ((Lays.unexpected _).still fun _ _ => .pure nofun).at

theorem skipArguments_lays : Lays text clean n pre skipArguments fun _ _ => True := by
  refine .eat (.pure trivial) fun _ _ => ?_
  refine Lays.then (.skipping argumentStep_progress fun m => ?_) fun _ _ _ _ => .demand fun _ _ =>
    .pure trivial
  refine .glance run_atArgumentsEnd fun ended => ?_
  split
  · exact .pure trivial
  · exact .pass fun _ _ => .pure trivial

theorem modifierStep_lays (modifiers : List Modifier) (m : Nat)
    (h : Laid text clean n m (modifiers.map Modifier.tree)) :
    Lays text clean m anywhere (modifierStep modifiers)
      (around (fun k modifiers => Laid text clean n k (modifiers.map Modifier.tree))
        fun k modifiers =>
        Laid text clean n k (modifiers.map Modifier.tree)) := by
  refine .peek (.pure h) fun t found => .glance (run_isBareModifier · _) fun bare => ?_
  have finish : ∀ k, (Span.mk t.stop k).Fits text → Lays text clean k anywhere
      (do return .yield (modifiers ++ [⟨⟨t.start, ← lastStop⟩, t.name⟩]))
      (around (fun k modifiers => Laid text clean n k (modifiers.map Modifier.tree))
        fun k modifiers =>
        Laid text clean n k (modifiers.map Modifier.tree)) := by
    refine fun k rest => .lastStop fun _ => .pure ?_
    have one : Laid text clean m k [(Modifier.mk ⟨t.start, k⟩ t.name).tree] :=
      .leaf (found.stands.fits.extend rest) fun _ => ⟨found.start, Nat.le_refl k⟩
    have longer := h.append one
    rwa [← List.map_singleton, ← List.map_append] at longer
  dsimp only
  split
  · exact .readNext (finish _ (.point found.stands.fits.stop))
  split
  · exact .readNext (skipArguments_lays.then fun _ k between _ => finish k between)
  · exact .pure h

theorem modifiers_lays :
    Lays text clean n pre modifiers fun m ms => Laid text clean n m (ms.map Modifier.tree) :=
  .iterate _ _ modifierStep_progress modifierStep_lays (.nil (Nat.le_refl n))

theorem keepPattern_lays {patterns : List Pattern} {p : Pattern}
    (h : ∀ q ∈ patterns, q.tree.Stands text clean) (new : p.tree.Stands text clean) :
    Lays text clean n pre (keepPattern patterns p) fun _ patterns => ∀ q ∈ patterns,
      q.tree.Stands text clean := by
  have kept : ∀ q ∈ patterns ++ [p], q.tree.Stands text clean :=
    List.forall_mem_append.mpr ⟨h, List.forall_mem_singleton.mpr new⟩
  have name : ∀ q : Pattern, q.tree.Stands text clean → q.ident.span.Fits text := fun q stands =>
    (stands.fits.inv.2 _ (List.mem_cons_self ..)).inv.1.1
  unfold keepPattern
  split
  · exact .pure kept
  split
  · rename_i existing found
    have old := name existing (h existing (List.mem_of_find?_eq_some found))
    refine (Lays.report ?_).still fun _ _ => .pure h
    exact List.forall_mem_cons.mpr ⟨name p new, List.forall_mem_singleton.mpr old⟩
  · exact .pure kept

theorem patternStep_lays (patterns : List Pattern) (m : Nat)
    (h : ∀ p ∈ patterns, p.tree.Stands text clean) :
    Lays text clean m anywhere (patternStep patterns)
      (around (fun _ patterns => ∀ p ∈ patterns, p.tree.Stands text clean)
      fun _ patterns => ∀ p ∈ patterns, p.tree.Stands text clean) := by
  refine .peek (.pure h) fun t found => ?_
  dsimp only
  split
  · refine .readNext
      (.expect (fun _ => .pure h) fun equal found' => patternValue_lays.then fun o m₁ _ value => ?_)
    cases o with
    | none => exact .pure h
    | some v =>
      refine modifiers_lays.then fun ms m₂ _ modified => .pointHere fun here => ?_
      have parts : Laid text clean t.stop m₂ (.node v.2 [] :: ms.map Modifier.tree) :=
        ((value v rfl).append modified).widen fun _ => ⟨found'.stop, Nat.le_refl m₂⟩
      have new : (Pattern.mk (t.span.through (.point m₂)) (identOf t) v.1 v.2 ms).tree.Stands
        text clean :=
        ((Laid.name found).behind parts here).stands_one
      exact (keepPattern_lays h new).then fun _ _ _ kept => .pure kept
  refine .glance (run_declaresMisnamed · _) fun misnamed => ?_
  split
  · refine (Lays.reportAt rfl found.stands.fits).still fun _ _ => .pass fun _ _ =>
      .pass fun _ _ => ?_
    refine patternValue_lays.then fun o _ _ _ => ?_
    cases o with
    | none => exact .pure h
    | some _ => exact modifiers_lays.then fun _ _ _ _ => .pure h
  · exact .pure h

/-! ### Sections -/

theorem sectionHead_lays (kind : SectionKind) (duplicate : Bool) {keyword : Token}
    (found : keyword.FoundAt text n) :
    Lays text clean keyword.stop pre (sectionHead kind duplicate keyword) fun m s =>
      s = ⟨keyword.start, m⟩ ∧ s.Fits text ∧ (clean → duplicate = false) := by
  have fits := found.stands.fits
  have rest : (clean → duplicate = false) → Lays text clean keyword.stop anywhere
      (do let _ ← expect (.symbol .colon); return (⟨keyword.start, ← lastStop⟩ : Span)) fun m s =>
        s = ⟨keyword.start, m⟩ ∧ s.Fits text ∧ (clean → duplicate = false) := by
    refine fun sole => .expect (fun _ => ?_) fun colon found' => ?_
    · exact .lastStop fun _ => .pure ⟨rfl, fits, sole⟩
    · have between : (Span.mk keyword.stop colon.stop).Fits text :=
        .mk_of found'.stop fits.stop found'.stands.fits.stop
      exact .lastStop fun _ => .pure ⟨rfl, fits.extend between, sole⟩
  unfold sectionHead
  cases duplicate with
  | false => exact (rest fun _ => rfl).at
  | true => exact (Lays.reportAt rfl fits).still fun _ dirty => rest fun yes => absurd yes dirty

theorem sectionEnd_lays :
    Lays text clean n pre sectionEnd fun _ stop => n ≤ stop ∧ IsBoundary text stop := by
  have ends : ∀ {k pre}, n ≤ k → Lays text clean k pre stopAhead fun _ stop => n ≤ stop ∧
      IsBoundary text stop := by
    rintro k pre le s sane rfl _ quiet
    rw [run_stopAhead, sectionStop]
    cases next : s.next? with
    | none => exact ⟨sane, Nat.le_trans le (Nat.le_add_right _ _), sane.textStop⟩
    | some t =>
      exact ⟨sane, Nat.le_trans le (sane.found next).start, (sane.found next).stands.boundary⟩
  refine .glance run_atSyncPoint fun sync => .glance Lockstep.run_atFalseTopLevelModifier
    fun modifier => ?_
  split
  · exact (Lays.unexpected _).still fun _ _ => Lays.skipToSyncPoint.then fun _ k between _ =>
      ends between.ordered
  · exact ends (Nat.le_refl n)

theorem section_stands (kind : SectionKind) {start mid stop : Nat}
    (keyword : (Span.mk start mid).Fits text)
    (body : (Span.mk mid stop).Fits text) :
    (RuleSection.mk kind ⟨start, mid⟩ ⟨start, stop⟩).tree.Stands text clean := by
  have first : Laid text clean start mid [.node ⟨start, mid⟩ []] :=
    .leaf keyword fun _ => ⟨Nat.le_refl _, Nat.le_refl _⟩
  have second : Laid text clean mid stop [.node ⟨mid, stop⟩ []] :=
    .leaf body fun _ => ⟨Nat.le_refl _, Nat.le_refl _⟩
  exact ((first.append second).node (keyword.extend body)
    (fun _ => ⟨Nat.le_refl _, Nat.le_refl _⟩) fun _ =>
    ⟨Nat.le_refl _, Nat.le_refl _⟩).stands_one

/-- What the content of a section, between two offsets, makes of a rule. -/
structure ContentLaid (text : List Char) (clean : Prop) (kind : SectionKind) (duplicate : Bool)
    (r : Rule) (n m : Nat) (q : Rule) : Prop where
  parts : RuleParts text clean q
  sections : q.sections = r.sections
  other : kind ≠ .condition → q.condition = r.condition
  condition : kind = .condition → duplicate = false → ∃ e, q.condition = some e ∧
      Laid text clean n m [e.tree]

theorem sectionContent_lays (kind : SectionKind) (duplicate : Bool) {r : Rule}
    (h : RuleParts text clean r) :
    Lays text clean n pre (sectionContent kind duplicate r)
      (ContentLaid text clean kind duplicate r n) := by
  cases kind with
  | metas =>
    refine Lays.then (.iterate _ _ metaStep_progress metaStep_lays h.metas)
      fun metas m _ stand => .pure ?_
    exact ⟨{ h with metas := stand }, rfl, fun _ => rfl, nofun⟩
  | strings =>
    refine Lays.then (.iterate _ _ patternStep_progress patternStep_lays h.patterns)
      fun patterns m _ stand => .pure ?_
    exact ⟨{ h with patterns := stand }, rfl, fun _ => rfl, nofun⟩
  | condition =>
    refine expression_lays.then fun e m _ laid => .pure ?_
    cases duplicate with
    | true => exact ⟨h, rfl, fun other => (other rfl).elim, nofun⟩
    | false =>
      have stand : ∀ e' ∈ some e, e'.tree.Stands text clean := by
        rintro _ ⟨⟩
        exact laid.stands_one
      exact ⟨{ h with condition := stand }, rfl, fun other => (other rfl).elim,
        fun _ _ => ⟨e, rfl, laid⟩⟩

/-- A section more, around a content. -/
theorem ContentLaid.close {kind : SectionKind} {r q : Rule} {n m stop : Nat} {keyword : Span}
    (h : ContentLaid text clean kind (r.sections.any (·.kind == kind)) r n m q)
    (laid : RuleLaid text clean r)
    (sole : clean → r.sections.any (·.kind == kind) = false) (head : keyword.Fits text)
    (colon : keyword.stop = n) (body : (Span.mk n stop).Fits text) (ends : m ≤ stop) :
    RuleLaid text clean
      { q with sections := q.sections ++ [⟨kind, keyword, ⟨keyword.start, stop⟩⟩] } := by
  subst colon
  have added : (RuleSection.mk kind keyword ⟨keyword.start, stop⟩).tree.Stands text clean :=
    section_stands kind head body
  have stands := List.forall_mem_append.mpr ⟨h.parts.sections, List.forall_mem_singleton.mpr added⟩
  refine ⟨{ h.parts with sections := stands }, fun yes => ?_⟩
  show q.condition = none ∧ (q.sections ++ [_]).filter _ = [] ∨ _
  rw [h.sections, List.filter_append]
  by_cases is : kind = .condition
  · subst is
    have none : r.sections.filter (·.kind == .condition) = [] :=
      List.filter_eq_nil_iff.mpr fun s member found =>
      Bool.false_ne_true (sole yes ▸ List.any_eq_true.mpr ⟨s, member, found⟩)
    obtain ⟨e, known, inner⟩ := h.condition rfl (sole yes)
    have place := inner.head_inside yes
    rw [Expr.tree_span] at place
    refine .inr ⟨e, _, known, by rw [none]; rfl, ?_⟩
    simp only [Span.contains, Bool.and_eq_true, decide_eq_true_eq]
    exact ⟨place.1, Nat.le_trans place.2 ends⟩
  · have nothing :
      [(⟨kind, keyword, ⟨keyword.start, stop⟩⟩ : RuleSection)].filter (·.kind == .condition) = [] :=
      List.filter_eq_nil_iff.mpr
        (List.forall_mem_singleton.mpr fun found => is (beq_iff_eq.mp found))
    rw [nothing, List.append_nil, h.other is]
    exact laid.inside yes

theorem ruleSection_lays (kind : SectionKind) {r : Rule} (h : RuleLaid text clean r) :
    Lays text clean n pre (ruleSection kind r) fun _ q => RuleLaid text clean q := by
  refine .advance (.pure h) fun keyword found => (sectionHead_lays kind _ found).then ?_
  rintro _ m₁ _ ⟨rfl, fits, sole⟩
  refine (sectionContent_lays kind _ h.toRuleParts).then fun q m₂ between content =>
    sectionEnd_lays.then ?_
  rintro stop m₃ _ ⟨ends, boundary⟩
  exact .pure (content.close h sole fits rfl
    (.mk_of (Nat.le_trans between.ordered ends) fits.stop boundary) ends)

/-! ### Rules -/

theorem flagStep_lays (flags : RuleFlags) :
    Lays text clean n pre (flagStep flags) fun _ _ => True := by
  refine .peek (.pure trivial) fun t found => ?_
  have flag : ∀ (again : Bool) (flags : RuleFlags), Lays text clean t.stop anywhere
      (do
        if again then report (.duplicateModifier t.name) t.span
        return ForInStep.yield flags) fun _ _ => True := by
    intro again flags
    split
    · exact (Lays.reportAt rfl found.stands.fits).still fun _ _ => .pure trivial
    · exact .pure trivial
  dsimp only
  split
  · exact .readNext (flag _ _)
  split
  · exact .readNext (flag _ _)
  · exact .pure trivial

theorem ruleName_lays : Lays text clean n pre ruleName fun m i =>
    (SpanTree.name i).Stands text clean ∧ i.span.stop ≤ m ∧ (clean → i.name ≠ "") := by
  refine .eat ?_ fun t found => .pure ⟨(Laid.name found).stands_one, Nat.le_refl _, fun _ => ?_⟩
  · refine (Lays.unexpected _).still fun _ dirty => .pointHere fun here =>
      .pure ⟨⟨?_, ?_⟩, Nat.le_refl n, ?_⟩
    · refine .node ⟨.point here, [], here.slice, ?_⟩ nofun
      rintro _ ⟨⟩
      rfl
    · exact fun yes => absurd yes dirty
    · exact fun yes => absurd yes dirty
  · exact fun empty => found.nonempty (String.ofList_eq_empty_iff.mp empty)

theorem tagStep_lays (tags : List Ident) (m : Nat)
    (h : ∀ i ∈ tags, (SpanTree.name i).Stands text clean) :
    Lays text clean m anywhere (tagStep tags)
      (around (fun _ tags => ∀ i ∈ tags, (SpanTree.name i).Stands text clean)
      fun _ tags => ∀ i ∈ tags, (SpanTree.name i).Stands text clean) := by
  refine .eat (.pure h) fun t found => ?_
  dsimp only
  split
  · exact (Lays.reportAt rfl found.stands.fits).still fun _ _ => .pure h
  · exact .pure
      (List.forall_mem_append.mpr ⟨h, List.forall_mem_singleton.mpr (Laid.name found).stands_one⟩)

theorem tags_lays :
    Lays text clean n pre tags fun _ tags => ∀ i ∈ tags, (SpanTree.name i).Stands text clean :=
  .eat (.pure nofun) fun _ _ => .iterate _ _ tagStep_progress tagStep_lays nofun

theorem ruleHead_lays (flags : RuleFlags) :
    Lays text clean n pre (ruleHead flags) fun _ r => RuleLaid text clean r := by
  refine ruleName_lays.then fun ident m₁ _ named => tags_lays.then fun tags m₂ between tagged => ?_
  have head : ∀ o : Option Token, (∀ s ∈ o.map (·.span), s.Fits text ∧ ident.span.stop ≤ s.start) →
      RuleLaid text clean
        { isPrivate := flags.isPrivate, isGlobal := flags.isGlobal, ident, tags
          metas := [], patterns := [], condition := none, sections := []
          lbrace := o.map (·.span), rbrace := none, span := ident.span } :=
    fun o brace => ⟨⟨named.1, named.2.2, tagged, nofun, nofun, nofun, nofun, brace, nofun⟩,
      fun _ => .inl ⟨rfl, rfl⟩⟩
  refine .expect (fun _ => .pure (head none nofun)) fun t found => .pure (head (some t) ?_)
  rintro _ ⟨⟩
  exact ⟨found.stands.fits, Nat.le_trans named.2.1 (Nat.le_trans between.ordered found.start)⟩

theorem bodyStep_lays (r : Rule) (m : Nat) (h : RuleLaid text clean r) :
    Lays text clean m anywhere (bodyStep r) (around (fun _ r => RuleLaid text clean r) fun _ r =>
      RuleLaid text clean r) := by
  have shown : (r.lbrace.getD r.ident.span).Fits text := by
    cases brace : r.lbrace with
    | none => exact h.ident.span
    | some s => exact (h.lbrace s brace).1
  have cut : ∀ {m pre}, Lays text clean m pre
      (do report .unbalancedBraces (r.lbrace.getD r.ident.span); return .done r)
      (around (fun _ r => RuleLaid text clean r) fun _ r => RuleLaid text clean r) :=
    (Lays.reportAt rfl shown).still fun _ _ => .pure h
  refine .peek cut fun t found => ?_
  dsimp only
  split
  · refine .readNext (.pure ⟨{ h.toRuleParts with rbrace := ?_ }, h.inside⟩)
    rintro _ ⟨⟩
    exact found.stands.fits
  split
  · exact Lays.setPanicking_false.still fun _ _ => (ruleSection_lays _ h).then fun _ _ _ laid =>
      .pure laid
  refine .glance run_atTopLevelItem fun item => ?_
  split
  · exact cut
  · exact (Lays.unexpected _).still fun _ _ => .pass fun _ _ => .pure h

theorem ruleStop_lays {r : Rule} (h : RuleParts text clean r) :
    Lays text clean n pre (ruleStop r) fun m stop => m = n ∧ IsBoundary text stop := by
  unfold ruleStop
  split
  · rename_i rbrace brace
    exact .pure ⟨rfl, (h.rbrace rbrace brace).stop⟩
  · exact Lays.lastStop (f := pure) fun here => .pure ⟨rfl, here⟩

/-- Of a whole rule it is also known that it starts and stops at boundaries, and
that a missing condition was reported. -/
structure WholeLaid (text : List Char) (clean : Prop)
    (r : Rule) : Prop extends RuleLaid text clean r where
  start : IsBoundary text r.span.start
  stop : IsBoundary text r.span.stop
  complete : clean → r.sections.any (·.kind == .condition)

theorem ruleAfterKeyword_lays {start : Nat} (flags : RuleFlags) (boundary : IsBoundary text start) :
    Lays text clean n pre (ruleAfterKeyword start flags) fun _ r => WholeLaid text clean r := by
  refine (ruleHead_lays flags).then fun head _ _ opened => ?_
  refine Lays.then (.iterate _ (fun _ r => RuleLaid text clean r) bodyStep_progress bodyStep_lays
    opened) fun r _ _ laid => ?_
  refine (ruleStop_lays laid.toRuleParts).still fun stop ends => ?_
  have whole : (clean → r.sections.any (·.kind == .condition)) →
    WholeLaid text clean { r with span := ⟨start, stop⟩ } :=
    fun complete => ⟨⟨{ laid.toRuleParts with }, laid.inside⟩, boundary, ends, complete⟩
  dsimp only
  split
  · exact (Lays.reportAt rfl laid.ident.span).still fun _ dirty =>
      .pure (whole fun yes => absurd yes dirty)
  · rename_i complete
    refine .pure (whole fun yes => ?_)
    rw [bne_iff_ne.mpr (laid.named yes), Bool.and_true, Bool.not_eq_true, Bool.not_eq_false']
      at complete
    exact complete

theorem ruleItem_lays :
    Lays text clean n pre ruleItem fun _ o => ∀ r ∈ o, WholeLaid text clean r := by
  refine .peek (.pure nofun) fun t found => ?_
  refine Lays.then (.iterate (fun _ _ => True) (fun _ _ => True) flagStep_progress (fun flags m _ =>
    (flagStep_lays flags).weaken fun k r _ => by cases r <;> trivial) trivial) fun flags _ _ _ => ?_
  refine .expect (fun _ => .pure nofun) fun _ _ =>
    (ruleAfterKeyword_lays flags found.stands.boundary).then fun r _ _ whole => ?_
  refine .pure ?_
  rintro _ ⟨⟩
  exact whole

/-- What is known of the items of a text. -/
structure ItemsLaid (text : List Char) (clean : Prop) (items : Items) : Prop where
  imports : ∀ i ∈ items.imports, i.tree.Stands text clean
  includes : ∀ i ∈ items.includes, i.tree.Stands text clean
  rules : ∀ r ∈ items.rules, WholeLaid text clean r

theorem itemStep_lays (items : Items) (m : Nat) (h : ItemsLaid text clean items) :
    Lays text clean m anywhere (itemStep items)
      (around (fun _ items => ItemsLaid text clean items) fun _ items =>
        ItemsLaid text clean items) := by
  have some_more : ∀ {α : Type} {P : α → Prop} {known : List α} {o : Option α}, (∀ a ∈ known, P a) →
      (∀ a ∈ o, P a) → ∀ a ∈ known ++ o.toList, P a := fun old new =>
    List.forall_mem_append.mpr ⟨old, fun a member => new a (Option.mem_toList.mp member)⟩
  refine .glance run_peekKind fun ahead => ?_
  split
  · exact .pure h
  · exact Lays.setPanicking_false.still fun _ _ => importItem_lays.then fun o _ _ new =>
      .pure { h with imports := some_more h.imports new }
  · exact Lays.setPanicking_false.still fun _ _ => includeItem_lays.then fun o _ _ new =>
      .pure { h with includes := some_more h.includes new }
  · split
    · exact Lays.setPanicking_false.still fun _ _ => ruleItem_lays.then fun o _ _ new =>
        .pure { h with rules := some_more h.rules new }
    · exact (Lays.unexpected _).still fun _ _ => .pass fun _ _ => .pure h

/-! ### Sections inside of rules -/

/-- The sections of a rule start behind an offset and end before the next token. -/
structure SectionsIn (low : Nat) (r : Rule) (s : ParseState) : Prop where
  here : low ≤ s.input.here.offset
  start : ∀ sec ∈ r.sections, low ≤ sec.span.start
  stop : ∀ sec ∈ r.sections, sec.span.stop ≤ sectionStop s

/-- The brace of a rule is behind all its sections. -/
def SectionsClosed (low : Nat) (r : Rule) : Prop :=
  ∀ rbrace ∈ r.rbrace, ∀ sec ∈ r.sections, low ≤ sec.span.start ∧ sec.span.stop ≤ rbrace.stop

section

variable {low : Nat} {r q : Rule} {s t : ParseState}

theorem SectionsIn.later (h : SectionsIn low r s) (step : s.Before t) : SectionsIn low r t :=
  ⟨Nat.le_trans h.here step.here_le, h.start, fun sec member =>
    Nat.le_trans (h.stop sec member) step.sectionStop_le⟩

theorem SectionsIn.same (h : SectionsIn low r s) (same : q.sections = r.sections) :
    SectionsIn low q s :=
  ⟨h.here, same ▸ h.start, same ▸ h.stop⟩

theorem SectionsIn.add (h : SectionsIn low r s) {sec : RuleSection} (start : low ≤ sec.span.start)
    (stop : sec.span.stop = sectionStop s) :
    SectionsIn low { r with sections := r.sections ++ [sec] } s :=
  ⟨h.here, List.forall_mem_append.mpr ⟨h.start, List.forall_mem_singleton.mpr start⟩,
    List.forall_mem_append.mpr ⟨h.stop, List.forall_mem_singleton.mpr (Nat.le_of_eq stop)⟩⟩

theorem ruleSection_sections (kind : SectionKind) (r : Rule) :
    Ensures (SectionsIn low r) (ruleSection kind r) (SectionsIn low) := by
  have read : Ensures (SectionsIn low r) advance fun o s => SectionsIn low r s ∧
      ∀ t ∈ o, low ≤ t.start := by
    intro s inside
    refine ⟨inside.later (advance.forward s), fun t found => ?_⟩
    rw [run_advance] at found
    exact Nat.le_trans inside.here (ParseState.next?_start found)
  refine read.bind fun o => ?_
  cases o with
  | none => exact .pure fun s start => start.1
  | some keyword =>
    have kept : ∀ {q : Rule} {α : Type} (p : Parser α),
        Ensures (fun s => SectionsIn low q s ∧ low ≤ keyword.start) p
        fun _ s => SectionsIn low q s ∧ low ≤ keyword.start :=
          fun p s start => ⟨start.1.later (p.forward s), start.2⟩
    have ended : ∀ q, Ensures (fun s => SectionsIn low q s ∧ low ≤ keyword.start) sectionEnd
      fun stop s =>
        (SectionsIn low q s ∧ low ≤ keyword.start) ∧ stop = sectionStop s := fun q s start =>
      ⟨kept sectionEnd s start, run_sectionEnd s⟩
    intro s start
    refine (Ensures.bind (kept (sectionHead kind _ keyword)) fun span => ?_) s
      ⟨start.1, start.2 keyword rfl⟩
    have content : Ensures (fun s => SectionsIn low r s ∧ low ≤ keyword.start)
        (sectionContent kind (r.sections.any (·.kind == kind)) r) fun q s => SectionsIn low q s ∧
          low ≤ keyword.start :=
      fun s start => ⟨(kept _ s start).1.same (sectionContent_sections kind _ r s), start.2⟩
    refine content.bind fun q => (ended q).bind fun stop => .pure fun t finished => ?_
    exact finished.1.1.add finished.1.2 finished.2

theorem bodyStep_sections (r : Rule) :
    Ensures (fun s => SectionsIn low r s ∧ r.rbrace = none) (bodyStep r)
    (Ensures.round (fun r s => SectionsIn low r s ∧ r.rbrace = none) fun r _ =>
      SectionsClosed low r) := by
  have cut : r.rbrace = none → SectionsClosed low r :=
    fun none _ some => nomatch none.symm.trans some
  rintro s ⟨inside, brace⟩
  rw [bodyStep, run_bind, run_peek]
  cases next : s.next? with
  | none => exact cut brace
  | some t =>
    dsimp only
    rw [run_ite]
    split
    · have stop : sectionStop s = t.start := by rw [sectionStop, next]; rfl
      rintro _ ⟨⟩ sec member
      refine ⟨inside.start sec member,
        Nat.le_trans (stop ▸ inside.stop sec member) (Nat.le_add_right _ _)⟩
    split
    · rename_i kind _
      have later := inside.later ((setPanicking false).forward s)
      exact ⟨ruleSection_sections kind r _ later, (ruleSection_keeps kind r _).2.trans brace⟩
    · rw [run_bind, run_atTopLevelItem, run_ite]
      split
      · exact cut brace
      · exact ⟨inside.later ((unexpected .ruleSection >>= fun _ => advance).forward s), brace⟩

end

end Parser

/-- If a rule has its closing brace, its sections lie inside of it. -/
def Rule.HoldsSections (r : Rule) : Prop := r.rbrace.isSome → ∀ sec ∈ r.sections,
  r.span.contains sec.span

namespace Parser

theorem ruleAfterKeyword_sections (start : Nat) (flags : RuleFlags) :
    Ensures (start < ·.input.here.offset) (ruleAfterKeyword start flags) fun r _ =>
      r.HoldsSections := by
  have head : Ensures (start < ·.input.here.offset) (ruleHead flags) fun r s =>
      SectionsIn start r s ∧ r.rbrace = none := by
    intro s here
    have empty : (ruleHead flags).Gives fun r => r.sections = [] ∧ r.rbrace = none :=
      .bind fun ident => .bind fun tags => .bind fun lbrace => .pure ⟨rfl, rfl⟩
    obtain ⟨none, brace⟩ := empty s
    have later := Nat.le_trans (Nat.le_of_lt here) ((ruleHead flags).forward s).here_le
    exact ⟨⟨later, by rw [none]; exact nofun, by rw [none]; exact nofun⟩, brace⟩
  refine head.bind fun r => (Ensures.iterate bodyStep_progress bodyStep_sections r).bind fun q => ?_
  have stops : Ensures (fun _ => SectionsClosed start q) (ruleStop q) fun stop _ =>
      Rule.HoldsSections { q with span := ⟨start, stop⟩ } := by
    intro s closed some sec member
    obtain ⟨rbrace, brace⟩ := Option.isSome_iff_exists.mp some
    have inside := closed rbrace brace sec member
    have stop : ((ruleStop q).run s).1 = rbrace.stop := by
      rw [ruleStop, show q.rbrace = _ from brace]
      rfl
    simp only [Span.contains, Bool.and_eq_true, decide_eq_true_eq]
    exact ⟨inside.1, stop ▸ inside.2⟩
  refine stops.bind fun stop => ?_
  split
  · exact (Ensures.keeps fun _ _ _ holds => holds).bind fun _ => .pure fun _ holds => holds
  · exact .pure fun _ holds => holds

theorem itemStep_sections (items : Items) :
    Ensures (fun _ => ∀ r ∈ items.rules, r.HoldsSections) (itemStep items)
    (Ensures.round (fun items _ => ∀ r ∈ items.rules, r.HoldsSections) fun items _ =>
      ∀ r ∈ items.rules, r.HoldsSections) := by
  intro s known
  rw [itemStep, run_bind, run_peekKind]
  split
  · exact known
  · exact known
  · exact known
  · rw [run_ite]
    split
    · refine List.forall_mem_append.mpr ⟨known, fun r member => ?_⟩
      obtain ⟨_, _, _, holds⟩ :=
        ruleItem_after ruleAfterKeyword_sections _ r (Option.mem_toList.mp member)
      exact holds
    · exact known

end Parser

theorem parse_holds_sections (text : List Char) : ∀ r ∈ (parse text).rules, r.HoldsSections :=
  Parser.Ensures.iterate Parser.itemStep_progress Parser.itemStep_sections ⟨[], [], []⟩
    (Parser.initial text) nofun

/-- The items and the errors of a text, laid in it. -/
theorem parse_laid (text : List Char) :
    Parser.ItemsLaid text ((parse text).errors = []) ⟨(parse text).imports, (parse text).includes,
      (parse text).rules⟩ ∧ ∀ e ∈ (parse text).errors, ∀ s ∈ e.spans, s.Fits text := by
  have loop : Parser.Lays text ((parse text).errors = []) 0 Parser.anywhere
      (Parser.iterate Parser.itemStep ⟨[], [], []⟩)
      fun _ items => Parser.ItemsLaid text ((parse text).errors = []) items :=
    .iterate _ _ Parser.itemStep_progress Parser.itemStep_lays ⟨nofun, nofun, nofun⟩
  have initial : (Parser.initial text).Sane text := ⟨.refl _, nofun, nofun⟩
  obtain ⟨sane, laid⟩ := loop (Parser.initial text) initial rfl trivial id
  exact ⟨laid, sane.errors⟩

/-- All the spans of a rule of a text. -/
theorem Parser.WholeLaid.stand {text : List Char} {clean : Prop} {r : Rule}
    (h : WholeLaid text clean r) (placed : r.Placed text) :
    ∀ t ∈ r.trees, t.Stands text clean := by
  have own : r.span.Fits text := .mk_of (Nat.le_of_lt placed.nonempty) h.start h.stop
  have named : r.span.start ≤ r.ident.span.stop :=
    Nat.le_trans placed.name.start h.ident.span.ordered
  have header : r.headerSpan.Fits text := by
    unfold Rule.headerSpan
    cases brace : r.lbrace with
    | none => exact .mk_of named h.start h.ident.span.stop
    | some lbrace =>
      obtain ⟨fits, behind⟩ := h.lbrace lbrace brace
      exact .mk_of (Nat.le_trans named behind) h.start fits.start
  have braces : ∀ s ∈ r.lbrace.toList ++ r.rbrace.toList, s.Fits text := List.forall_mem_append.mpr
    ⟨fun s member => (h.lbrace s (Option.mem_toList.mp member)).1, fun s member =>
      h.rbrace s (Option.mem_toList.mp member)⟩
  simp only [Rule.trees, List.forall_mem_append, List.forall_mem_cons, List.forall_mem_map]
  refine ⟨⟨⟨⟨⟨⟨⟨.leaf own, .leaf header, h.ident, nofun⟩, h.tags⟩, h.metas⟩, h.patterns⟩, ?_⟩,
    h.sections⟩, ?_⟩
  · exact fun e member => h.condition e (Option.mem_toList.mp member)
  · exact List.forall_mem_append.mp fun s member => .leaf (braces s member)

/-- In every text, malformed or not, the spans of the tree and of the errors can
be cut out of the text, what is cut out at a name is the name, and the rules stand
one behind the other. In a text without errors, the span of every node contains
the spans right inside of it, which are in the order of the source and do not
overlap, the sections of a rule lie inside of the rule, and its condition lies in
the body of the section that it belongs to. -/
theorem parse_frames (text : List Char) :
    (∀ t ∈ (parse text).trees, t.Everywhere (·.Fits text)) ∧
    (∀ e ∈ (parse text).errors, ∀ s ∈ e.spans, s.Fits text) ∧
    ((parse text).rules.Pairwise fun r q => r.span.stop ≤ q.span.start) ∧
    ((parse text).errors = [] →
      (∀ t ∈ (parse text).trees, t.Everywhere SpanTree.Nested) ∧
      ∀ r ∈ (parse text).rules, (∀ s ∈ r.sections, r.span.contains s.span) ∧
        ∃ e s, r.condition = some e ∧ r.sections.filter (·.kind == .condition) = [s] ∧
          s.body.contains e.span) := by
  obtain ⟨laid, errors⟩ := parse_laid text
  have places := parse_places_rules text
  have stand : ∀ t ∈ (parse text).trees, t.Stands text ((parse text).errors = []) := by
    simp only [SourceFile.trees, List.forall_mem_append, List.forall_mem_map]
    refine ⟨⟨laid.imports, laid.includes⟩, fun t member => ?_⟩
    obtain ⟨r, known, inside⟩ := List.mem_flatMap.mp member
    exact (laid.rules r known).stand (places.placed r known) t inside
  refine ⟨fun t member => (stand t member).fits, errors, places.ordered, fun clean =>
    ⟨?_, fun r member => ?_⟩⟩
  · exact fun t member => (stand t member).nested clean
  refine ⟨parse_holds_sections text r member (places.closed clean r member), ?_⟩
  have whole := laid.rules r member
  refine (whole.inside clean).resolve_left fun nothing => ?_
  obtain ⟨sec, inside, condition⟩ := List.any_eq_true.mp (whole.complete clean)
  exact List.filter_eq_nil_iff.mp nothing.2 sec inside condition

def loopRule : List Char :=
  ("rule a : t \x7b meta: m = 1 strings: $a = \"x\" wide $b = \x7b 01 \x7d " ++
    "condition: for any i in (1..#a) : (@a[i] == pe.size) and 2 of ($a, $b*) \x7d").toList

/-- A rule without errors, with its three sections. -/
theorem parse_frames_loop :
    (parse loopRule).errors = [] ∧ (parse loopRule).rules.map (·.sections.length) = [3] ∧
    (∀ t ∈ (parse loopRule).trees, t.Everywhere SpanTree.Nested) ∧
    ∀ r ∈ (parse loopRule).rules, ∃ e s, r.condition = some e ∧
      r.sections.filter (·.kind == .condition) = [s] ∧ s.body.contains e.span := by
  have clean : (parse loopRule).errors = [] := by decide +kernel
  obtain ⟨nested, rules⟩ := (parse_frames loopRule).2.2.2 clean
  exact ⟨clean, by decide +kernel, nested, fun r member => (rules r member).2⟩

end RuleDesk
