import RuleDesk.Proofs.Parsing.Expressions

namespace RuleDesk

def Parser.HexProgress.rebase (v : View) : HexProgress → HexProgress
  | within parens => within parens
  | ended stop => ended (v.offset stop)

namespace Lockstep

open RuleDesk.Parser

variable {L : Lockstep} {pre : ParseState → Prop}

theorem map_append_one {f g : α → β} {as bs : List α} {a b : α} (h : as.map f = bs.map g)
    (h' : f a = g b) :
    (as ++ [a]).map f = (bs ++ [b]).map g := by
  rw [List.map_append, List.map_append, h, List.map_singleton, List.map_singleton, h']

/-! ### Metadata -/

def metaLists (L : Lockstep) (ms ms' : List MetaEntry) : Prop :=
  ms.map (·.rebase L.left) = ms'.map (·.rebase L.right)

theorem negativeMeta_always : L.Always negativeMeta negativeMeta Eq := by
  have missing : L.Always (do unexpected .number; return (none : Option MetaValue))
      (do unexpected .number; return none) Eq := (unexpected_always _).then fun _ _ _ => .pure rfl
  refine .peek missing.at fun t t' token => ?_
  dsimp only
  rw [← token.kind]
  split
  · rename_i kind
    refine .readNext (kind ▸ rfl) fun _ _ _ => (integerValue_always token kind).at.then ?_
    rintro n _ rfl
    exact .pure rfl
  · rename_i kind
    exact .readNext (kind ▸ rfl) fun _ _ _ => .pure (by rw [token.text (kind ▸ rfl) (kind ▸ nofun)])
  · exact missing.at

theorem metaValue_always : L.Always metaValue metaValue Eq := by
  have missing : L.Always (do unexpected .metaValue; return (none : Option MetaValue))
      (do unexpected .metaValue; return none) Eq :=
        (unexpected_always _).then fun _ _ _ => .pure rfl
  refine .peek missing.at fun t t' token => ?_
  dsimp only
  rw [← token.kind]
  split
  · rename_i kind
    exact .readNext (kind ▸ rfl) fun _ _ _ => .pure rfl
  · rename_i kind
    exact .readNext (kind ▸ rfl) fun _ _ _ => .pure rfl
  · rename_i kind
    exact .readNext (kind ▸ rfl) fun _ _ _ => .pure (by rw [token.text (kind ▸ rfl) (kind ▸ nofun)])
  · rename_i kind
    refine .reported fun exact => ?_
    rw [← Token.Alike.text token (.inl exact) (kind ▸ nofun)]
    refine (report_always (fun _ => rfl) token.span).at.bind (m := fun _ => atOther)
      (fun s start => ⟨.openString, kind ▸ start.2.kind, nofun⟩) fun _ _ _ => ?_
    exact (advance_exact exact).then fun _ _ _ => .pure rfl
  · rename_i kind
    exact .readNext (kind ▸ rfl) fun _ _ _ => .pure (by rw [token.text (kind ▸ rfl) (kind ▸ nofun)])
  · rename_i kind
    refine (integerValue_always token kind).at.bind (m := fun _ s => anywhere s ∧ atNext t s)
      (fun s start => ?_) ?_
    · rw [integerValue]
      split <;> exact start
    · rintro n _ rfl
      exact .readNext (kind ▸ rfl) fun _ _ _ => .pure rfl
  · rename_i kind
    exact .readNext (kind ▸ rfl) fun _ _ _ => negativeMeta_always.at
  · exact missing.at

theorem metaStep_always (ms ms' : List MetaEntry) (h : L.metaLists ms ms') :
    L.Always (metaStep ms) (metaStep ms') (Steps L.metaLists) := by
  refine .eatKind rfl (.pure (.done h)) fun t t' token kind =>
    .expect rfl (.pure (.done h)) fun _ _ _ => ?_
  refine metaValue_always.at.then ?_
  rintro o _ rfl
  cases o with
  | none => exact .pure (.done h)
  | some value =>
    refine .pointHere fun stop stop' to_stop => .pure (.yield (map_append_one h ?_))
    have span := token.span.through to_stop
    simp only [MetaEntry.rebase, span.eq, (token.ident (kind ▸ rfl)).eq]

/-! ### Values of patterns -/

theorem hexJump_always : L.Always hexJump hexJump whatever := by
  have close : L.Always (do let _ ← Parser.expect (.symbol .rbracket))
      (do let _ ← Parser.expect (.symbol .rbracket))
      whatever := .demand rfl (.pure trivial)
  refine (eat_always rfl).then fun _ _ _ => .eat rfl close fun _ _ _ => ?_
  exact Always.at ((eat_always rfl).then fun _ _ _ => close)

def places (L : Lockstep) (p p' : HexProgress) : Prop := p.rebase L.left = p'.rebase L.right

theorem hexEnd_always {lbrace lbrace' : Span} (h : L.spans lbrace lbrace') :
    L.Always (do report .unbalancedBraces lbrace; return .done (.ended (← Parser.lastStop)))
      (do report .unbalancedBraces lbrace'; return .done (.ended (← Parser.lastStop)))
        (Steps L.places) := by
  refine (report_always (fun _ => rfl) h).then fun _ _ _ => .lastStop fun n n' stop =>
    .pure (.done ?_)
  exact congrArg HexProgress.ended stop

theorem hexStep_always {lbrace lbrace' : Span} (h : L.spans lbrace lbrace') (p p' : HexProgress)
    (same : L.places p p') : L.Always (hexStep lbrace p) (hexStep lbrace' p') (Steps L.places) := by
  cases p with
  | ended stop =>
    cases p' with
    | within parens => exact nomatch same
    | ended stop' => exact .pure (.done same)
  | within parens =>
    cases p' with
    | ended stop => exact nomatch same
    | within parens' =>
    obtain rfl : parens = parens' := HexProgress.within.inj same
    refine .peek (hexEnd_always h).at fun t t' token => ?_
    dsimp only
    rw [← token.kind]
    split
    · rename_i kind
      exact .readNext (kind ▸ rfl) fun _ _ _ => .pure (.yield rfl)
    split
    · rename_i kind
      have entered :
        L.When (atKind (.symbol .lbracket)) (advanceInto .jump) (advanceInto .jump) L.tokens :=
        enter_when fun _ ahead => ahead
      refine When.restrict (entered.then fun _ _ _ => ?_) fun s start => kind ▸ start.2.kind
      exact hexJump_always.then fun _ _ _ => .pure (.yield rfl)
    split
    · rename_i kind
      exact .readNext (kind ▸ rfl) fun _ _ _ => .pure (.yield rfl)
    split
    · rename_i kind
      exact .readNext (kind.1 ▸ rfl) fun _ _ _ => .pure (.yield rfl)
    split
    · rename_i kind
      exact .readNext (kind.1 ▸ rfl) fun _ _ _ => .pure (.yield rfl)
    split
    · rename_i kind
      exact .readNext (kind.1 ▸ rfl) fun _ _ _ =>
        .pure (.done (congrArg HexProgress.ended token.span.stop))
    refine .atSyncPoint fun sync => ?_
    split
    · exact (hexEnd_always h).at
    refine .unexpectedSkip _
      (.eat rfl ?_ fun u u' brace => .pure (.done (congrArg HexProgress.ended brace.span.stop)))
    exact .lastStop fun n n' stop => .pure (.done (congrArg HexProgress.ended stop))

theorem hexPattern_always {lbrace lbrace' : Span} (h : L.spans lbrace lbrace') :
    L.Always (hexPattern lbrace) (hexPattern lbrace') (L.left.offset · = L.right.offset ·) := by
  have progress := hexStep_progress lbrace
  have progress' := hexStep_progress lbrace'
  refine (Always.iterate progress progress' (hexStep_always h)
    (show L.places (.within 0) (.within 0) from rfl)).then ?_
  intro p p' same
  cases p with
  | ended stop =>
    cases p' with
    | within parens => exact nomatch same
    | ended stop' => exact .pure (HexProgress.ended.inj same)
  | within parens =>
    cases p' with
    | ended stop => exact nomatch same
    | within parens' =>
      exact fun s s' related start _ => .inr ⟨L.here related, related⟩

/-- Two values of patterns, of the same kind and in places that are alike. -/
def values (L : Lockstep) (o o' : Option (PatternKind × Span)) : Prop :=
  o.map (fun value => (value.1, value.2.rebase L.left)) = o'.map fun value =>
    (value.1, value.2.rebase L.right)

/-- A value stands behind an equal sign. -/
theorem patternValue_when :
    L.When (ParseState.justRead · (.symbol .equal)) patternValue patternValue L.values := by
  have missing : L.Always (do unexpected .patternValue; return (none : Option (PatternKind × Span)))
      (do unexpected .patternValue; return none) L.values :=
        (unexpected_always _).then fun _ _ _ => .pure rfl
  refine .peek missing.at fun t t' token => ?_
  dsimp only
  rw [← token.kind]
  have value : ∀ kind, L.values (some (kind, t.span)) (some (kind, t'.span)) := fun kind =>
    congrArg (fun span => some (kind, span)) token.span
  split
  · rename_i kind
    exact .readNext (kind ▸ rfl) fun _ _ _ => .pure (value _)
  · rename_i kind
    exact .readNext (kind ▸ rfl) fun _ _ _ => .pure (value _)
  · rename_i kind
    exact (openLiteral_when token (kind ▸ nofun) (fun _ => rfl) (value _)).restrict
      fun s start => start.2
  · rename_i kind
    exact (openLiteral_when token (kind ▸ nofun) (fun _ => rfl) (value _)).restrict
      fun s start => start.2
  · rename_i kind
    have entered : L.When (fun s => s.justRead (.symbol .equal) ∧ atNext t s) (advanceInto .hex)
      (advanceInto .hex) L.tokens :=
      enter_when fun s start => ⟨kind ▸ start.2.kind, start.1⟩
    refine entered.then fun _ _ _ => ?_
    refine (hexPattern_always token.span).then fun stop stop' same => .pure ?_
    exact congrArg (fun span => some (PatternKind.hex, span)) (spans.mk token.span.start same)
  · exact missing.at

/-! ### Modifiers -/

def modifierLists (L : Lockstep) (ms ms' : List Modifier) : Prop :=
  ms.map (·.rebase L.left) = ms'.map (·.rebase L.right)

theorem modifier_plain {k : Kind} (h : isPlainModifier k || k == .keyword .kwPrivate) :
    k.isPlain ∧ k.isSound ∧ ¬ k.isName := by
  cases k with
  | keyword w => cases w <;> first | exact ⟨rfl, rfl, nofun⟩ | exact nomatch h
  | _ => exact nomatch h

theorem modifierWithArguments_sound {k : Kind} (h : isModifierWithArguments k) :
    k.isSound ∧ ¬ k.isName := by
  cases k with
  | keyword w => exact ⟨rfl, nofun⟩
  | _ => exact nomatch h

section Arguments

variable (arguments : L.TakesArguments)

include arguments

theorem modifierStep_always (ms ms' : List Modifier) (h : L.modifierLists ms ms') :
    L.Always (modifierStep ms) (modifierStep ms') (Steps L.modifierLists) := by
  refine .peek (.pure (.done h)) fun t t' token => ?_
  have finish : t.kind.isSound → ¬ t.kind.isName →
      L.Always (do return .yield (ms ++ [⟨⟨t.start, ← Parser.lastStop⟩, t.name⟩]))
        (do return .yield (ms' ++ [⟨⟨t'.start, ← Parser.lastStop⟩, t'.name⟩]))
          (Steps L.modifierLists) := by
    refine fun sound other => .lastStop fun n n' stop => .pure (.yield (map_append_one h ?_))
    have span : L.spans ⟨t.start, n⟩ ⟨t'.start, n'⟩ := spans.mk token.span.start stop
    simp only [Modifier.rebase, span.eq, token.spelled sound other]
  dsimp only
  rw [← token.kind]
  refine .look Eq (run_isBareModifier · _) (run_isBareModifier · _)
    (fun s s' related _ => by rw [startsItem_alike related]) ?_
  rintro bare _ rfl
  split
  · rename_i modifier
    intro s s' related start
    have plain : isPlainModifier t.kind || t.kind == .keyword .kwPrivate := by
      rcases Bool.or_eq_true_iff.mp (start.2.trans modifier) with plain | private_
      · rw [plain, Bool.true_or]
      · rw [(Bool.and_eq_true_iff.mp private_).1, Bool.or_true]
    obtain ⟨plain, sound, other⟩ := modifier_plain plain
    exact When.readNext plain (fun _ _ _ => (finish sound other).at) s s' related start.1
  split
  · rename_i with_arguments
    obtain ⟨sound, other⟩ := modifierWithArguments_sound with_arguments
    have taken : L.When (atNext t) modifierWithArguments modifierWithArguments whatever :=
      arguments.restrict fun s start => ⟨t.kind, start.kind, with_arguments⟩
    exact (taken.then fun _ _ _ => finish sound other).restrict fun s start => start.1.2
  · exact .pure (.done h)

theorem modifiers_always : L.Always modifiers modifiers L.modifierLists :=
  Always.iterate modifierStep_progress modifierStep_progress (modifierStep_always arguments) rfl

end Arguments

/-! ### Declarations of patterns -/

def patternLists (L : Lockstep) (ps ps' : List Pattern) : Prop :=
  ps.map (·.rebase L.left) = ps'.map (·.rebase L.right)

theorem patternLists.idents {ps ps' : List Pattern} (h : L.patternLists ps ps') :
    L.identLists (ps.map (·.ident)) (ps'.map (·.ident)) := by
  have mapped := congrArg (List.map Pattern.ident) h
  rw [List.map_map, List.map_map] at mapped
  rw [identLists, List.map_map, List.map_map]
  exact mapped

/-- In an exact comparison a name is declared in both lists of patterns at
alike places, or in none. -/
theorem patternLists.find? {ps ps' : List Pattern} (h : L.patternLists ps ps') (exact : L.exact)
    (name : String) :
    (ps.find? (·.ident.name == name)).map (·.rebase L.left) =
      (ps'.find? (·.ident.name == name)).map (·.rebase L.right) := by
  have found : ∀ (v : View) (qs : List Pattern), v.KeepsNames →
      (qs.map (·.rebase v)).find? (·.ident.name == name) =
        (qs.find? (·.ident.name == name)).map (·.rebase v) := by
    intro v qs keeps
    rw [List.find?_map]
    congr 2
    funext q
    exact congrArg (· == name) (keeps _ _)
  rw [← found _ _ (L.exact_keeps exact), ← found _ _ L.keeps, show _ = _ from h]

/-- Names that differ are not seen as the same one. -/
def Distinct (L : Lockstep) (is : List Ident) : Prop :=
  ∀ i ∈ is, ∀ j ∈ is, L.left.name i.span i.name = L.left.name j.span j.name → i.name = j.name

theorem Distinct.fewer {is js : List Ident} (h : L.Distinct js) (fewer : is ⊆ js) : L.Distinct is :=
  fun i first j second => h i (fewer first) j (fewer second)

theorem distinct_of_exact (exact : L.exact) (is : List Ident) : L.Distinct is := by
  intro i _ j _ same
  rwa [L.exact_keeps exact, L.exact_keeps exact] at same

/-- A name that is new among some is new as well where they are seen. -/
theorem Distinct.fresh {is is' : List Ident} {i i' : Ident} (h : L.identLists is is')
    (same : L.idents i i')
    (distinct : L.Distinct (is ++ [i])) (fresh : is.any (·.name == i.name) = false) :
    is'.any (·.name == i'.name) = false := by
  refine List.any_eq_false.mpr fun j' member eq => ?_
  obtain ⟨j, inside, alike⟩ :=
    List.mem_map.mp (h ▸ List.mem_map_of_mem member : j'.rebase L.right ∈ is.map _)
  have named : L.left.name j.span j.name = L.left.name i.span i.name := by
    rw [idents.named (L := L) alike, same.named, beq_iff_eq.mp eq]
  have clash := distinct j (List.mem_append_left _ inside) i
    (List.mem_append_right _ (List.mem_singleton_self i)) named
  exact List.any_eq_false.mp fresh j inside (beq_iff_eq.mpr clash)

theorem idents.unnamed {i i' : Ident} (h : L.idents i i') :
    (i.name == "") = (i'.name == "") ∧ (i.name == "$") = (i'.name == "$") := by
  obtain ⟨empty, anonymous⟩ := L.unnamed i.span i.name
  rw [h.named] at empty anonymous
  exact ⟨Bool.eq_iff_iff.mpr (by simpa using empty.symm),
    Bool.eq_iff_iff.mpr (by simpa using anonymous.symm)⟩

/-- The names of the patterns that are kept have to be distinct. -/
def distinctPatterns (L : Lockstep) (ps : List Pattern) : Prop := L.Distinct (ps.map (·.ident))

theorem keepPattern_always {ps ps' : List Pattern} {p p' : Pattern} (h : L.patternLists ps ps')
    (same : p.rebase L.left = p'.rebase L.right) :
    L.Always (keepPattern ps p) (keepPattern ps' p') L.patternLists L.distinctPatterns := by
  have ident : L.idents p.ident p'.ident := congrArg Pattern.ident same
  have kept : L.Always (pure (ps ++ [p])) (pure (ps' ++ [p'])) L.patternLists L.distinctPatterns :=
    .pure (map_append_one h same)
  unfold keepPattern
  rw [← ident.unnamed.2]
  split
  · exact kept
  cases found : ps.find? (·.ident.name == p.ident.name) with
  | some q =>
    refine .reported fun exact => ?_
    have found' := h.find? exact p.ident.name
    rw [found] at found'
    obtain ⟨q', declared, alike⟩ := Option.map_eq_some_iff.mp found'.symm
    rw [← ident.name exact, declared]
    have existing : L.spans q.ident.span q'.ident.span :=
      congrArg (fun r : Pattern => r.ident.span) alike.symm
    have fault : (SyntaxFault.duplicatePattern p.ident.name q.ident.span).rebase L.left =
        (SyntaxFault.duplicatePattern p.ident.name q'.ident.span).rebase L.right :=
      congrArg (SyntaxFault.duplicatePattern p.ident.name) existing
    exact (report_always (fun _ => fault) ident.span).then fun _ _ _ => .pure h
  | none =>
    intro s s' related start distinct
    have all : L.Distinct (ps.map (·.ident) ++ [p.ident]) := by
      have distinct : L.Distinct ((ps ++ [p]).map (·.ident)) := distinct
      rwa [List.map_append] at distinct
    have fresh : (ps.map (·.ident)).any (·.name == p.ident.name) = false := by
      rw [List.any_map]
      exact List.any_eq_false.mpr fun q inside => List.find?_eq_none.mp found q inside
    have fresh' := all.fresh h.idents ident fresh
    rw [List.any_map] at fresh'
    have absent : ps'.find? (·.ident.name == p'.ident.name) = none :=
      List.find?_eq_none.mpr fun q' inside => List.any_eq_false.mp fresh' q' inside
    rw [absent]
    exact kept s s' related start distinct

/-- Patterns that were kept stay. -/
theorem keepPattern_grows (ps : List Pattern) (p : Pattern) :
    (keepPattern ps p).Gives (ps <+: ·) := by
  unfold keepPattern
  split
  · exact .pure (List.prefix_append _ _)
  split
  · exact .bind fun _ => .pure (List.prefix_refl _)
  · exact .pure (List.prefix_append _ _)

/-- What holds of some patterns still does if all that are kept keep it. -/
theorem patternStep_gives {post : List Pattern → Prop} {ps : List Pattern} (h : post ps)
    (kept : ∀ p, (keepPattern ps p).Gives post) :
    (patternStep ps).Gives (post ·.value) := by
  refine .bind fun o => ?_
  cases o with
  | none => exact .pure h
  | some t =>
    dsimp only
    split
    · refine .bind fun _ => .bind fun o => ?_
      cases o with
      | none => exact .pure h
      | some _ =>
        refine .bind fun o => ?_
        cases o with
        | none => exact .pure h
        | some value => exact .bind fun _ => .bind fun _ => (kept _).after fun _ held => .pure held
    refine fun s => ?_
    have dropped : (dropDeclaration t ps).Gives (post ·.value) := by
      refine .bind fun _ => .bind fun _ => .bind fun _ => .bind fun o => ?_
      cases o with
      | none => exact .pure h
      | some _ => exact .bind fun _ => .pure h
    refine Gives.bind (fun misnamed => ?_) s
    split
    · exact dropped
    · exact .pure h

theorem patternStep_grows (ps : List Pattern) : (patternStep ps).Gives (ps <+: ·.value) :=
  patternStep_gives (List.prefix_refl _) (keepPattern_grows ps)

theorem distinctPatterns.fewer {ps qs : List Pattern} (h : L.distinctPatterns qs)
    (longer : ps <+: qs) :
    L.distinctPatterns ps := Distinct.fewer h (List.map_subset _ longer.subset)

theorem declaration_when (arguments : L.TakesArguments) {t t' : Token} (token : L.token t t')
    (name : t.kind = .sigil .identity) {ps ps' : List Pattern} (h : L.patternLists ps ps') :
    L.When (atNext t) (declaration t ps) (declaration t' ps') (Steps L.patternLists)
      (L.distinctPatterns ·.value) := by
  refine (When.read rfl fun _ _ _ => ?_).restrict fun s start => name ▸ start.kind
  refine .expect rfl (.pure (.done h)) fun _ _ _ => patternValue_when.then fun o o' value => ?_
  cases o with
  | none =>
    cases o' with
    | none => exact .pure (.done h)
    | some value' => exact nomatch value
  | some entry =>
    cases o' with
    | none => exact nomatch value
    | some entry' =>
      obtain ⟨kind, place⟩ := entry
      obtain ⟨kind', place'⟩ := entry'
      have same := Option.some.inj value
      obtain rfl : kind = kind' := congrArg Prod.fst same
      refine (modifiers_always arguments).then fun ms ms' modified =>
        .pointHere fun stop stop' to_stop => ?_
      refine (keepPattern_always h ?_).thenGood (fun _ _ distinct => distinct) fun qs qs' kept =>
        .pure (.yield kept)
      have span := token.span.through to_stop
      simp only [Pattern.rebase, span.eq, (token.ident (name ▸ rfl)).eq, show _ = _ from modified,
        show place.rebase L.left = place'.rebase L.right from congrArg Prod.snd same]

theorem misnamed_plain {k : Kind} (h : isMisnamed k = true) : k.isPlain ∧ k.looksBeyond := by
  cases k with
  | ident => exact ⟨rfl, rfl⟩
  | sigil s => exact ⟨rfl, h⟩
  | _ => exact nomatch h

theorem dropDeclaration_when (arguments : L.TakesArguments) {t t' : Token} (token : L.token t t')
    (kind : t.kind.isPlain) {ps ps' : List Pattern} (h : L.patternLists ps ps') :
    L.When (fun s => s.kindAhead? = some t.kind ∧ s.kindBeyond? = some (.symbol .equal))
      (dropDeclaration t ps) (dropDeclaration t' ps') (Steps L.patternLists) := by
  have fault : L.exact → (SyntaxFault.invalidPatternIdentifier t.name).rebase L.left =
      (SyntaxFault.invalidPatternIdentifier t'.name).rebase L.right := fun exact => by
        rw [token.name exact]; rfl
  refine (report_always fault token.span).at.bind
    (m := fun _ s => s.kindAhead? = some t.kind ∧ s.kindBeyond? = some (.symbol .equal))
      (fun _ start => start) ?_
  refine fun _ _ _ => .readTwo kind rfl fun _ _ _ _ _ _ _ =>
    patternValue_when.then fun o o' value => ?_
  cases o with
  | none =>
    cases o' with
    | none => exact .pure (.done h)
    | some value' => exact nomatch value
  | some entry =>
    cases o' with
    | none => exact nomatch value
    | some entry' => exact (modifiers_always arguments).then fun _ _ _ => .pure (.yield h)

theorem patternStep_always (arguments : L.TakesArguments) (ps ps' : List Pattern)
    (h : L.patternLists ps ps') :
    L.Always (patternStep ps) (patternStep ps') (Steps L.patternLists)
      (L.distinctPatterns ·.value) := by
  refine .peek (.pure (.done h)) fun t t' token => ?_
  dsimp only
  rw [← token.kind]
  split
  · rename_i kind
    exact (declaration_when arguments token kind h).restrict fun s start => start.2
  refine .look Eq (run_declaresMisnamed · _) (run_declaresMisnamed · _)
    (fun s s' related start => ?_) ?_
  · cases misnamed : isMisnamed t.kind with
    | false => rfl
    | true => rw [L.beyond related start.2.kind (misnamed_plain misnamed).2]
  rintro declares _ rfl
  split
  · rename_i equal
    intro s s' related start
    obtain ⟨misnamed, beyond⟩ := Bool.and_eq_true_iff.mp (start.2.trans equal)
    have dropped := dropDeclaration_when arguments token (misnamed_plain misnamed).1 h
    exact fun _ => dropped s s' related ⟨start.1.2.kind, beq_iff_eq.mp beyond⟩ trivial
  · exact .pure (.done h)

end Lockstep

end RuleDesk
