import RuleDesk.Proofs.Parsing.Lockstep

namespace RuleDesk

namespace Parser

/-- All that a part of the parser comes to has a property. -/
def Gives (p : Parser α) (post : α → Prop) : Prop := ∀ s, post (p.run s).1

section Gives

variable {p : Parser α} {f : α → Parser β} {post : β → Prop}

theorem Gives.pure {b : β} (h : post b) : (pure b : Parser β).Gives post := fun _ => h

theorem Gives.bind (rest : ∀ a, (f a).Gives post) : (p >>= f).Gives post := fun _ => rest _ _

/-- The property may follow from one of what the first part comes to. -/
theorem Gives.after {first : α → Prop} (h : p.Gives first)
    (rest : ∀ a, first a → (f a).Gives post) :
    (p >>= f).Gives post := fun s => rest _ (h s) _

/-- What every step of a loop gives, the loop gives. -/
theorem Gives.iterate {step : α → Parser (ForInStep α)} {post : α → Prop}
    (steps : ∀ a, post a → (step a).Gives fun r => post r.value) {a : α} (start : post a) :
    (iterate step a).Gives post := by
  intro s
  show post ((iterateIn step (s.input.here.rest.length + 1) a).run s).1
  generalize s.input.here.rest.length + 1 = fuel
  induction fuel generalizing a s with
  | zero => exact start
  | succ fuel ih =>
    have next := steps a start s
    simp only [iterateIn, run_bind]
    generalize (step a).run s = r at next ⊢
    obtain ⟨r, t⟩ := r
    cases r with
    | done b => exact next
    | yield b => exact ih next t

/-- What the contents of the sections of a rule leave so holds of the whole rule,
if it is about patterns and the condition only. -/
theorem Gives.ofContents {post : Rule → Prop}
    (content : ∀ kind duplicate r, post r → (sectionContent kind duplicate r).Gives post)
    (none : ∀ r, r.patterns = [] → r.condition = none → post r)
    (congr : ∀ r q, q.patterns = r.patterns → q.condition = r.condition → post r → post q)
    (start : Nat) (flags : RuleFlags) :
    (ruleAfterKeyword start flags).Gives post := by
  have section_ : ∀ kind r, post r → (ruleSection kind r).Gives post := by
    intro kind r held
    refine .bind fun o => ?_
    cases o with
    | none => exact .pure held
    | some keyword =>
      exact .bind fun head => (content kind _ r held).after fun q held => .bind fun stop =>
        .pure (congr q _ rfl rfl held)
  have body : ∀ r, post r → (bodyStep r).Gives fun r => post r.value := by
    refine fun r held => .bind fun o => ?_
    cases o with
    | none => exact .bind fun _ => .pure held
    | some t =>
      dsimp only
      split
      · exact .bind fun _ => .pure (congr r _ rfl rfl held)
      split
      · exact .bind fun _ => (section_ _ r held).after fun q held => .pure held
      · refine .bind fun item => ?_
        split
        · exact .bind fun _ => .pure held
        · exact .bind fun _ => .bind fun _ => .pure held
  have head : (ruleHead flags).Gives post :=
    .bind fun _ => .bind fun _ => .bind fun _ => .pure (none _ rfl rfl)
  refine head.after fun r held => (Gives.iterate body held).after fun q held => .bind fun stop => ?_
  split
  · exact .bind fun _ => .pure (congr q _ rfl rfl held)
  · exact .pure (congr q _ rfl rfl held)

/-- What all rules come to, the rules among the items of a text come to. -/
theorem Gives.itemStep {post : Rule → Prop}
    (rule : ∀ start flags, (ruleAfterKeyword start flags).Gives post) (items : Items)
    (h : ∀ r ∈ items.rules, post r) : (itemStep items).Gives fun r => ∀ q ∈ r.value.rules,
    post q := by
  have item : ruleItem.Gives fun o => ∀ r ∈ o, post r := by
    refine .bind fun o => ?_
    cases o with
    | none => exact .pure nofun
    | some t =>
      refine .bind fun flags => .bind fun o => ?_
      cases o with
      | none => exact .pure nofun
      | some _ =>
        exact (rule _ flags).after fun r held => .pure fun q same => Option.some.inj same ▸ held
  refine .bind fun o => ?_
  split
  · exact .pure h
  · exact .bind fun _ => .bind fun _ => .pure h
  · exact .bind fun _ => .bind fun _ => .pure h
  · split
    · refine .bind fun _ => item.after fun o held => .pure fun q member => ?_
      rcases List.mem_append.mp member with old | last
      · exact h q old
      · exact held q (Option.mem_toList.mp last)
    · exact .bind fun _ => .bind fun _ => .pure h

end Gives

end Parser

/-- What all rules come to, the rules of a text come to. -/
theorem parse_rules_give {post : Rule → Prop}
    (rule : ∀ start flags, (Parser.ruleAfterKeyword start flags).Gives post) (text : List Char) :
    ∀ r ∈ (parse text).rules, post r :=
  Parser.Gives.iterate (Parser.Gives.itemStep rule) (fun _ none => (List.not_mem_nil none).elim)
    (Parser.initial text)

namespace Lockstep

open RuleDesk.Parser

variable {L : Lockstep} {pre : ParseState → Prop}

theorem kindAhead? {s s' : ParseState} (h : L.rel s s') : s.kindAhead? = s'.kindAhead? := by
  have next := L.next h
  unfold ParseState.kindAhead?
  generalize s.next? = o, s'.next? = o' at next
  cases next with
  | none => rfl
  | some token => exact congrArg some token.kind

/-- States where the next token has a kind. -/
def atKind (k : Kind) (s : ParseState) : Prop := s.kindAhead? = some k

/-- States where the next token is the one that was looked at. -/
def atNext (t : Token) (s : ParseState) : Prop := s.next? = some t

theorem atNext.kind {t : Token} {s : ParseState} (h : atNext t s) : s.kindAhead? = some t.kind :=
  ParseState.kindAhead?_of_next h

section Look

variable {β : Type} {alike : β → β → Prop} {good : β → Prop}

theorem When.peek {f f' : Option Token → Parser β}
    (none : L.When (fun s => pre s ∧ s.next? = Option.none) (f none) (f' none) alike good)
    (some : ∀ t t', L.token t t' →
    L.When (fun s => pre s ∧ atNext t s) (f (some t)) (f' (some t')) alike good) :
    L.When pre (peek >>= f) (peek >>= f') alike good := by
  refine .look L.tokens run_peek run_peek (fun s s' related _ => L.next related) fun o o' same => ?_
  cases same with
  | none => exact none
  | some token => exact some _ _ token

theorem When.peekKind {f f' : Option Kind → Parser β}
    (rest : ∀ o, L.When (fun s => pre s ∧ s.kindAhead? = o) (f o) (f' o) alike good) :
    L.When pre (peekKind >>= f) (peekKind >>= f') alike good := by
  refine .look Eq run_peekKind run_peekKind (fun s s' related _ => kindAhead? related) ?_
  rintro o _ rfl
  exact rest o

theorem When.atKind {f f' : Bool → Parser β} (k : Kind)
    (yes : L.When (fun s => pre s ∧ atKind k s) (f true) (f' true) alike good)
    (no : L.When (fun s => pre s ∧ ¬ Lockstep.atKind k s) (f false) (f' false) alike good) :
    L.When pre (Parser.atKind k >>= f) (Parser.atKind k >>= f') alike good := by
  refine .look Eq (run_atKind · k) (run_atKind · k)
    (fun s s' related _ => by rw [kindAhead? related]) ?_
  rintro b _ rfl
  cases b with
  | true => exact yes.restrict fun s start => ⟨start.1, beq_iff_eq.mp start.2⟩
  | false => exact no.restrict fun s start => ⟨start.1, fun ahead => by simp_all [Lockstep.atKind]⟩

theorem When.lastStop {f f' : Nat → Parser β}
    (rest : ∀ n n', L.left.offset n = L.right.offset n' → L.When pre (f n) (f' n') alike good) :
    L.When pre (lastStop >>= f) (lastStop >>= f') alike good :=
  .look (L.left.offset · = L.right.offset ·) run_lastStop run_lastStop
    (fun _ _ related _ => L.here related) fun n n' same =>
    (rest n n' same).restrict fun _ start => start.1

theorem textStop_when (ended : ∀ s, pre s → s.next? = none) :
    L.When pre Parser.textStop Parser.textStop (L.left.offset · = L.right.offset ·) :=
  fun s _ related start _ =>
  .inr ⟨L.textStop related (ended s start), related⟩

theorem When.pointHere {f f' : Span → Parser β}
    (rest : ∀ a a', L.spans a a' → L.When pre (f a) (f' a') alike good) :
    L.When pre (pointHere >>= f) (pointHere >>= f') alike good :=
  .look L.spans run_pointHere run_pointHere (fun _ _ related _ => .point (L.here related))
    fun a a' same =>
    (rest a a' same).restrict fun _ start => start.1

theorem When.spanAhead {f f' : Span → Parser β}
    (rest : ∀ a a', L.spans a a' → L.When pre (f a) (f' a') alike good) :
    L.When pre (spanAhead >>= f) (spanAhead >>= f') alike good := by
  refine .look L.spans run_spanAhead run_spanAhead (fun s s' related _ => ?_) fun a a' same =>
    (rest a a' same).restrict fun _ start => start.1
  have next : L.tokens s.next? s'.next? := L.next related
  generalize s.next? = o, s'.next? = o' at next
  cases next with
  | none => exact .point (L.here related)
  | some token => exact token.span

/-- Whether the next token stands right behind the one read last. The two
parses agree on it where it matters. -/
theorem When.nextAdjacent {f f' : Bool → Parser β} {k : Kind}
    (same : ∀ s s', L.rel s s' → pre s → Lockstep.atKind k s → s.adjacent = s'.adjacent)
    (yes : L.When (fun s => pre s ∧ Lockstep.atKind k s) (f true) (f' true) alike good)
    (no : L.When pre (f false) (f' false) alike good) :
    L.When pre (nextAdjacent k >>= f) (nextAdjacent k >>= f') alike good := by
  refine .look Eq (run_nextAdjacent · k) (run_nextAdjacent · k) (fun s s' related start => ?_) ?_
  · rw [← kindAhead? related]
    by_cases ahead : s.kindAhead? = some k
    · rw [same s s' related start ahead]
    · rw [beq_eq_false_iff_ne.mpr ahead, Bool.false_and, Bool.false_and]
  rintro b _ rfl
  cases b with
  | true =>
    exact yes.restrict fun s start => ⟨start.1, beq_iff_eq.mp (Bool.and_eq_true_iff.mp start.2).1⟩
  | false => exact no.restrict fun s start => start.1

theorem When.atSyncPoint {f f' : Bool → Parser β}
    (rest : ∀ b,
    L.When (fun s => pre s ∧ s.kindAhead?.all isSyncKind = b) (f b) (f' b) alike good) :
    L.When pre (atSyncPoint >>= f) (atSyncPoint >>= f') alike good := by
  refine .look Eq run_atSyncPoint run_atSyncPoint
    (fun s s' related _ => by rw [kindAhead? related]) ?_
  rintro b _ rfl
  exact rest b

theorem startsItem_alike {s s' : ParseState} (h : L.rel s s') :
    startsItem s.kindAhead? s.kindBeyond? = startsItem s'.kindAhead? s'.kindBeyond? := by
  have same := kindAhead? h
  cases ahead : s.kindAhead? with
  | none => rw [← same, ahead]; rfl
  | some k =>
    rw [← same, ahead]
    by_cases looks : k.looksBeyond
    · rw [L.beyond h ahead looks]
    · cases k with
      | keyword w =>
        have no_modifier : (w == .kwPrivate || w == .kwGlobal) = false := by
          cases w <;> first | rfl | exact (looks rfl).elim
        simp only [startsItem, no_modifier, Bool.false_and]
      | _ => rfl

theorem When.atTopLevelItem {f f' : Bool → Parser β}
    (rest : ∀ b,
    L.When (fun s => pre s ∧ startsItem s.kindAhead? s.kindBeyond? = b) (f b) (f' b) alike good) :
    L.When pre (atTopLevelItem >>= f) (atTopLevelItem >>= f') alike good := by
  refine .look Eq run_atTopLevelItem run_atTopLevelItem
    (fun s s' related _ => startsItem_alike related) ?_
  rintro b _ rfl
  exact rest b

end Look

/-! ### Parts that do one thing -/

/-- An error is reported. In an exact comparison both errors have to be alike. -/
theorem report_always {fault fault' : SyntaxFault} {a a' : Span}
    (h : L.exact → fault.rebase L.left = fault'.rebase L.right) (same : L.spans a a') :
    L.Always (report fault a) (report fault' a') whatever := by
  have alike : (Act.report ⟨fault, a⟩).Alike L.exact L.left L.right (.report ⟨fault', a'⟩) := by
    refine .report fun exact => ?_
    simp only [SyntaxError.rebase, h exact, same.eq]
  exact .act (fun s _ => run_report s fault a) (run_report · fault' a') alike (fun _ _ => trivial)
    fun _ _ _ => trivial

/-- Behind an error the parses have parted, unless the comparison is exact. -/
theorem When.reported {fault : SyntaxFault} {span : Span} {p p' : Parser α} {alike : α → α → Prop}
    {good : α → Prop} (h : L.exact → L.When pre (do report fault span; p) p' alike good) :
    L.When pre (do report fault span; p) p' alike good := by
  intro s s' related start fine
  rcases L.flawless ⟨fault, span⟩ related with exact | parted
  · exact h exact s s' related start fine
  · exact .inl (L.parted_later parted (Parser.forward p _) (Parser.forward p' s'))

/-- Behind a part that is sure to report an error the parses have parted, unless
the comparison is exact. -/
theorem When.failing {p p' : Parser α} {alike : α → α → Prop} {good : α → Prop}
    (fails : ∀ s, s.panicking = false → (p.run s).2.errors ≠ s.errors)
    (h : L.exact → L.When pre p p' alike good) :
    L.When pre p p' alike good := by
  intro s s' related start fine
  rcases L.calm related with exact | calm
  · exact h exact s s' related start fine
  obtain ⟨reads, more, longer⟩ := p.forward s
  cases more with
  | nil => exact (fails s calm (by rw [← longer, List.append_nil])).elim
  | cons e more =>
    rcases L.flawless e related with exact | parted
    · exact h exact s s' related start fine
    · have later : (s.reported e).Reads (p.run s).2 := by
        cases reads with
        | nothing input read => exact .nothing input read
        | tokens later next reaches read ordered => exact .tokens later next reaches read ordered
      exact .inl (L.parted_later parted ⟨later, more, by rw [← longer]; exact List.append_assoc ..⟩
        (Parser.forward p' s'))

theorem setPanicking_false_always : L.Always (setPanicking false) (setPanicking false) whatever :=
  .act (fun _ _ => rfl) (fun _ => rfl) .calm (fun _ _ => trivial) fun _ _ _ => trivial

theorem setDepth_always (n : Nat) : L.Always (setDepth n) (setDepth n) whatever :=
  .act (fun _ _ => rfl) (fun _ => rfl) (.depth n) (fun _ _ => trivial) fun _ _ _ => trivial

/-- A token is taken where one stands that may be taken. -/
theorem advance_when : L.When (Act.read.Allowed L.exact) advance advance L.tokens :=
  .act (fun s _ => run_advance s) run_advance .read (fun _ start => start) fun _ _ related =>
    L.next related

theorem When.read {f f' : Option Token → Parser β} {alike : β → β → Prop} {good : β → Prop}
    {k : Kind} (plain : k.isPlain)
    (rest : ∀ o o', L.tokens o o' → L.When (ParseState.justRead · k) (f o) (f' o') alike good) :
    L.When (Lockstep.atKind k) (advance >>= f) (advance >>= f') alike good := by
  refine (advance_when.restrict fun s start => ⟨k, start, .inl plain⟩).bind (fun s start => ?_) rest
  rw [run_advance]
  exact s.advanced_justRead start .normal

theorem When.readNext {f f' : Option Token → Parser β} {alike : β → β → Prop} {good : β → Prop}
    {t : Token} (plain : t.kind.isPlain)
    (rest : ∀ o o', L.tokens o o' →
    L.When (ParseState.justRead · t.kind) (f o) (f' o') alike good) :
    L.When (fun s => pre s ∧ atNext t s) (advance >>= f) (advance >>= f') alike good :=
  (When.read plain rest).restrict fun _ start => start.2.kind

/-- Two tokens in a row, both of them known. -/
theorem When.readTwo {f f' : Option Token → Option Token → Parser β} {alike : β → β → Prop}
    {good : β → Prop} {k l : Kind} (plain : k.isPlain) (plain' : l.isPlain)
    (rest : ∀ o o' u u', L.tokens o o' → L.tokens u u' → (∀ t ∈ u, t.kind = l) →
      L.When (ParseState.justRead · l) (f o u) (f' o' u') alike good) :
    L.When (fun s => s.kindAhead? = some k ∧ s.kindBeyond? = some l)
      (do let o ← advance; let u ← advance; f o u) (do let o ← advance; let u ← advance; f' o u)
        alike good := by
  refine (advance_when.restrict fun s start => ⟨k, start.1, .inl plain⟩).bind
    (m := fun _ s => Lockstep.atKind l s) (fun s start => ?_) fun o o' same => ?_
  · rw [run_advance]
    exact s.advanced_kindAhead?.trans start.2
  · refine (advance_when.restrict fun s start => ⟨l, start, .inl plain'⟩).bind
      (m := fun u s => (∀ t ∈ u, t.kind = l) ∧ s.justRead l) (fun s start => ?_)
      fun u u' same' s s' related known => rest o o' u u' same same' known.1 s s' related known.2
    rw [run_advance]
    refine ⟨fun t read => ?_, s.advanced_justRead start .normal⟩
    exact Option.some.inj
      ((ParseState.kindAhead?_of_next (Option.mem_def.mp read)).symm.trans start)

theorem enter_when {mode : Mode} (allowed : ∀ s, pre s → (Act.enter mode).Allowed L.exact s) :
    L.When pre (advanceInto mode) (advanceInto mode) L.tokens :=
  .act (fun s _ => run_advanceInto s mode) (run_advanceInto · mode) (.enter mode) allowed
    fun _ _ related => L.next related

theorem unexpectedError_alike {s s' : ParseState} (h : L.rel s s') (exact : L.exact)
    (expected : Expectation) :
    (s.unexpectedError expected).rebase L.left = (s'.unexpectedError expected).rebase L.right := by
  have next : L.tokens s.next? s'.next? := L.next h
  have stop := L.textStop h
  unfold ParseState.unexpectedError
  generalize s.next? = o, s'.next? = o' at next stop
  cases next with
  | none => exact congrArg (SyntaxError.mk (.unexpectedEnd expected)) (spans.point (stop rfl))
  | @some t t' token =>
    have fault : (faultOf t expected).rebase L.left = (faultOf t' expected).rebase L.right := by
      unfold faultOf
      rw [token.kind, token.name exact]
      split <;> rfl
    simp only [SyntaxError.rebase, fault, token.span.eq]

theorem unexpected_always (expected : Expectation) :
    L.Always (unexpected expected) (unexpected expected) whatever := by
  intro s s' related _ _
  have panicking := L.panicking related
  rw [Follows, run_unexpected, run_unexpected]
  cases calm : s.panicking with
  | true =>
    rw [← panicking, calm]
    exact .inr ⟨trivial, related⟩
  | false =>
    rw [← panicking, calm]
    exact (L.act related (.panic (unexpectedError_alike related · expected)) trivial).imp_right
      fun rel => ⟨trivial, rel⟩

theorem eat_always {k : Kind} (plain : k.isPlain) : L.Always (eat k) (eat k) L.tokens := by
  refine .atKind k ?_ (.pure .none)
  exact advance_when.restrict fun s start => ⟨k, start.2, .inl plain⟩

/-- What is read where a token of a kind is asked for. -/
theorem eat_reads {k : Kind} (s : ParseState) (t : Token) (h : ((eat k).run s).1 = some t) :
    t.kind = k ∧ ((eat k).run s).2.justRead k := by
  rw [run_eat] at h ⊢
  split at h
  · rename_i ahead
    rw [if_pos ahead]
    have kind := ParseState.kindAhead?_of_next h
    exact ⟨Option.some.inj (kind.symm.trans ahead), s.advanced_justRead ahead .normal⟩
  · cases h

/-- A token that may stand there, with the kind it then has. -/
theorem When.eatKind {f f' : Option Token → Parser β} {alike : β → β → Prop} {good : β → Prop}
    {k : Kind} (plain : k.isPlain) (none : L.Always (f none) (f' none) alike good)
    (some : ∀ t t', L.token t t' → t.kind = k →
    L.When (ParseState.justRead · k) (f (some t)) (f' (some t')) alike good) :
    L.When pre (Parser.eat k >>= f) (Parser.eat k >>= f') alike good := by
  refine (eat_always plain).at.bind (m := fun o s => ∀ t, o = Option.some t → t.kind = k ∧
    s.justRead k) (fun s _ => eat_reads s) fun o o' same => ?_
  cases same with
  | none => exact none.at
  | some token =>
    exact fun s s' related start => some _ _ token (start _ rfl).1 s s' related (start _ rfl).2

theorem When.eat {f f' : Option Token → Parser β} {alike : β → β → Prop} {good : β → Prop}
    {k : Kind} (plain : k.isPlain) (none : L.Always (f none) (f' none) alike good)
    (some : ∀ t t', L.token t t' →
    L.When (ParseState.justRead · k) (f (some t)) (f' (some t')) alike good) :
    L.When pre (Parser.eat k >>= f) (Parser.eat k >>= f') alike good :=
  .eatKind plain none fun t t' token _ => some t t' token

theorem expect_always {k : Kind} (plain : k.isPlain) : L.Always (expect k) (expect k) L.tokens :=
  .eat plain ((unexpected_always _).then fun _ _ _ => .pure .none) fun _ _ token =>
    .pure (.some token)

theorem expect_reads {k : Kind} (s : ParseState) (t : Token) (h : ((expect k).run s).1 = some t) :
    t.kind = k ∧ ((expect k).run s).2.justRead k := by
  rw [expect, run_bind] at h ⊢
  have read := eat_reads (k := k) s
  generalize (eat k).run s = r at h read ⊢
  obtain ⟨o, u⟩ := r
  cases o with
  | none => cases h
  | some t' =>
    cases h
    exact read t rfl

/-- A token that is expected, with the kind it then has. -/
theorem When.expectKind {f f' : Option Token → Parser β} {alike : β → β → Prop} {good : β → Prop}
    {k : Kind} (plain : k.isPlain) (none : L.Always (f none) (f' none) alike good)
    (some : ∀ t t', L.token t t' → t.kind = k →
    L.When (ParseState.justRead · k) (f (some t)) (f' (some t')) alike good) :
    L.When pre (Parser.expect k >>= f) (Parser.expect k >>= f') alike good := by
  refine (expect_always plain).at.bind (m := fun o s => ∀ t, o = Option.some t → t.kind = k ∧
    s.justRead k) (fun s _ => expect_reads s) fun o o' same => ?_
  cases same with
  | none => exact none.at
  | some token =>
    exact fun s s' related start => some _ _ token (start _ rfl).1 s s' related (start _ rfl).2

theorem When.expect {f f' : Option Token → Parser β} {alike : β → β → Prop} {good : β → Prop}
    {k : Kind} (plain : k.isPlain) (none : L.Always (f none) (f' none) alike good)
    (some : ∀ t t', L.token t t' →
    L.When (ParseState.justRead · k) (f (some t)) (f' (some t')) alike good) :
    L.When pre (Parser.expect k >>= f) (Parser.expect k >>= f') alike good :=
  .expectKind plain none fun t t' token _ => some t t' token

/-- For what does not depend on the token that is expected. -/
theorem When.demand {p p' : Parser β} {alike : β → β → Prop} {good : β → Prop} {k : Kind}
    (plain : k.isPlain) (rest : L.Always p p' alike good) :
    L.When pre (Parser.expect k >>= fun _ => p) (Parser.expect k >>= fun _ => p') alike good :=
  .expect plain rest fun _ _ _ => rest.at

theorem expect_missing {k : Kind} {s : ParseState} (missing : s.kindAhead? ≠ some k) :
    (Parser.expect k).run s =
      (do unexpected (.token k); return none : Parser (Option Token)).run s := by
  rw [Parser.expect, run_bind, run_eat, if_neg missing]

/-- Behind a token that is expected, the comparison is exact or the token was there. -/
theorem When.demandRead {p p' : Parser β} {alike : β → β → Prop} {good : β → Prop} {k : Kind}
    (plain : k.isPlain) (rest : L.When (fun s => L.exact ∨ s.justRead k) p p' alike good) :
    L.When pre (Parser.expect k >>= fun _ => p) (Parser.expect k >>= fun _ => p') alike good := by
  intro s s' related start fine
  by_cases ahead : s.kindAhead? = some k
  · refine (expect_always plain s s' related trivial trivial).bind fun _ rel =>
      rest _ _ rel (.inr ?_) fine
    rw [run_expect ahead]
    exact s.advanced_justRead ahead .normal
  rcases L.calm related with exact | calm
  · exact When.demand plain (rest.restrict fun _ _ => .inl exact) s s' related start fine
  rcases L.flawless (s.unexpectedError (.token k)) related with exact | parted
  · exact When.demand plain (rest.restrict fun _ _ => .inl exact) s s' related start fine
  · have panicked : ((Parser.expect k).run s).2 = s.panicked (s.unexpectedError (.token k)) := by
      rw [expect_missing ahead, run_bind, run_unexpected, calm]
      rfl
    have behind : (s.reported (s.unexpectedError (.token k))).Before ((Parser.expect k).run s).2 :=
      panicked ▸ ⟨.nothing rfl rfl, List.prefix_refl _⟩
    exact .inl (L.parted_later parted (behind.trans (Parser.forward _ _)) (Parser.forward _ s'))

/-! ### Loops -/

/-- What a loop comes to is good only if what it starts from is. -/
theorem iterateIn_good {step : α → Parser (ForInStep α)} {good : α → Prop}
    (back : ∀ a s, good ((step a).run s).1.value → good a) (n : Nat) (a : α) (s : ParseState)
    (fine : good ((iterateIn step n a).run s).1) : good a := by
  induction n generalizing a s with
  | zero => exact fine
  | succ n ih =>
    refine back a s ?_
    simp only [iterateIn, run_bind] at fine
    cases result : ((step a).run s).1 with
    | done b =>
      rw [result] at fine
      exact fine
    | yield b =>
      rw [result] at fine
      exact ih b _ fine

/-- Loops go in lockstep if their steps do. Each one has its own fuel, which
is enough because both of them read something in every round. -/
theorem iterateIn_follows {step step' : α → Parser (ForInStep α)} {alike : α → α → Prop}
    {good : α → Prop} (progress : Progress step) (progress' : Progress step')
    (keeps : ∀ a s, pre s → pre ((step a).run s).2)
    (back : ∀ a s, good ((step a).run s).1.value → good a)
    (steps : ∀ a a', alike a a' → L.When pre (step a) (step' a') (Steps alike) (good ·.value))
    {n m : Nat} {a a' : α} {s s' : ParseState} (fuel : s.unread < n) (fuel' : s'.unread < m)
    (related : L.rel s s')
    (start : pre s) (same : alike a a') (fine : good ((iterateIn step n a).run s).1) :
    L.Follows s s' (iterateIn step n a) (iterateIn step' m a') alike := by
  induction n generalizing m a a' s s' with
  | zero => exact absurd fuel (Nat.not_lt_zero _)
  | succ n ih =>
    obtain ⟨m, rfl⟩ : ∃ k, m = k + 1 := ⟨m - 1, by omega⟩
    have later : good ((step a).run s).1.value := by
      simp only [iterateIn, run_bind] at fine
      cases result : ((step a).run s).1 with
      | done b =>
        rw [result] at fine
        exact fine
      | yield b =>
        rw [result] at fine
        exact iterateIn_good back n b _ fine
    refine (steps a a' same s s' related start later).bind fun step_alike rel => ?_
    have mid := keeps a s start
    have shorter := progress a s trivial
    have shorter' := progress' a' s' trivial
    simp only [iterateIn, run_bind] at fine
    generalize (step a).run s = r,
      (step' a').run s' = r' at step_alike rel mid shorter shorter' fine ⊢
    obtain ⟨r, t⟩ := r
    obtain ⟨r', t'⟩ := r'
    cases step_alike with
    | done same => exact .inr ⟨same, rel⟩
    | @yield b b' same =>
      have left : t.unread < n := Nat.lt_of_lt_of_le (shorter ⟨b, rfl⟩) (Nat.le_of_lt_succ fuel)
      have left' : t'.unread < m :=
        Nat.lt_of_lt_of_le (shorter' ⟨b', rfl⟩) (Nat.le_of_lt_succ fuel')
      exact ih left left' rel mid same fine

theorem When.iterate {step step' : α → Parser (ForInStep α)} {alike : α → α → Prop}
    (progress : Progress step) (progress' : Progress step')
    (keeps : ∀ a s, pre s → pre ((step a).run s).2)
    (steps : ∀ a a', alike a a' → L.When pre (step a) (step' a') (Steps alike)) {a a' : α}
    (same : alike a a') :
    L.When pre (iterate step a) (iterate step' a') alike := fun s s' related start fine =>
  iterateIn_follows progress progress' keeps (fun _ _ _ => trivial) steps
    (Nat.lt_succ_self s.unread) (Nat.lt_succ_self s'.unread) related start same fine

theorem Always.iterateGood {step step' : α → Parser (ForInStep α)} {alike : α → α → Prop}
    {good : α → Prop} (progress : Progress step) (progress' : Progress step')
    (back : ∀ a s, good ((step a).run s).1.value → good a)
    (steps : ∀ a a', alike a a' → L.Always (step a) (step' a') (Steps alike) (good ·.value))
    {a a' : α}
    (same : alike a a') : L.Always (iterate step a) (iterate step' a') alike good :=
  fun s s' related start fine =>
  iterateIn_follows progress progress' (fun _ _ start => start) back steps
    (Nat.lt_succ_self s.unread) (Nat.lt_succ_self s'.unread) related start same fine

theorem Always.iterate {step step' : α → Parser (ForInStep α)} {alike : α → α → Prop}
    (progress : Progress step) (progress' : Progress step')
    (steps : ∀ a a', alike a a' → L.Always (step a) (step' a') (Steps alike)) {a a' : α}
    (same : alike a a') :
    L.Always (iterate step a) (iterate step' a') alike :=
  When.iterate progress progress' (fun _ _ start => start) steps same

/-! ### Skipping -/

/-- States where the next token is not the keyword of a rule. -/
def atOther (s : ParseState) : Prop := ∃ k, s.kindAhead? = some k ∧ k ≠ .keyword .kwRule

/-- A token that is skipped stands at no place where parsing resumes. -/
theorem skipped_other {s : ParseState} (no_sync : s.kindAhead?.all isSyncKind = false) :
    atOther s := by
  cases ahead : s.kindAhead? with
  | none => rw [ahead] at no_sync; exact nomatch no_sync
  | some k =>
    refine ⟨k, ahead, ?_⟩
    rintro rfl
    rw [ahead] at no_sync
    exact nomatch no_sync

/-- In an exact comparison the tokens that are in error are taken as well. -/
theorem advance_exact (exact : L.exact) : L.When atOther advance advance L.tokens :=
  advance_when.restrict fun _ ⟨k, ahead, other⟩ => ⟨k, ahead, .inr ⟨exact, other⟩⟩

/-- An open literal is taken and then reported. -/
theorem openLiteral_when {t t' : Token} (token : L.token t t') (other : t.kind ≠ .keyword .kwRule)
    {fault : SyntaxFault}
    (placeless : ∀ v, fault.rebase v = fault) {a a' : α} {alike : α → α → Prop}
    (same : alike a a') :
    L.When (atNext t) (do let _ ← advance; report fault t.span; return a)
      (do let _ ← advance; report fault t'.span; return a')
      alike := by
  refine .failing (fun s _ unreported => ?_) fun exact => ?_
  · have longer : (s.advanced .normal).errors ++ [⟨fault, t.span⟩] = s.errors := by
      simpa only [run_bind, run_advance, run_report, run_pure, ParseState.reported] using unreported
    rw [ParseState.advanced_errors] at longer
    exact List.cons_ne_nil _ _ (List.append_right_eq_self.mp longer)
  refine ((advance_exact exact).restrict fun s start => ⟨t.kind, start.kind, other⟩).then
    fun _ _ _ => ?_
  refine (report_always (fun _ => ?_) token.span).then fun _ _ _ => .pure same
  rw [placeless, placeless]

theorem skipToSyncPoint_exact (exact : L.exact) :
    L.Always skipToSyncPoint skipToSyncPoint whatever := by
  refine Always.iterate skipStep_progress skipStep_progress (fun u u' _ => ?_) trivial
  refine .atSyncPoint fun b => ?_
  cases b with
  | true => exact .pure (.done trivial)
  | false =>
    exact ((advance_exact exact).restrict fun s start => skipped_other start.2).then fun _ _ _ =>
      .pure (.yield trivial)

/-- What the grammar has no place for is an error. -/
theorem When.unexpected (expected : Expectation) {p p' : Parser α} {alike : α → α → Prop}
    {good : α → Prop}
    (h : L.exact →
    L.When pre (do Parser.unexpected expected; p) (do Parser.unexpected expected; p') alike good) :
    L.When pre (do Parser.unexpected expected; p) (do Parser.unexpected expected; p') alike
      good := by
  refine .failing (fun s calm same => ?_) h
  have later := (Parser.forward p ((Parser.unexpected expected).run s).2).errors.length_le
  rw [run_bind] at same
  rw [same, run_unexpected, calm] at later
  exact absurd (List.length_append ▸ later) (Nat.not_succ_le_self _)

theorem When.unexpectedSkip (expected : Expectation) {p p' : Parser α} {alike : α → α → Prop}
    (rest : L.Always p p' alike) :
    L.When pre (do Parser.unexpected expected; skipToSyncPoint; p)
      (do Parser.unexpected expected; skipToSyncPoint; p') alike :=
  .unexpected expected fun exact => (unexpected_always expected).at.then fun _ _ _ =>
    (skipToSyncPoint_exact exact).then fun _ _ _ => rest

/-- A modifier that may have arguments, with its arguments. -/
def modifierWithArguments : Parser Unit := do
  let _ ← advance
  skipArguments

/-- The arguments of modifiers are not looked into, so how they are taken is left open. -/
def TakesArguments (L : Lockstep) : Prop :=
  L.When (fun s => ∃ k, s.kindAhead? = some k ∧ isModifierWithArguments k) modifierWithArguments
    modifierWithArguments whatever

theorem takesArguments_of (any : L.When atOther advance advance L.tokens) : L.TakesArguments := by
  have arguments : L.Always (iterate argumentStep ()) (iterate argumentStep ()) whatever := by
    refine Always.iterate argumentStep_progress argumentStep_progress (fun u u' _ => ?_) trivial
    refine .look Eq run_atArgumentsEnd run_atArgumentsEnd
      (fun s s' related _ => by rw [kindAhead? related]) ?_
    rintro ended _ rfl
    split
    · exact .pure (.done trivial)
    · rename_i inside
      refine (any.restrict fun s start => skipped_other ?_).then fun _ _ _ => .pure (.yield trivial)
      exact (Bool.or_eq_false_iff.mp (start.2.trans (Bool.not_eq_true _ ▸ inside))).2
  have keyword : ∀ s : ParseState, (∃ k, s.kindAhead? = some k ∧ isModifierWithArguments k) →
      atOther s := by
    rintro s ⟨k, ahead, modifier⟩
    exact ⟨k, ahead, fun rule => by rw [rule] at modifier; exact nomatch modifier⟩
  refine (any.restrict keyword).then fun _ _ _ => ?_
  exact .eat rfl (.pure trivial) fun _ _ _ => arguments.at.then fun _ _ _ =>
    .demand rfl (.pure trivial)

theorem tooDeep_always : L.Always tooDeep tooDeep L.exprs := by
  refine .failing (fun s _ same => ?_) fun exact => ?_
  · have later := (Parser.forward skipToSyncPoint s).errors.length_le
    rw [tooDeep, run_bind, run_spanAhead] at same
    have all : (skipToSyncPoint.run s).2.errors ++ [_] = s.errors := same
    have length := congrArg List.length all
    rw [List.length_append, List.length_singleton] at length
    omega
  refine .spanAhead fun a a' start => (skipToSyncPoint_exact exact).then fun _ _ _ =>
    .lastStop fun n n' stop => ?_
  have span : L.spans ⟨a.start, max n a.start⟩ ⟨a'.start, max n' a'.start⟩ :=
    .mk start.start (L.ends stop start.start)
  have error : L.exprs (.error ⟨a.start, max n a.start⟩) (.error ⟨a'.start, max n' a'.start⟩) :=
    congrArg Expr.error span
  have alike : (Act.panic ⟨.nestingTooDeep, ⟨a.start, max n a.start⟩⟩).Alike L.exact L.left L.right
      (.panic ⟨.nestingTooDeep, ⟨a'.start, max n' a'.start⟩⟩) :=
    .panic fun _ => congrArg (SyntaxError.mk .nestingTooDeep) span
  exact .act (fun _ _ => rfl) (fun _ => rfl) alike (fun _ _ => trivial) fun _ _ _ => error

end Lockstep

end RuleDesk
