import RuleDesk.Proofs.Parsing.Modes
import RuleDesk.Proofs.Parsing.Reading
import RuleDesk.Proofs.Parsing.Spans

namespace RuleDesk

/-- Kinds of tokens that start an item of the top level. -/
def Kind.opensItem : Kind → Bool
  | .keyword w =>
    w == .kwRule || w == .kwImport || w == .kwInclude || w == .kwPrivate || w == .kwGlobal
  | _ => false

/-- The spans in the condition of a rule. -/
def Rule.conditionSpans (r : Rule) : List Span := r.condition.elim [] Expr.spans

/-- How far the condition of a rule may reach. In a rule with its closing brace
it lies inside of the rule. A rule without one ends before the next item, or at
the end of the text. Its condition may then reach over the first token of this
item, which was looked at and not read. -/
inductive Rule.Covers (text : List Char) (r : Rule) : Prop
  | closed {rbrace : Span} (brace : r.rbrace = some rbrace) (stop : rbrace.stop = r.span.stop)
      (within : AllLie r.span.start r.span.stop r.conditionSpans)
  | cut {c : Cursor} (brace : r.rbrace = none) (reaches : (Cursor.start text).Reaches c)
      (stop : c.offset = r.span.stop)
      (item : ∀ t after, c.nextSolid? = some (t, after) → t.kind.opensItem)
      (within : AllLie r.span.start c.reach r.conditionSpans)

theorem ParseState.next?_wide {s : ParseState} {t : Token} (h : s.next? = some t) :
    t.start < t.stop := by
  obtain ⟨after, ahead⟩ := next?_eq_some h
  have length := List.length_pos_iff.mpr (Cursor.nextSolid?_nonempty (s.input.ahead_eq ▸ ahead))
  exact Nat.lt_add_of_pos_right (Nat.lt_of_lt_of_le length (length_le_byteLength t.text))

namespace Parser

theorem startsItem_opens {k : Kind} {beyond : Option Kind} (h : startsItem (some k) beyond) :
    k.opensItem := by
  cases k with
  | keyword w =>
    simp only [startsItem, Bool.or_eq_true, Bool.and_eq_true] at h
    simp only [Kind.opensItem, Bool.or_eq_true]
    exact h.elim (fun first => .inl (.inl first)) fun second =>
      second.1.elim (fun p => .inl (.inr p)) .inr
  | _ => cases h

/-! ### The condition inside of its rule -/

variable {low : Nat} {known : List Span}

theorem sectionContent_stays (kind : SectionKind) (duplicate : Bool) (r : Rule) :
    Stays low (r.conditionSpans ++ known) (sectionContent kind duplicate r)
      Rule.conditionSpans := by
  cases kind with
  | metas => exact .skip fun _ => .pure fun _ held => (allLie_append.mp held).1
  | strings => exact .skip fun _ => .pure fun _ held => (allLie_append.mp held).1
  | condition =>
    refine expression_stays.bind fun e => .pure fun high held => ?_
    simp only [allLie_append] at held
    cases duplicate with
    | true => exact held.2.1
    | false => exact held.1

theorem ruleSection_stays (kind : SectionKind) (r : Rule) :
    Stays low (r.conditionSpans ++ known) (ruleSection kind r) Rule.conditionSpans := by
  refine .skip fun o => ?_
  cases o with
  | none => exact .pure fun _ held => (allLie_append.mp held).1
  | some keyword =>
    refine .skip fun head => (sectionContent_stays kind _ r).bind fun q => .skip fun stop => ?_
    exact .pure fun _ held => (allLie_append.mp held).1

/-- What a section leaves as it is. -/
theorem ruleSection_keeps (kind : SectionKind) (r : Rule) :
    (ruleSection kind r).Gives fun q => q.ident = r.ident ∧ q.rbrace = r.rbrace := by
  have content : ∀ duplicate, (sectionContent kind duplicate r).Gives fun q => q.ident = r.ident ∧
      q.rbrace = r.rbrace := by
    intro duplicate
    cases kind with
    | metas | strings => exact .bind fun _ => .pure ⟨rfl, rfl⟩
    | condition =>
      refine .bind fun e => .pure ?_
      cases duplicate <;> exact ⟨rfl, rfl⟩
  refine .bind fun o => ?_
  cases o with
  | none => exact .pure ⟨rfl, rfl⟩
  | some keyword =>
    exact .bind fun head => (content _).after fun q keeps => .bind fun stop => .pure keeps

/-- A rule that is being read, from the offset `low` on. -/
structure Open (low : Nat) (r : Rule) (s : ParseState) : Prop where
  name : r.ident.span.Lies low s.input.here.offset
  condition : AllLie low s.reach r.conditionSpans
  brace : r.rbrace = none

/-- A rule that ends where the parse has come to. -/
structure Over (low : Nat) (r : Rule) (s : ParseState) : Prop where
  name : r.ident.span.Lies low s.input.here.offset
  ends : (∃ rbrace, r.rbrace = some rbrace ∧ rbrace.stop = s.input.here.offset ∧
      AllLie low s.input.here.offset r.conditionSpans) ∨
    (r.rbrace = none ∧ s.errors ≠ [] ∧ (∀ t, s.next? = some t → t.kind.opensItem) ∧
    AllLie low s.reach r.conditionSpans)

theorem Open.low_le {r : Rule} {s : ParseState} (h : Open low r s) : low ≤ s.input.here.offset :=
  Nat.le_trans h.name.start h.name.begun

theorem Open.later {r : Rule} {s t : ParseState} (h : Open low r s) (step : s.Before t) :
    Open low r t :=
  ⟨h.name.raise step.here_le, h.condition.raise step.reach_le, h.brace⟩

/-- A rule is cut off with an error. -/
theorem Open.cut {r : Rule} {s : ParseState} (h : Open low r s)
    (item : ∀ t, s.next? = some t → t.kind.opensItem)
    (e : SyntaxError) : Over low r (s.reported e) :=
  ⟨h.name, .inr ⟨h.brace, s.reported_ne_nil e, item, h.condition⟩⟩

theorem Open.closed {r : Rule} {s : ParseState} {t : Token} (h : Open low r s)
    (next : s.next? = some t) :
    Over low { r with rbrace := some t.span } (s.advanced .normal) := by
  have here := ParseState.advanced_here next .normal
  have longer := ParseState.next?_start next
  refine ⟨?_, .inl ⟨t.span, rfl, here.symm, ?_⟩⟩
  · exact h.name.raise (here ▸ Nat.le_trans longer (Nat.le_add_right _ _))
  · rw [here, ← ParseState.reach_of_next next]
    exact h.condition

theorem Open.afterSection {r : Rule} {s : ParseState} (h : Open low r s) (kind : SectionKind) :
    Open low ((ruleSection kind r).run s).1 ((ruleSection kind r).run s).2 := by
  have step := (ruleSection kind r).forward s
  obtain ⟨ident, brace⟩ := ruleSection_keeps kind r s
  refine ⟨ident ▸ h.name.raise step.here_le, ?_, brace.trans h.brace⟩
  have stays : Stays low (r.conditionSpans ++ []) (ruleSection kind r) Rule.conditionSpans :=
    ruleSection_stays kind r
  exact stays s h.low_le (allLie_append.mpr ⟨h.condition, allLie_nil⟩)

theorem bodyStep_spans (r : Rule) :
    Ensures (Open low r) (bodyStep r) (Ensures.round (Open low) (Over low)) := by
  intro s start
  rw [bodyStep, run_bind, run_peek]
  cases next : s.next? with
  | none => exact start.cut (fun t found => nomatch next.symm.trans found) _
  | some t =>
    dsimp only
    rw [run_ite]
    split
    · rw [run_bind, run_advance]
      exact start.closed next
    split
    · rename_i kind _
      exact (start.later ((setPanicking false).forward s)).afterSection kind
    · rw [run_bind, run_atTopLevelItem, ParseState.kindAhead?_of_next next, run_ite]
      split
      · rename_i item
        refine start.cut (fun u found => ?_) _
        obtain rfl : t = u := Option.some.inj (next.symm.trans found)
        exact startsItem_opens item
      · exact start.later ((unexpected .ruleSection >>= fun _ => advance).forward s)

theorem eat_lies (k : Kind) : Ensures (low ≤ ·.input.here.offset) (eat k) fun o s =>
    low ≤ s.input.here.offset ∧ ∀ t ∈ o, t.span.Lies low s.input.here.offset := by
  intro s start
  rw [run_eat]
  split
  · rename_i ahead
    obtain ⟨t, next, _⟩ := ParseState.kindAhead?_eq_some ahead
    have place := Nat.le_trans start (ParseState.next?_start next)
    have ordered : t.start ≤ t.stop := Nat.le_add_right _ _
    simp only [next, ParseState.advanced_here next]
    refine ⟨Nat.le_trans place ordered, fun u same => ?_⟩
    obtain rfl := Option.some.inj same
    exact ⟨place, ordered, Nat.le_refl _⟩
  · exact ⟨start, nofun⟩

theorem ruleName_spans : Ensures (low ≤ ·.input.here.offset) ruleName fun i s =>
    i.span.Lies low s.input.here.offset := by
  refine (eat_lies .ident).bind fun o => ?_
  cases o with
  | some t => exact .pure fun s start => start.2 t rfl
  | none =>
    refine (Ensures.keeps fun s t step start => ⟨Nat.le_trans start.1 step.here_le, nofun⟩).bind
      fun _ s start => ?_
    exact ⟨start.1, Nat.le_refl _, Nat.le_refl _⟩

theorem ruleHead_spans (flags : RuleFlags) :
    Ensures (low ≤ ·.input.here.offset) (ruleHead flags) (Open low) := by
  have raise : ∀ {i : Ident} (s t : ParseState), s.Before t → i.span.Lies low s.input.here.offset →
      i.span.Lies low t.input.here.offset := fun s t step lies => lies.raise step.here_le
  refine ruleName_spans.bind fun ident => (Ensures.keeps raise).bind fun tags =>
    (Ensures.keeps raise).bind fun lbrace => ?_
  exact .pure fun s name => ⟨name, allLie_nil, rfl⟩

theorem Over.reported {r : Rule} {s : ParseState} (h : Over low r s) (e : SyntaxError) :
    Over low r (s.reported e) := by
  refine ⟨h.name, h.ends.imp_right fun ⟨brace, _, rest⟩ => ⟨brace, s.reported_ne_nil e, rest⟩⟩

theorem ruleStop_spans (r : Rule) :
    Ensures (Over low r) (ruleStop r) fun n s => Over low r s ∧ n = s.input.here.offset := by
  intro s finished
  unfold ruleStop
  rcases finished.ends with ⟨rbrace, brace, stop, _⟩ | ⟨brace, _⟩
  · rw [brace]
    exact ⟨finished, stop⟩
  · rw [brace]
    exact ⟨finished, rfl⟩

/-- A rule stops where it was read to. -/
theorem ruleAfterKeyword_spans (flags : RuleFlags) :
    Ensures (low ≤ ·.input.here.offset) (ruleAfterKeyword low flags)
    fun r s => Over low r s ∧ r.span = ⟨low, s.input.here.offset⟩ := by
  refine (ruleHead_spans flags).bind fun head =>
    (Ensures.iterate bodyStep_progress bodyStep_spans head).bind fun r => ?_
  refine (ruleStop_spans r).bind fun stop => ?_
  split
  · rintro s ⟨finished, rfl⟩
    have missing := finished.reported ⟨.missingCondition r.ident.name, r.ident.span⟩
    exact ⟨⟨missing.name, missing.ends⟩, rfl⟩
  · rintro s ⟨finished, rfl⟩
    exact ⟨⟨finished.name, finished.ends⟩, rfl⟩

end Parser

/-! ### The rules of a text -/

/-- A rule in its place in a text. It has a text of its own, and its name and
its condition lie inside of it. -/
structure Rule.Placed (text : List Char) (r : Rule) : Prop where
  nonempty : r.span.start < r.span.stop
  name : r.ident.span.Lies r.span.start r.span.stop
  covers : r.Covers text

/-- Rules one behind the other, before the place that the parse has come to. -/
structure RulesPlaced (text : List Char) (rules : List Rule) (s : ParseState) : Prop where
  reached : (Cursor.start text).Reaches s.input.here
  placed : ∀ r ∈ rules, r.Placed text
  before : ∀ r ∈ rules, r.span.stop ≤ s.input.here.offset
  closed : s.errors = [] → ∀ r ∈ rules, r.rbrace.isSome
  ordered : rules.Pairwise fun r q => r.span.stop ≤ q.span.start

namespace RulesPlaced

variable {text : List Char} {rules : List Rule} {s t : ParseState}

theorem later (h : RulesPlaced text rules s) (step : s.Before t) : RulesPlaced text rules t where
  reached := h.reached.trans step.reaches
  placed := h.placed
  before r member := Nat.le_trans (h.before r member) step.here_le
  closed clean := h.closed (step.no_errors clean)
  ordered := h.ordered

theorem add (h : RulesPlaced text rules s) (step : s.Before t) {r : Rule} (placed : r.Placed text)
    (start : s.input.here.offset ≤ r.span.start) (stop : r.span.stop ≤ t.input.here.offset)
    (closed : t.errors = [] → r.rbrace.isSome) : RulesPlaced text (rules ++ [r]) t where
  reached := h.reached.trans step.reaches
  placed := List.forall_mem_append.mpr ⟨h.placed, List.forall_mem_singleton.mpr placed⟩
  before := List.forall_mem_append.mpr ⟨(h.later step).before, List.forall_mem_singleton.mpr stop⟩
  closed clean := List.forall_mem_append.mpr
    ⟨(h.later step).closed clean, List.forall_mem_singleton.mpr (closed clean)⟩
  ordered := by
    refine List.pairwise_append.mpr ⟨h.ordered, List.pairwise_singleton _ _, fun q member => ?_⟩
    exact List.forall_mem_singleton.mpr (Nat.le_trans (h.before q member) start)

end RulesPlaced

namespace Parser

variable {text : List Char}

theorem Over.closed {low : Nat} {r : Rule} {s : ParseState} (finished : Over low r s)
    (clean : s.errors = []) : r.rbrace.isSome := by
  rcases finished.ends with ⟨rbrace, brace, _⟩ | ⟨_, dirty, _⟩
  · rw [brace]
    rfl
  · exact absurd clean dirty

theorem Over.placed {low : Nat} {r : Rule} {s : ParseState} (finished : Over low r s)
    (span : r.span = ⟨low, s.input.here.offset⟩)
    (reached : (Cursor.start text).Reaches s.input.here) (nonempty : low < s.input.here.offset) :
    r.Placed text := by
  have start : r.span.start = low := congrArg Span.start span
  have stop : r.span.stop = s.input.here.offset := congrArg Span.stop span
  refine ⟨start ▸ stop ▸ nonempty, start ▸ stop ▸ finished.name, ?_⟩
  rcases finished.ends with ⟨rbrace, brace, ends, within⟩ | ⟨brace, _, item, within⟩
  · exact .closed brace (ends.trans stop.symm) (by rw [start, stop]; exact within)
  · refine .cut brace reached stop.symm (fun t after next => item t ?_)
      (by rw [start]; exact within)
    rw [ParseState.next?, s.input.ahead_eq, next]
    rfl

/-- A rule starts at the next token, and that is read before its name. -/
theorem ruleItem_after {P : Nat → Rule → ParseState → Prop}
    (rule : ∀ start flags, Ensures (start < ·.input.here.offset) (ruleAfterKeyword start flags)
    (P start)) (s : ParseState) :
    ∀ r ∈ (ruleItem.run s).1, ∃ start, s.input.here.offset ≤ start ∧
      start < (ruleItem.run s).2.input.here.offset ∧ P start r (ruleItem.run s).2 := by
  rw [ruleItem, run_bind, run_peek]
  cases next : s.next? with
  | none => exact fun _ member => by cases member
  | some t =>
    dsimp only
    rw [run_bind]
    have flags := (iterate flagStep ⟨false, false⟩).forward s
    generalize (iterate flagStep ⟨false, false⟩).run s = entry at flags ⊢
    obtain ⟨flags', u⟩ := entry
    rw [run_bind]
    have keyword := (expect (.keyword .kwRule)).forward u
    have taken : (((expect (.keyword .kwRule)).run u).1.isSome →
      ((expect (.keyword .kwRule)).run u).2.unread < u.unread) :=
      (expect_consumes _ : Consumes anywhere _ _) u trivial
    generalize (expect (.keyword .kwRule)).run u = entry at keyword taken ⊢
    obtain ⟨o, v⟩ := entry
    cases o with
    | none => exact fun _ member => by cases member
    | some k =>
      -- The first token of the rule is a modifier or its keyword. Both are read.
      have read :=
        (flags.trans keyword).stop_le next (Nat.lt_of_lt_of_le (taken rfl) flags.unread_le)
      have behind : t.start < v.input.here.offset :=
        Nat.lt_of_lt_of_le (ParseState.next?_wide next) read
      have body := ((ruleAfterKeyword t.start flags').forward v).here_le
      rintro _ ⟨⟩
      exact ⟨t.start, ParseState.next?_start next, Nat.lt_of_lt_of_le behind body,
        rule t.start flags' v behind⟩

/-- A rule starts at the next token, and it stops where it was read to. -/
theorem ruleItem_placed {s : ParseState} (reached : (Cursor.start text).Reaches s.input.here) :
    ∀ r ∈ (ruleItem.run s).1, r.Placed text ∧ s.input.here.offset ≤ r.span.start ∧
      r.span.stop = (ruleItem.run s).2.input.here.offset ∧
        ((ruleItem.run s).2.errors = [] → r.rbrace.isSome) := by
  intro r member
  have rule : ∀ start flags, Ensures (start < ·.input.here.offset) (ruleAfterKeyword start flags)
      fun r s => Over start r s ∧ r.span = ⟨start, s.input.here.offset⟩ :=
    fun start flags s behind => ruleAfterKeyword_spans flags s (Nat.le_of_lt behind)
  obtain ⟨start, behind, nonempty, finished, span⟩ := ruleItem_after rule s r member
  have placed := finished.placed span (reached.trans (ruleItem.forward s).reaches) nonempty
  rw [span]
  exact ⟨placed, behind, rfl, finished.closed⟩

theorem itemStep_placed (items : Items) : Ensures (RulesPlaced text items.rules) (itemStep items)
    (Ensures.round (fun items => RulesPlaced text items.rules) fun items =>
      RulesPlaced text items.rules) := by
  intro s placed
  rw [itemStep, run_bind, run_peekKind]
  split
  · exact placed
  · exact placed.later ((do setPanicking false; importItem).forward s)
  · exact placed.later ((do setPanicking false; includeItem).forward s)
  · rw [run_ite]
    split
    · have step := (do setPanicking false; ruleItem).forward s
      have rule := ruleItem_placed (s := ((setPanicking false).run s).2) placed.reached
      rw [run_bind, run_bind]
      rw [run_bind] at step
      generalize ruleItem.run ((setPanicking false).run s).2 = entry at step rule ⊢
      obtain ⟨o, t⟩ := entry
      cases o with
      | none =>
        show RulesPlaced text (items.rules ++ []) t
        rw [List.append_nil]
        exact placed.later step
      | some r =>
        obtain ⟨whole, start, stop, closed⟩ := rule r rfl
        exact placed.add step whole start (Nat.le_of_eq stop) closed
    · exact placed.later ((do unexpected .topLevelItem; let _ ← advance).forward s)

end Parser

/-- The rules of a text stand in it one behind the other. -/
theorem parse_places_rules (text : List Char) :
    RulesPlaced text (parse text).rules (finalState text) :=
  Parser.Ensures.iterate Parser.itemStep_progress Parser.itemStep_placed ⟨[], [], []⟩
    (Parser.initial text)
    { reached := .refl _, placed := nofun, before := nofun, closed := fun _ => nofun, ordered := .nil }

/-- In every text, malformed or not, the whole condition of a rule that has its
closing brace lies inside of the rule. The condition of a rule that is cut off,
which is an error, starts inside of it and reaches at most over the first token
behind it, where the next item starts. -/
theorem condition_covered (text : List Char) (r : Rule) (member : r ∈ (parse text).rules) :
    r.Covers text ∧ ((parse text).errors = [] → r.rbrace.isSome) :=
  have placed := parse_places_rules text
  ⟨(placed.placed r member).covers, fun clean => placed.closed clean r member⟩

def cutRule : List Char := "rule a \x7b condition: rule b \x7b condition: true \x7d".toList

/-- The condition of the first rule is an error behind the end of the rule. -/
theorem condition_covered_cutRule :
    (parse cutRule).rules.map (fun r => (r.span, r.conditionSpans)) =
      [(⟨0, 19⟩, [⟨20, 20⟩]), (⟨20, 46⟩, [⟨40, 44⟩])] ∧
      ∃ r ∈ (parse cutRule).rules, r.Covers cutRule ∧
        ((parse cutRule).errors = [] → r.rbrace.isSome) := by
  have two : 0 < (parse cutRule).rules.length := by decide +kernel
  exact ⟨by decide +kernel, _, List.get_mem _ ⟨0, two⟩,
    condition_covered cutRule _ (List.get_mem _ ⟨0, two⟩)⟩

end RuleDesk
