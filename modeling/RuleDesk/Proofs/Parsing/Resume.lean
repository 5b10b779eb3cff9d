import RuleDesk.Proofs.Lexing.Break
import RuleDesk.Proofs.Parsing.Rules

namespace RuleDesk

/-! ## The top level of a text -/

namespace Parser

/-- Between two items of the top level the parse of a text comes to a state,
with the items it has read so far. -/
inductive Comes (text : List Char) : Items → ParseState → Prop
  | start : Comes text ⟨[], [], []⟩ (initial text)
  | item {items items' : Items} {s t : ParseState} (before : Comes text items s)
      (step : (itemStep items).run s = (.yield items', t)) : Comes text items' t

theorem Comes.run {text : List Char} {items : Items} {s : ParseState} (h : Comes text items s) :
    (iterate itemStep ⟨[], [], []⟩).run (initial text) = (iterate itemStep items).run s := by
  induction h with
  | start => rfl
  | item _ step ih => exact ih.trans (run_iterate_yield itemStep_progress step)

/-- The items of one part of a text and those of the part behind it. -/
def Items.append (first second : Items) : Items where
  imports := first.imports ++ second.imports
  includes := first.includes ++ second.includes
  rules := first.rules ++ second.rules

/-- Items that were read are left alone. -/
theorem itemStep_append (first items : Items) (s : ParseState) :
    (itemStep (first.append items)).run s =
      (match ((itemStep items).run s).1 with
        | .done items => .done (first.append items)
        | .yield items => .yield (first.append items), ((itemStep items).run s).2) := by
  simp only [itemStep, run_bind, run_peekKind]
  split
  · rfl
  · simp only [Items.append, run_bind, run_pure, List.append_assoc]
  · simp only [Items.append, run_bind, run_pure, List.append_assoc]
  · simp only [run_ite]
    split
    · simp only [Items.append, run_bind, run_pure, List.append_assoc]
    · rfl

theorem iterate_append (first items : Items) (s : ParseState) :
    (iterate itemStep (first.append items)).run s =
      (first.append ((iterate itemStep items).run s).1, ((iterate itemStep items).run s).2) := by
  simp only [iterate, run_bind, run_look]
  generalize s.input.here.rest.length + 1 = fuel
  induction fuel generalizing items s with
  | zero => rfl
  | succ fuel ih =>
    simp only [iterateIn, run_bind, itemStep_append]
    generalize (itemStep items).run s = r
    obtain ⟨r, t⟩ := r
    cases r with
    | done b => rfl
    | yield b => exact ih b t

/-- Kinds of tokens that modify the rule behind them. -/
def isRuleModifier (k : Kind) : Bool := k == .keyword .kwPrivate || k == .keyword .kwGlobal

/-- The token read last modifies a rule and stands right before the rest. -/
def BehindModifier (s : ParseState) : Prop :=
  ∃ t earlier, s.read = t :: earlier ∧ isRuleModifier t.kind ∧ s.input.here.offset = t.stop

/-- The next token modifies a rule. -/
def AtModifier (s : ParseState) : Prop := ∃ t, s.next? = some t ∧ isRuleModifier t.kind

theorem flagStep_modifier (flags : RuleFlags) (s : ParseState) :
    ((flagStep flags).run s).2 = s ∨ AtModifier s ∧ BehindModifier ((flagStep flags).run s).2 := by
  have taken : ∀ t : Token, s.next? = some t → isRuleModifier t.kind → ∀ u : ParseState,
      u.read = (s.advanced .normal).read → u.input = (s.advanced .normal).input → AtModifier s ∧
        BehindModifier u := by
    intro t next modifier u read input
    obtain ⟨after, ahead⟩ := ParseState.next?_eq_some next
    refine ⟨⟨t, next, modifier⟩, t, s.read, read.trans (ParseState.advanced_read next .normal),
      modifier, ?_⟩
    rw [input, ParseState.advanced, ahead]
    exact (Input.ahead_place ahead).2.1
  rw [flagStep, run_bind, run_peek]
  cases next : s.next? with
  | none => exact .inl rfl
  | some t =>
    dsimp only
    rw [run_ite, run_ite]
    split
    · rename_i kind
      refine .inr (taken t next (kind ▸ rfl) _ ?_ ?_) <;> simp only [run_bind, run_advance]
        <;> split <;> rfl
    split
    · rename_i kind
      refine .inr (taken t next (kind ▸ rfl) _ ?_ ?_) <;> simp only [run_bind, run_advance]
        <;> split <;> rfl
    · exact .inl rfl

/-- Where modifiers of a rule are read, the last token read is one of them. -/
theorem behindFlags_modifier (s : ParseState) :
    Lockstep.behindFlags s = s ∨ AtModifier s ∧ BehindModifier (Lockstep.behindFlags s) := by
  have loop : ∀ (fuel : Nat) (flags : RuleFlags) (u : ParseState),
      (u = s ∨ AtModifier s ∧ BehindModifier u) → ((iterateIn flagStep fuel flags).run u).2 = s ∨
        AtModifier s ∧ BehindModifier ((iterateIn flagStep fuel flags).run u).2 := by
    intro fuel
    induction fuel with
    | zero => exact fun _ _ so_far => so_far
    | succ fuel ih =>
      intro flags u so_far
      have step : ((flagStep flags).run u).2 = s ∨ AtModifier s ∧
          BehindModifier ((flagStep flags).run u).2 := by
        rcases flagStep_modifier flags u with same | ⟨first, modifier⟩
        · rwa [same]
        · rcases so_far with rfl | ⟨first, _⟩
          · exact .inr ⟨first, modifier⟩
          · exact .inr ⟨first, modifier⟩
      simp only [iterateIn, run_bind]
      generalize (flagStep flags).run u = r at step ⊢
      obtain ⟨r, v⟩ := r
      cases r with
      | done b => exact step
      | yield b => exact ih b v step
  exact loop (s.input.here.rest.length + 1) ⟨false, false⟩ s (.inl rfl)

/-- A rule at its keyword, where no modifiers are before it. -/
theorem itemStep_rule {s : ParseState} {t : Token} (next : s.next? = some t)
    (rule : t.kind = .keyword .kwRule) (items : Items) :
    (itemStep items).run s =
      let result := (ruleAfterKeyword t.start ⟨false, false⟩).run
        (({ s with panicking := false } : ParseState).advanced .normal)
      (.yield { items with rules := items.rules ++ [result.1] }, result.2) := by
  have ahead : s.kindAhead? = some (.keyword .kwRule) := rule ▸ ParseState.kindAhead?_of_next next
  have calm : ({ s with panicking := false } : ParseState).kindAhead? =
      some (.keyword .kwRule) := ahead
  have item : ruleItem.run { s with panicking := false } =
      (some ((ruleAfterKeyword t.start ⟨false, false⟩).run
        (({ s with panicking := false } : ParseState).advanced .normal)).1,
        ((ruleAfterKeyword t.start ⟨false, false⟩).run
          (({ s with panicking := false } : ParseState).advanced .normal)).2) := by
    rw [ruleItem, run_bind, run_peek, show ({ s with panicking := false } : ParseState).next? =
      some t from next]
    dsimp only
    rw [run_bind, run_iterate_done (flagStep_done calm _), run_bind, run_expect calm,
      show ({ s with panicking := false } : ParseState).next? = some t from next]
    rfl
  rw [itemStep, run_bind, run_peekKind, ahead]
  dsimp only
  rw [run_ite, if_pos (.inl rfl), run_bind, run_setPanicking, run_bind, item]
  rfl

end Parser

/-! ## Two texts that start with the same lines -/

section Front

/-- The parses of two texts, each of which is at the same place of a front that
both texts have in common. Behind the front and a line break each text starts
a rule. -/
structure InFront (front text text' : List Char) (c : Cursor) (s s' : ParseState) : Prop where
  single : NoBlockComment c.rest
  place : c.offset + byteLength c.rest = byteLength front
  input : s.input = .at (c.followed ('\n' :: text))
  input' : s'.input = .at (c.followed ('\n' :: text'))
  panicking : s.panicking = s'.panicking
  errors : s.errors = s'.errors

namespace InFront

variable {front text text' : List Char} {c : Cursor} {s s' : ParseState}

theorem symm (h : InFront front text text' c s s') : InFront front text' text c s' s :=
  ⟨h.single, h.place, h.input', h.input, h.panicking.symm, h.errors.symm⟩

variable (starts : StartsWithRule text)

include starts

theorem ahead (h : InFront front text text' c s s') :
    s.input.ahead = match c.nextSolid? with
      | some (t, after) => some (t, after.followed ('\n' :: text))
      | none =>
        some (Cursor.ruleKeyword (byteLength front + 1),
          ⟨.normal, byteLength front + 5, text.drop 4⟩) := by
  rw [h.input, ← h.place]
  exact Cursor.nextSolid?_followed starts c h.single

theorem next? (h : InFront front text text' c s s') :
    s.next? = some ((c.nextSolid?.map (·.1)).getD (Cursor.ruleKeyword (byteLength front + 1))) := by
  rw [ParseState.next?, h.ahead starts]
  cases c.nextSolid? <;> rfl

/-- Before the keyword the next token is one of the front. -/
theorem inside (h : InFront front text text' c s s')
    (before : s.next? ≠ some (Cursor.ruleKeyword (byteLength front + 1))) :
    ∃ t after, c.nextSolid? = some (t, after) ∧
      s.input.ahead = some (t, after.followed ('\n' :: text)) := by
  have ahead := h.ahead starts
  have next := h.next? starts
  cases found : c.nextSolid? with
  | none =>
    rw [found] at next
    exact (before next).elim
  | some entry =>
    obtain ⟨t, after⟩ := entry
    rw [found] at ahead
    exact ⟨t, after, rfl, ahead⟩

/-- At the keyword no token of the front is left. -/
theorem at_end (h : InFront front text text' c s s')
    (next : s.next? = some (Cursor.ruleKeyword (byteLength front + 1))) :
    c.nextSolid? = none := by
  have found := h.next? starts
  rw [next] at found
  cases solid : c.nextSolid? with
  | none => rfl
  | some entry =>
    obtain ⟨t, after⟩ := entry
    obtain ⟨_, stop, taken, split, offset⟩ := Cursor.nextSolid?_place solid
    rw [solid] at found
    have same : Cursor.ruleKeyword (byteLength front + 1) = t := Option.some.inj found
    have far : byteLength front + 1 ≤ t.stop := same ▸ Nat.le_add_right _ _
    have place := h.place
    rw [split, byteLength_append] at place
    omega

theorem second? (h : InFront front text text' c s s') {t : Token} {after : Cursor}
    (found : c.nextSolid? = some (t, after)) :
    s.second? = some
      ((after.nextSolid?.map (·.1)).getD (Cursor.ruleKeyword (byteLength front + 1))) := by
  obtain ⟨_, stop, taken, text, offset⟩ := Cursor.nextSolid?_place found
  have single : NoBlockComment after.rest := h.single.suffix (text ▸ List.suffix_append _ _)
  have place : after.offset + byteLength after.rest = byteLength front := by
    rw [← h.place, text, byteLength_append, offset, Nat.add_assoc]
  rw [ParseState.second?, h.ahead starts, found]
  dsimp only
  rw [Option.bind_some, Cursor.nextSolid?_followed starts after single, place]
  cases after.nextSolid? <;> rfl

/-- Behind a token of the front both parses are in the front, too. -/
theorem advanced (starts' : StartsWithRule text') (h : InFront front text text' c s s') {t : Token}
    {after : Cursor} (found : c.nextSolid? = some (t, after)) (mode : Mode) :
    InFront front text text' (after.enter mode) (s.advanced mode) (s'.advanced mode) := by
  obtain ⟨_, stop, taken, split, offset⟩ := Cursor.nextSolid?_place found
  have ahead := h.ahead starts
  have ahead' := h.symm.ahead starts'
  rw [found] at ahead ahead'
  constructor
  · rw [Cursor.enter_rest]
    exact h.single.suffix (split ▸ List.suffix_append _ _)
  · rw [Cursor.enter_rest, Cursor.enter_offset, ← h.place, split, byteLength_append, offset,
      Nat.add_assoc]
  · rw [ParseState.advanced, ahead, Cursor.enter_followed]
    rfl
  · rw [ParseState.advanced, ahead', Cursor.enter_followed]
    rfl
  · rw [ParseState.advanced_panicking, ParseState.advanced_panicking, h.panicking]
  · rw [ParseState.advanced_errors, ParseState.advanced_errors, h.errors]

end InFront

theorem before_of_kind {s : ParseState} {k : Kind} (ahead : s.kindAhead? = some k)
    (other : k ≠ .keyword .kwRule) (n : Nat) :
    s.next? ≠ some (Cursor.ruleKeyword n) := by
  intro next
  rw [ParseState.kindAhead?_of_next next] at ahead
  exact other (Option.some.inj ahead).symm

theorem InFront.kindBeyond? {front text text' : List Char} {c : Cursor} {s s' : ParseState}
    (starts : StartsWithRule text)
    (starts' : StartsWithRule text') (h : InFront front text text' c s s') {k : Kind}
    (ahead : s.kindAhead? = some k)
    (other : k ≠ .keyword .kwRule) : s.kindBeyond? = s'.kindBeyond? := by
  obtain ⟨t, after, found, _⟩ := h.inside starts (before_of_kind ahead other (byteLength front + 1))
  rw [ParseState.kindBeyond?, ParseState.kindBeyond?, h.second? starts found,
    h.symm.second? starts' found]

/-- In the front the parses of both texts do the same, whatever they are. -/
def inFront {text text' : List Char} (front : List Char) (starts : StartsWithRule text)
    (starts' : StartsWithRule text') :
    Lockstep where
  rel s s' := ∃ c, InFront front text text' c s s'
  parted _ _ := False
  exact := True
  left := .same
  right := .same
  ends := View.same_ends
  exact_keeps _ := View.same_keepsNames
  keeps := View.same_keepsNames
  unnamed := View.same_unnamed
  parted_later parted _ _ := parted
  flawless _ _ := .inl trivial
  calm _ := .inl trivial
  panicking := fun ⟨_, h⟩ => h.panicking
  here := fun ⟨c, h⟩ => by
    rw [h.input, h.input']
    rfl
  textStop := fun ⟨c, h⟩ none => by
    rw [h.next? starts] at none
    cases none
  next := fun ⟨c, h⟩ => by
    rw [h.next? starts, h.symm.next? starts']
    exact Option.rel_alike_refl _
  beyond := fun ⟨_, h⟩ ahead looks =>
    h.kindBeyond? starts starts' ahead (by rintro rfl; cases looks)
  beyondParen := fun ⟨_, h⟩ _ ahead => h.kindBeyond? starts starts' ahead (by decide)
  joined := fun {s s'} ⟨c, h⟩ ahead _ => by
    obtain ⟨t, after, found, _⟩ :=
      h.inside starts (before_of_kind ahead (by decide) (byteLength front + 1))
    rw [ParseState.joined, ParseState.joined, h.second? starts found, h.symm.second? starts' found,
      h.next? starts, h.symm.next? starts']
  adjacentDots := fun ⟨c, h⟩ _ _ => by
    rw [ParseState.adjacent, ParseState.adjacent, h.next? starts, h.symm.next? starts',
      h.input, h.input']
    rfl
  adjacentAsterisk := fun ⟨c, h⟩ _ _ => by
    rw [ParseState.adjacent, ParseState.adjacent, h.next? starts, h.symm.next? starts',
      h.input, h.input']
    rfl
  act := fun {s s' a a'} ⟨c, h⟩ same allowed => by
    refine .inr ?_
    cases same with
    | @report e e' same =>
      obtain rfl : e = e' := by rw [← e.rebase_same, same trivial, e'.rebase_same]
      exact ⟨c, { h with errors := congrArg (· ++ [e]) h.errors }⟩
    | @panic e e' same =>
      obtain rfl : e = e' := by rw [← e.rebase_same, same trivial, e'.rebase_same]
      exact ⟨c, { h with errors := congrArg (· ++ [e]) h.errors, panicking := rfl }⟩
    | calm => exact ⟨c, { h with panicking := rfl }⟩
    | depth n => exact ⟨c, { h with }⟩
    | read =>
      obtain ⟨k, ahead, allowed⟩ := allowed
      have other : k ≠ .keyword .kwRule := by
        rintro rfl
        exact allowed.elim (fun plain => nomatch plain) fun exact => exact.2 rfl
      obtain ⟨t, after, found, _⟩ :=
        h.inside starts (before_of_kind ahead other (byteLength front + 1))
      exact ⟨_, h.advanced starts starts' found .normal⟩
    | enter mode =>
      have plain : s.next? ≠ some (Cursor.ruleKeyword (byteLength front + 1)) := by
        cases mode with
        | normal => exact allowed.elim
        | hex => exact before_of_kind allowed.1 (by decide) _
        | jump => exact before_of_kind allowed (by decide) _
      obtain ⟨t, after, found, _⟩ := h.inside starts plain
      exact ⟨_, h.advanced starts starts' found mode⟩

/-- The last token of the front that is read modifies a rule. -/
def EndsInModifier (front text : List Char) : Prop :=
  ((Parser.sourceFile.run (Parser.initial (front ++ '\n' :: text))).2.read.find?
    (·.stop ≤ byteLength front)).any (Parser.isRuleModifier ·.kind) = true

instance (front text : List Char) : Decidable (EndsInModifier front text) :=
  inferInstanceAs (Decidable (_ = _))

/-- Tokens behind the front are no tokens of it. -/
theorem endsInModifier_of {front text : List Char} {s : ParseState}
    (modifier : Parser.BehindModifier s)
    (inside : s.input.here.offset ≤ byteLength front)
    (next : s.next? = some (Cursor.ruleKeyword (byteLength front + 1)))
    (before : s.Before (Parser.sourceFile.run (Parser.initial (front ++ '\n' :: text))).2) :
    EndsInModifier front text := by
  obtain ⟨t, earlier, read, kind, stop⟩ := modifier
  have last : s.read.find? (·.stop ≤ byteLength front) = some t := by
    rw [read]
    exact List.find?_cons_of_pos (p := fun t : Token => decide (t.stop ≤ byteLength front))
      (decide_eq_true (stop ▸ inside))
  rw [EndsInModifier]
  rcases before.reads with ⟨_, same⟩ | @⟨u, _, later, ahead, _, all, ordered⟩
  · rw [same, last]
    exact kind
  · rw [ParseState.next?, ahead] at next
    obtain rfl : u = Cursor.ruleKeyword (byteLength front + 1) := Option.some.inj next
    have behind : byteLength front < (Cursor.ruleKeyword (byteLength front + 1)).stop :=
      Nat.lt_of_lt_of_le (Nat.lt_succ_self _) (Nat.le_add_right _ _)
    have none : later.find? (fun w => decide (w.stop ≤ byteLength front)) = none := by
      refine List.find?_eq_none.mpr fun w member => ?_
      have start : w.start ≤ w.stop := Nat.le_add_right _ _
      have far := ordered w member
      simp only [decide_eq_true_eq]
      omega
    rw [all, List.find?_append, none, Option.none_or,
      List.find?_cons_of_neg (by simpa using behind), last]
    exact kind

theorem iterate_before {α : Type} {step : α → Parser (ForInStep α)} {a : α} {s u : ParseState}
    (h : u.Before ((step a).run s).2) : u.Before ((Parser.iterate step a).run s).2 := by
  refine h.trans ?_
  simp only [Parser.iterate, Parser.run_bind, Parser.run_look, Parser.iterateIn]
  exact Parser.forward _ _

theorem behindFlags_before {s : ParseState} (modifier : Parser.AtModifier s)
    (items : Parser.Items) :
    (Lockstep.behindFlags { s with panicking := false }).Before
    ((Parser.itemStep items).run s).2 := by
  obtain ⟨t, next, kind⟩ := modifier
  have starts : t.kind = .keyword .kwRule ∨ t.kind = .keyword .kwPrivate ∨
    t.kind = .keyword .kwGlobal :=
    .inr (by simpa [Parser.isRuleModifier] using kind)
  have item : ((Parser.itemStep items).run s).2 =
      (Parser.ruleItem.run { s with panicking := false }).2 := by
    rw [Parser.itemStep, Parser.run_bind, Parser.run_peekKind, ParseState.kindAhead?_of_next next]
    rcases starts with kind | kind | kind <;> rw [kind] <;> rfl
  rw [item, Parser.ruleItem, Parser.run_bind, Parser.run_peek,
    show ({ s with panicking := false } : ParseState).next? = some t from next]
  dsimp only
  rw [Parser.run_bind]
  exact Parser.forward _ _

/-- Where a rule starts in the front or something else does, its keyword is one
of the front, unless the front ends in a modifier. -/
theorem inFront_keywordAt {front text text' : List Char} (starts : StartsWithRule text)
    (starts' : StartsWithRule text')
    (plain : ¬ EndsInModifier front text) {items : Parser.Items} {s : ParseState}
    (comes : Parser.Comes (front ++ '\n' :: text) items s)
    (before : s.next? ≠ some (Cursor.ruleKeyword (byteLength front + 1))) :
    (inFront front starts starts').KeywordAt { s with panicking := false } := by
  refine Lockstep.keywordAt_of fun s' related ahead => .inr ?_
  obtain ⟨c, h⟩ := related
  have before : (Lockstep.behindFlags { s with panicking := false }).next? ≠
      some (Cursor.ruleKeyword (byteLength front + 1)) := by
    intro last
    rcases Parser.behindFlags_modifier { s with panicking := false } with same | ⟨first, modifier⟩
    · rw [same] at last
      exact before last
    · refine plain (endsInModifier_of modifier ?_ last ?_)
      · rw [h.input, ← h.place]
        exact Nat.le_add_right _ _
      · have later := iterate_before (behindFlags_before (s := s) first items)
        rw [← comes.run] at later
        exact later
  obtain ⟨t, after, found, _⟩ := h.inside starts before
  exact ⟨_, h.advanced starts starts' found .normal⟩

theorem Items.eq_of_alike {L : Lockstep} (left : L.left = .same) (right : L.right = .same)
    {items items' : Parser.Items} (h : L.ItemsAlike items items') : items = items' := by
  obtain ⟨imports, includes, rules⟩ := h
  rw [left, right] at imports includes rules
  have imports :=
    (map_rebase_same (fun _ => rfl : ∀ i : Import, i.rebase .same = i) items.imports) ▸
    (map_rebase_same (fun _ => rfl : ∀ i : Import, i.rebase .same = i) items'.imports) ▸ imports
  have includes :=
    (map_rebase_same (fun _ => rfl : ∀ i : Include, i.rebase .same = i) items.includes) ▸
    (map_rebase_same (fun _ => rfl : ∀ i : Include, i.rebase .same = i) items'.includes) ▸ includes
  have rules := (map_rebase_same Rule.rebase_same items.rules) ▸
    (map_rebase_same Rule.rebase_same items'.rules) ▸ rules
  obtain ⟨_, _, _⟩ := items
  cases imports
  cases includes
  cases rules
  rfl

/-- The parses of all texts with a front have come to the same place of it,
with the same items and the same errors. -/
def Together (front text : List Char) (items : Parser.Items) (s : ParseState) : Prop :=
  Parser.Comes (front ++ '\n' :: text) items s ∧ ∀ text', StartsWithRule text' →
    ∃ s' c, Parser.Comes (front ++ '\n' :: text') items s' ∧ InFront front text text' c s s'

theorem together_start {front : List Char} (single : NoBlockComment front) (text : List Char) :
    Together front text ⟨[], [], []⟩ (Parser.initial (front ++ '\n' :: text)) :=
  ⟨.start, fun _ _ => ⟨_, .start front, .start, ⟨single, Nat.zero_add _, rfl, rfl, rfl, rfl⟩⟩⟩

/-- Item by item the parses come to the end of the front. -/
theorem Together.arrive {front text : List Char} (starts : StartsWithRule text)
    (plain : ¬ EndsInModifier front text)
    {items : Parser.Items} {s : ParseState} (h : Together front text items s) :
    ∃ items t, Together front text items t ∧
      t.next? = some (Cursor.ruleKeyword (byteLength front + 1)) := by
  induction size : s.unread using Nat.strongRecOn generalizing items s with
  | _ size ih =>
    by_cases arrived : s.next? = some (Cursor.ruleKeyword (byteLength front + 1))
    · exact ⟨items, s, h, arrived⟩
    obtain ⟨comes, others⟩ := h
    have more : s.next? ≠ none := by
      obtain ⟨_, c, _, inside⟩ := others text starts
      rw [inside.next? starts]
      exact nofun
    have progress := Parser.itemStep_progress items s trivial
    cases step : (Parser.itemStep items).run s with
    | mk r t =>
      rw [step] at progress
      cases r with
      | done items' => exact (more (Parser.itemStep_done step).1).elim
      | yield items' =>
        refine ih t.unread (size ▸ progress ⟨items', rfl⟩)
          ⟨.item comes step, fun text' starts' => ?_⟩ rfl
        obtain ⟨s', c, comes', inside⟩ := others text' starts'
        have keyword := inFront_keywordAt starts starts' plain comes arrived
        have same : (inFront front starts starts').ItemsAlike items items := ⟨rfl, rfl, rfl⟩
        have arguments : (inFront front starts starts').TakesArguments :=
          Lockstep.takesArguments_of (Lockstep.advance_exact trivial)
        have follows := Lockstep.itemStep_when arguments keyword same s s' ⟨c, inside⟩ rfl
          fun q _ => Lockstep.distinctNames_of_exact trivial q
        rcases follows with parted | ⟨alike, c', inside'⟩
        · exact parted.elim
        · rw [step] at alike inside'
          generalize step' : (Parser.itemStep items).run s' = r' at alike inside'
          obtain ⟨r', t'⟩ := r'
          cases alike with
          | yield alike =>
            obtain rfl := Items.eq_of_alike rfl rfl alike
            exact ⟨t', c', .item comes' step', inside'⟩

end Front

/-! ## The same text further down -/

def Token.shifted (n : Nat) (t : Token) : Token := { t with start := t.start + n }

def Cursor.shifted (n : Nat) (c : Cursor) : Cursor := { c with offset := c.offset + n }

def SourceFile.shifted (n : Nat) (file : SourceFile) : SourceFile := file.rebase (.of (· + n))

section Shifted

variable (n : Nat)

theorem Token.shifted_start (t : Token) : (t.shifted n).start = t.start + n := rfl

theorem Token.shifted_stop (t : Token) : (t.shifted n).stop = t.stop + n := Nat.add_right_comm _ _ _

theorem Token.shifted_alike {exact : Prop} (t : Token) :
    t.Alike exact (.of (· + n)) .same (t.shifted n) := by
  refine ⟨rfl, ?_, fun _ => rfl, fun _ _ => rfl⟩
  exact congrArg (Span.mk (t.start + n)) (t.shifted_stop n).symm

theorem Cursor.enter_shifted (c : Cursor) (mode : Mode) :
    (c.enter mode).shifted n = (c.shifted n).enter mode := by
  cases mode with
  | normal => rfl
  | hex => by_cases normal : c.mode = .normal
    <;> simp only [enter, enterHex, shifted, normal, if_true, if_false]
  | jump => by_cases hex : c.mode = .hex
    <;> simp only [enter, enterJump, shifted, hex, if_true, if_false]

theorem Cursor.next?_shifted (c : Cursor) :
    (c.shifted n).next? = c.next?.map fun (t, after) => (t.shifted n, after.shifted n) := by
  unfold next? shifted
  dsimp only
  split
  · rfl
  · simp only [Option.map_some, Token.shifted, Token.stop, Nat.add_right_comm]

theorem Cursor.nextSolid?_shifted (c : Cursor) :
    (c.shifted n).nextSolid? = c.nextSolid?.map fun (t, after) =>
      (t.shifted n, after.shifted n) := by
  refine nextSolid?_induct (motive := fun c o =>
    (c.shifted n).nextSolid? = o.map fun (t, after) => (t.shifted n, after.shifted n)) ?_ ?_ ?_ c
  · intro c read
    exact nextSolid?_of_none (by rw [next?_shifted, read]; rfl)
  · intro c t after read trivia ih
    have read : (c.shifted n).next? = some (t.shifted n, after.shifted n) := by
      rw [next?_shifted, read]; rfl
    exact (nextSolid?_of_trivia read trivia).trans ih
  · intro c t after read meant
    exact nextSolid?_of_solid (by rw [next?_shifted, read]; rfl) meant

/-- Two parses of the same text: the second one further down in a file, behind
some errors. -/
structure Further (before : List SyntaxError) (s s' : ParseState) : Prop where
  input : s'.input = .at (s.input.here.shifted n)
  panicking : s.panicking = s'.panicking
  errors : s'.errors = before ++ s.errors.map (·.rebase (.of (· + n)))

namespace Further

variable {n} {before : List SyntaxError} {s s' : ParseState}

theorem ahead (h : Further n before s s') :
    s'.input.ahead = s.input.ahead.map fun (t, after) => (t.shifted n, after.shifted n) := by
  rw [h.input, s.input.ahead_eq]
  exact Cursor.nextSolid?_shifted n _

theorem next? (h : Further n before s s') : s'.next? = s.next?.map (·.shifted n) := by
  rw [ParseState.next?, h.ahead, ParseState.next?]
  cases s.input.ahead <;> rfl

theorem second? (h : Further n before s s') : s'.second? = s.second?.map (·.shifted n) := by
  rw [ParseState.second?, h.ahead, ParseState.second?]
  cases s.input.ahead with
  | none => rfl
  | some entry =>
    simp only [Option.map_some, Option.bind_some, Cursor.nextSolid?_shifted, Option.map_map,
      Function.comp_def]

theorem kindBeyond? (h : Further n before s s') : s.kindBeyond? = s'.kindBeyond? := by
  rw [ParseState.kindBeyond?, ParseState.kindBeyond?, h.second?, Option.map_map]
  rfl

theorem here (h : Further n before s s') : s'.input.here.offset = s.input.here.offset + n := by
  rw [h.input]
  rfl

theorem adjacent (h : Further n before s s') : s.adjacent = s'.adjacent := by
  rw [ParseState.adjacent, ParseState.adjacent, h.next?, h.here]
  cases s.next? with
  | none => rfl
  | some t => exact Bool.eq_iff_iff.mpr (by simp [Token.shifted])

theorem advanced (h : Further n before s s') (mode : Mode) :
    Further n before (s.advanced mode) (s'.advanced mode) := by
  constructor
  · rw [ParseState.advanced, ParseState.advanced, h.ahead]
    cases s.input.ahead with
    | none => exact h.input
    | some entry => exact congrArg Input.at (Cursor.enter_shifted n entry.2 mode).symm
  · rw [ParseState.advanced_panicking, ParseState.advanced_panicking, h.panicking]
  · rw [ParseState.advanced_errors, ParseState.advanced_errors, h.errors]

end Further

/-- Further down a parse does the same. -/
def further (before : List SyntaxError) : Lockstep where
  rel := Further n before
  parted _ _ := False
  exact := True
  left := .of (· + n)
  right := .same
  ends := View.shifted_ends
  exact_keeps _ := View.of_keepsNames _
  keeps := View.same_keepsNames
  unnamed := View.shifted_unnamed n
  parted_later parted _ _ := parted
  flawless _ _ := .inl trivial
  calm _ := .inl trivial
  panicking h := h.panicking
  here h := h.here.symm
  textStop h _ := by
    rw [ParseState.textStop, ParseState.textStop, h.input]
    exact Nat.add_right_comm _ _ _
  next {s s'} h := by
    rw [h.next?]
    cases s.next? with
    | none => exact .none
    | some t => exact .some (t.shifted_alike n)
  beyond h _ _ := h.kindBeyond?
  beyondParen h _ _ := h.kindBeyond?
  joined {s s'} h _ _ := by
    rw [ParseState.joined, ParseState.joined, h.next?, h.second?]
    cases s.next? with
    | none => rfl
    | some t =>
      cases s.second? with
      | none => rfl
      | some u =>
        refine Bool.eq_iff_iff.mpr ?_
        simp only [Option.map_some, Option.any_some, beq_iff_eq, Token.shifted_stop,
          Token.shifted_start, Nat.add_right_cancel_iff]
  adjacentDots h _ _ := h.adjacent
  adjacentAsterisk h _ _ := h.adjacent
  act {s s' a a'} h same allowed := by
    refine .inr ?_
    cases same with
    | @report e e' same =>
      have same : e.rebase (.of (· + n)) = e' := (same trivial).trans e'.rebase_same
      exact { h with
        errors := by
          show s'.errors ++ [e'] = before ++ (s.errors ++ [e]).map _
          rw [h.errors, List.map_append, List.append_assoc, ← same]
          rfl }
    | @panic e e' same =>
      have same : e.rebase (.of (· + n)) = e' := (same trivial).trans e'.rebase_same
      exact { h with
        panicking := rfl
        errors := by
          show s'.errors ++ [e'] = before ++ (s.errors ++ [e]).map _
          rw [h.errors, List.map_append, List.append_assoc, ← same]
          rfl }
    | calm => exact { h with panicking := rfl }
    | depth => exact { h with }
    | read => exact h.advanced .normal
    | enter mode => exact h.advanced mode

theorem further_takesArguments (before : List SyntaxError) : (further n before).TakesArguments :=
  Lockstep.takesArguments_of (Lockstep.advance_exact trivial)

theorem further_keywordAt (before : List SyntaxError) (s : ParseState) :
    (further n before).KeywordAt s :=
  Lockstep.keywordAt_of fun _ rel _ => .inr (rel.advanced .normal)

end Shifted

/-! ## A rule resumes the parse -/

/-- What one part of a file says, and then what the part behind it says. -/
def SourceFile.append (first second : SourceFile) : SourceFile where
  imports := first.imports ++ second.imports
  includes := first.includes ++ second.includes
  rules := first.rules ++ second.rules
  errors := first.errors ++ second.errors

/-- The items that are read before a parse arrives at a state, and the errors. -/
def Parser.Items.with (items : Items) (errors : List SyntaxError) : SourceFile :=
  ⟨items.imports, items.includes, items.rules, errors⟩

theorem parse_eq (text : List Char) :
    parse text = ((Parser.iterate Parser.itemStep ⟨[], [], []⟩).run (Parser.initial text)).1.with
      ((Parser.iterate Parser.itemStep ⟨[], [], []⟩).run (Parser.initial text)).2.errors := rfl

/-- From the keyword of a rule on a text is parsed as it is parsed alone. -/
theorem resume {text : List Char} (starts : StartsWithRule text) {n : Nat} {items : Parser.Items}
    {s : ParseState}
    (here : (s.input.ahead) = some (Cursor.ruleKeyword n, ⟨.normal, n + 4, text.drop 4⟩)) :
    ((Parser.iterate Parser.itemStep items).run s).1.with
      ((Parser.iterate Parser.itemStep items).run s).2.errors =
      (items.with s.errors).append ((parse text).shifted n) := by
  have next : s.next? = some (Cursor.ruleKeyword n) := by rw [ParseState.next?, here]; rfl
  have first : (Parser.initial text).input.ahead =
    some (Cursor.ruleKeyword 0, ⟨.normal, 4, text.drop 4⟩) :=
    Cursor.nextSolid?_rule starts .normal 0
  have next' : (Parser.initial text).next? = some (Cursor.ruleKeyword 0) := by
    rw [ParseState.next?, first]; rfl
  -- behind its keyword the rule is read in lockstep with the one that starts the text
  have related : Further n s.errors ((Parser.initial text).advanced .normal)
      (({ s with panicking := false } : ParseState).advanced .normal) := by
    constructor
    · simp only [ParseState.advanced, here, first, ParseState.take, Input.at, Cursor.shifted,
        Cursor.enter, Nat.add_comm n 4]
    · simp only [ParseState.advanced_panicking]
      rfl
    · simp only [ParseState.advanced_errors]
      exact (List.append_nil _).symm
  have step :=
    Parser.run_iterate_yield Parser.itemStep_progress (Parser.itemStep_rule next rfl items)
  have step' :=
    Parser.run_iterate_yield Parser.itemStep_progress (Parser.itemStep_rule next' rfl ⟨[], [], []⟩)
  have whole : (further n s.errors).Follows _ _ (Parser.ruleAfterKeyword 0 ⟨false, false⟩)
      (Parser.ruleAfterKeyword n ⟨false, false⟩) (further n s.errors).rules :=
    Lockstep.ruleAfterKeyword_always (further_takesArguments n s.errors)
      (Nat.zero_add n) _ _ _ related trivial (Lockstep.distinctNames_of_exact trivial _)
  obtain ⟨same, rel⟩ := whole.resolve_left id
  rw [parse_eq, step', step]
  have start :
      ({ Parser.initial text with panicking := false } : ParseState) = Parser.initial text := rfl
  rw [start, show (Cursor.ruleKeyword 0).start = 0 from rfl,
    show (Cursor.ruleKeyword n).start = n from rfl]
  generalize (Parser.ruleAfterKeyword 0 ⟨false, false⟩).run _ = r',
    (Parser.ruleAfterKeyword n ⟨false, false⟩).run _ = r at same rel ⊢
  obtain ⟨rule, u⟩ := r
  obtain ⟨rule', u'⟩ := r'
  have one : (further n s.errors).ItemsAlike ⟨[], [], [rule']⟩ ⟨[], [], [rule]⟩ :=
    ⟨rfl, rfl, congrArg ([·]) same⟩
  have split : ({ items with rules := items.rules ++ [rule] } : Parser.Items) =
      items.append ⟨[], [], [rule]⟩ := by
    simp only [Parser.Items.append, List.append_nil]
  have follows := Lockstep.items_always (further_takesArguments n s.errors)
    (further_keywordAt n s.errors) one _ _ rel trivial
    fun q _ => Lockstep.distinctNames_of_exact trivial q
  obtain ⟨⟨imports, includes, rules⟩, rel⟩ := follows.resolve_left id
  dsimp only [List.nil_append]
  rw [split, Parser.iterate_append]
  generalize (Parser.iterate Parser.itemStep ⟨[], [], [rule']⟩).run u' = r',
    (Parser.iterate Parser.itemStep ⟨[], [], [rule]⟩).run u = r at imports includes rules rel ⊢
  have errors := rel.errors
  simp only [Parser.Items.with, Parser.Items.append, SourceFile.append, SourceFile.shifted,
    SourceFile.rebase, errors]
  rw [show r'.1.imports.map (·.rebase (.of (· + n))) = r.1.imports
    from imports.trans (map_rebase_same (fun _ => rfl) _),
    show r'.1.includes.map (·.rebase (.of (· + n))) = r.1.includes
      from includes.trans (map_rebase_same (fun _ => rfl) _),
    show r'.1.rules.map (·.rebase (.of (· + n))) = r.1.rules
      from rules.trans (map_rebase_same Rule.rebase_same _)]

/-- Whatever stands before it, well-formed or not, a line that starts with the
keyword of a rule is where the parse of a file starts afresh: what the file says
is what is read before the keyword, which does not depend on the rest, and then
exactly what the rest says on its own, further down. -/
theorem parse_resumes_at_rule (front : List Char) (single : NoBlockComment front) :
    ∃ before : SourceFile, ∀ text, StartsWithRule text → ¬ EndsInModifier front text →
      (∃ items s, Parser.Comes (front ++ '\n' :: text) items s ∧ items.with s.errors = before ∧
        s.next? = some (Cursor.ruleKeyword (byteLength front + 1))) ∧
      parse (front ++ '\n' :: text) =
        before.append ((parse text).shifted (byteLength front + 1)) := by
  by_cases some_rest : ∃ text, StartsWithRule text ∧ ¬ EndsInModifier front text
  · obtain ⟨text, starts, plain⟩ := some_rest
    obtain ⟨items, s, ⟨_, others⟩, next⟩ := (together_start single text).arrive starts plain
    refine ⟨items.with s.errors, fun text' starts' _ => ?_⟩
    obtain ⟨s', c, comes, inside⟩ := others text' starts'
    have ahead := inside.symm.ahead starts'
    rw [inside.at_end starts next] at ahead
    have next' : s'.next? = some (Cursor.ruleKeyword (byteLength front + 1)) := by
      rw [ParseState.next?, ahead]; rfl
    refine ⟨⟨items, s', comes, congrArg items.with inside.errors.symm, next'⟩, ?_⟩
    rw [parse_eq, comes.run, resume starts' ahead, inside.errors]
  · exact ⟨⟨[], [], [], []⟩, fun text starts plain => (some_rest ⟨text, starts, plain⟩).elim⟩

/-- A rule behind another one whose hex pattern ends inside of a jump. -/
theorem parse_resumes_at_rule_openJump :
    NoBlockComment "rule a \x7b strings: $a = \x7b 41 [2".toList ∧
      StartsWithRule "rule b \x7b condition: $a \x7d".toList ∧
      ¬ EndsInModifier "rule a \x7b strings: $a = \x7b 41 [2".toList
        "rule b \x7b condition: $a \x7d".toList ∧
      ∃ before : SourceFile, parse ("rule a \x7b strings: $a = \x7b 41 [2".toList ++ '\n' ::
        "rule b \x7b condition: $a \x7d".toList) =
        before.append ((parse "rule b \x7b condition: $a \x7d".toList).shifted
          (byteLength "rule a \x7b strings: $a = \x7b 41 [2".toList + 1)) := by
  have single : NoBlockComment "rule a \x7b strings: $a = \x7b 41 [2".toList := by decide +kernel
  have starts : StartsWithRule "rule b \x7b condition: $a \x7d".toList := by decide +kernel
  have plain : ¬ EndsInModifier "rule a \x7b strings: $a = \x7b 41 [2".toList
      "rule b \x7b condition: $a \x7d".toList := by
    decide +kernel
  obtain ⟨before, resumes⟩ := parse_resumes_at_rule _ single
  exact ⟨single, starts, plain, before, (resumes _ starts plain).2⟩

end RuleDesk
