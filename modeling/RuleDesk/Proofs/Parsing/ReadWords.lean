import RuleDesk.Proofs.Parsing.HexRule
import RuleDesk.Proofs.Parsing.PatternWords
import RuleDesk.Proofs.Parsing.Resume

namespace RuleDesk

/-! ## Words that are read one behind the other

At the top level of a text and in the head of a rule the parser looks at the next token only.
What is read there is told by the words, wherever these stand. -/

namespace Cursor

/-! ### The start of a text -/

/-- Places that look at the same tokens as places side by side. At the start of a text this
is also so where there are only blanks up to the offset `stop`. -/
inductive Across (ended : Prop) (tail tail' : List Char) (stop : Nat) (c c' : Cursor) : Prop
  | abreast {d d' : Cursor} (same : c.nextSolid? = d.nextSolid?)
      (same' : c'.nextSolid? = d'.nextSolid?) (normal : d.mode = .normal)
      (h : Abreast ended tail tail' stop False d d') : Across ended tail tail' stop c c'
  | blank {cs cs' : List Char} (text : c.rest = cs ++ tail) (text' : c'.rest = cs' ++ tail')
      (normal : c.mode = .normal) (normal' : c'.mode = .normal)
      (stops : c.offset + byteLength cs = stop) (blank : cs.all isBlank) (white : cs'.all isWhite) :
      Across ended tail tail' stop c c'

namespace Across

variable {ended : Prop} {tail tail' : List Char} {stop : Nat} {c c' after : Cursor} {t : Token}
    (tails : Tails ended tail tail')

/-- White space is passed. -/
theorem nextSolid?_behindWhite {cs : List Char} (text : c.rest = cs ++ tail)
    (normal : c.mode = .normal) (white : cs.all isWhite) :
    c.nextSolid? = (⟨.normal, c.offset + byteLength cs, tail⟩ : Cursor).nextSolid? := by
  rw [← nextSolid?_whites _ _ white, ← text, ← normal]

include tails

theorem next (h : Across ended tail tail' stop c c') (next : c.nextSolid? = some (t, after))
    (whole : t.kind.isWhole) (inside : t.stop ≤ stop) :
    ∃ t' after', c'.nextSolid? = some (t', after') ∧ t'.kind = t.kind ∧ t'.text = t.text ∧
      Across ended tail tail' stop after after' := by
  cases h with
  | abreast same same' normal beside =>
    obtain ⟨t', after', found, kind, spelled, later⟩ :=
      beside.next tails (same.symm.trans next) whole inside
    refine ⟨t', after', same'.trans found, kind, spelled,
      .abreast rfl rfl ?_ (later.weaken False.elim)⟩
    exact nextSolid?_stays_normal (same.symm.trans next) normal
  | @blank cs cs' text text' normal normal' stops blank white =>
    exfalso
    -- a whole token has a character that is no blank
    obtain ⟨d, ⟨taken, split, offset⟩, read, _⟩ := nextSolid?_stands next
    obtain ⟨nonempty, start, _, place⟩ := next?_eq_some read
    have place : d.rest = t.text ++ after.rest := place
    obtain ⟨more, rfl, _⟩ :=
      exists_append_of_byteLength_le (a := cs) (b := tail) (c := taken ++ t.text) (d := after.rest)
      (by rw [← text, split, place, List.append_assoc]) (by
        have start : t.start = d.offset := start
        rw [Token.stop] at inside
        rw [byteLength_append]
        omega)
    obtain ⟨x, others, chars⟩ := List.exists_cons_of_ne_nil nonempty
    have solid := (next?_compact read whole).head x (by rw [chars]; rfl)
    have inside : x ∈ taken ++ t.text ++ more := by simp [chars]
    rw [List.all_eq_true.mp blank x inside] at solid
    cases solid

theorem none (h : Across ended tail tail' stop c c') (done : ended) (next : c.nextSolid? = none) :
    c'.nextSolid? = none := by
  cases h with
  | abreast same same' _ beside => exact same'.trans (beside.none tails done (same.symm.trans next))
  | blank text text' normal normal' stops blank white =>
    rw [nextSolid?_behindWhite text' normal' white, tails.nothing done]
    exact nextSolid?_of_none (next?_eq_none.mpr rfl)

theorem beyond (h : Across ended tail tail' stop c c') (next : c.nextSolid? = some (t, after))
    (behind : t.start = stop) (other : ¬ t.kind.isOfHex) :
    ∃ offset', (⟨.normal, stop, tail⟩ : Cursor).next? = some (t, after) ∧ ¬ t.kind.isTrivia ∧
      c'.nextSolid? = (⟨.normal, offset', tail'⟩ : Cursor).nextSolid? := by
  cases h with
  | abreast same same' normal beside =>
    obtain ⟨mode, offset', stays, read, meant, found⟩ :=
      beside.beyond tails (same.symm.trans next) behind
    rw [stays normal] at read found
    exact ⟨offset', read, meant, same'.trans found⟩
  | @blank cs cs' text text' normal normal' stops blank white =>
    obtain ⟨d, step, read, meant⟩ := nextSolid?_stands next
    have start : t.start = d.offset := (next?_place read).1
    have rest : d.rest = tail := by
      have place : c.Reaches ⟨.normal, c.offset + byteLength cs, tail⟩ := ⟨cs, text, rfl⟩
      exact step.rest_eq place (start.symm.trans (behind.trans stops.symm))
    have read := next?_normal read other
    rw [rest, ← start, behind] at read
    exact ⟨_, read, meant, nextSolid?_behindWhite text' normal' white⟩

end Across

end Cursor

/-- Kinds of tokens that are read at the top level and in the head of a rule. -/
def Kind.isTop (k : Kind) : Bool := k.isWhole && !Parser.isModifierWithArguments k && !k.isOfHex

theorem Kind.isTop_iff {k : Kind} :
    k.isTop ↔ (k.isWhole ∧ Parser.isModifierWithArguments k = false) ∧ ¬ k.isOfHex := by
  simp [isTop]

namespace ParseState

/-- From one state to another, tokens with these words are read. -/
inductive ReadsWords : ParseState → List (Kind × List Char) → ParseState → Prop
  | none (s : ParseState) : ReadsWords s [] s
  | word {s u : ParseState} {t : Token} {words : List (Kind × List Char)} (next : s.next? = some t)
    (later : ReadsWords (s.advanced .normal) words u) :
    ReadsWords s (t.word :: words) u

variable {s u : ParseState} {words : List (Kind × List Char)}

namespace ReadsWords

theorem split {more : List (Kind × List Char)} (h : s.ReadsWords (words ++ more) u) :
    ∃ mid, s.ReadsWords words mid ∧ mid.ReadsWords more u := by
  induction words generalizing s with
  | nil => exact ⟨s, .none s, h⟩
  | cons w words ih =>
    cases h with
    | word next later =>
      obtain ⟨mid, first, second⟩ := ih later
      exact ⟨mid, .word next first, second⟩

theorem first {w : Kind × List Char} (h : s.ReadsWords (w :: words) u) :
    ∃ t, s.next? = some t ∧ t.word = w ∧ (s.advanced .normal).ReadsWords words u := by
  generalize whole : w :: words = all at h
  cases h with
  | none => cases whole
  | word next later =>
    cases whole
    exact ⟨_, next, rfl, later⟩

theorem append {mid : ParseState} {more : List (Kind × List Char)} (h : s.ReadsWords words mid)
    (h' : mid.ReadsWords more u) : s.ReadsWords (words ++ more) u := by
  induction h with
  | none => exact h'
  | word next _ ih => exact .word next (ih h')

theorem before (h : s.ReadsWords words u) : s.Before u := by
  induction h with
  | none s => exact .refl s
  | word _ _ ih => exact (advanced_before _).trans ih

theorem errors (h : s.ReadsWords words u) : u.errors = s.errors := by
  induction h with
  | none => rfl
  | word _ _ ih => rw [ih, advanced_errors]

theorem panicking (h : s.ReadsWords words u) : u.panicking = s.panicking := by
  induction h with
  | none => rfl
  | word _ _ ih => rw [ih, advanced_panicking]

theorem tracked {text : List Char} (h : s.ReadsWords words u) (tracked : s.Tracked text) :
    u.Tracked text := by
  induction h with
  | none => exact tracked
  | word _ _ ih => exact ih tracked.onward

theorem wholesome {text : List Char} (h : s.ReadsWords words u) (top : ∀ w ∈ words, w.1.isTop)
    (good : s.Wholesome text) : u.Wholesome text := by
  induction h with
  | none => exact good
  | @word s u t words next _ ih =>
    obtain ⟨first, others⟩ := List.forall_mem_cons.mp top
    obtain ⟨⟨whole, other⟩, _⟩ := Kind.isTop_iff.mp first
    exact ih others (good.advanced next whole other fun hex => absurd hex (by decide))

/-- The words of a text are read where they stand across. -/
theorem across {ended : Prop} {tail tail' : List Char} (tails : Tails ended tail tail') {stop : Nat}
    (h : s.ReadsWords words u)
    (whole : ∀ w ∈ words, w.1.isWhole) (inside : u.input.here.offset ≤ stop) {s' : ParseState}
    (beside : s.input.here.Across ended tail tail' stop s'.input.here) :
    ∃ u', s'.ReadsWords words u' ∧ u.input.here.Across ended tail tail' stop u'.input.here := by
  induction h generalizing s' with
  | none => exact ⟨s', .none s', beside⟩
  | @word s u t words next later ih =>
    obtain ⟨first, others⟩ := List.forall_mem_cons.mp whole
    obtain ⟨after, ahead⟩ := next?_eq_some next
    have stops : t.stop ≤ stop :=
      advanced_here next .normal ▸ Nat.le_trans later.before.here_le inside
    obtain ⟨t', after', next', kind, spelled, beside⟩ :=
      beside.next tails (s.input.ahead_eq.symm.trans ahead) first stops
    have ahead' : s'.input.ahead = some (t', after') := s'.input.ahead_eq.trans next'
    have beside : (s.advanced .normal).input.here.Across ended tail tail' stop
        (s'.advanced .normal).input.here := by
      rw [advanced, ahead, advanced, ahead']
      exact beside
    obtain ⟨u', read, beside⟩ := ih others inside beside
    have same : t.word = t'.word := by rw [Token.word, Token.word, kind, spelled]
    exact ⟨u', same ▸ .word (by rw [next?, ahead']; rfl) read, beside⟩

end ReadsWords

end ParseState

namespace Parser

open ParseState

variable {s u : ParseState}

/-! ### The head of a rule -/

/-- The flags with one more modifier. -/
def RuleFlags.add (flags : RuleFlags) (k : Kind) : RuleFlags :=
  ⟨flags.isPrivate || k == .keyword .kwPrivate, flags.isGlobal || k == .keyword .kwGlobal⟩

/-- True of a modifier that was there before. -/
def RuleFlags.has (flags : RuleFlags) (k : Kind) : Bool :=
  flags.isPrivate && k == .keyword .kwPrivate || flags.isGlobal && k == .keyword .kwGlobal

theorem isRuleModifier_cases {k : Kind} (h : isRuleModifier k) :
    k = .keyword .kwPrivate ∨ k = .keyword .kwGlobal := by
  simpa [isRuleModifier] using h

theorem RuleFlags.has_add {flags : RuleFlags} {k l : Kind} (modifier : isRuleModifier k) :
    (flags.add k).has l = (flags.has l || k == l) := by
  rcases isRuleModifier_cases modifier with rfl | rfl <;> cases flags with
  | mk p g => cases l with
    | keyword w => cases w <;> cases p <;> cases g <;> rfl
    | _ => cases p <;> cases g <;> rfl

theorem run_flagStep {flags : RuleFlags} {t : Token} (next : s.next? = some t)
    (modifier : isRuleModifier t.kind) (fresh : flags.has t.kind = false) :
    (flagStep flags).run s = (.yield (flags.add t.kind), s.advanced .normal) := by
  obtain ⟨p, g⟩ := flags
  rw [flagStep, run_bind, run_peek, next]
  dsimp only
  rcases isRuleModifier_cases modifier with kind | kind <;> rw [kind] at fresh ⊢
  · rw [if_pos rfl, run_bind, run_advance]
    obtain rfl : p = false := by simpa [RuleFlags.has] using fresh
    simp [RuleFlags.add]
  · rw [if_neg (by decide), if_pos rfl, run_bind, run_advance]
    obtain rfl : g = false := by simpa [RuleFlags.has] using fresh
    simp [RuleFlags.add]

theorem run_flags {ms : List (Kind × List Char)} (h : s.ReadsWords ms u)
    (modifiers : ∀ m ∈ ms, isRuleModifier m.1) {flags : RuleFlags}
    (fresh : ∀ m ∈ ms, flags.has m.1 = false) (once : (ms.map Prod.fst).Nodup)
    (rule : u.kindAhead? = some (.keyword .kwRule)) :
    (iterate flagStep flags).run s = (ms.foldl (fun flags m => flags.add m.1) flags, u) := by
  induction h generalizing flags with
  | none => exact run_iterate_done (flagStep_done rule flags)
  | @word s u t ms next later ih =>
    obtain ⟨modifier, modifiers⟩ := List.forall_mem_cons.mp modifiers
    obtain ⟨first, fresh⟩ := List.forall_mem_cons.mp fresh
    obtain ⟨new, once⟩ := List.nodup_cons.mp once
    rw [run_iterate_yield flagStep_progress (run_flagStep next modifier first), List.foldl_cons]
    refine ih modifiers (fun m member => ?_) once rule
    rw [RuleFlags.has_add (show isRuleModifier t.kind from modifier), fresh m member, Bool.false_or,
      beq_eq_false_iff_ne]
    exact fun same => new (List.mem_map.mpr ⟨m, member, same.symm⟩)

/-- Modifiers without errors are different ones. -/
theorem flags_clean (flags : RuleFlags) (s : ParseState)
    (clean : ((iterate flagStep flags).run s).2.errors = []) :
    ∃ ms, s.ReadsWords ms ((iterate flagStep flags).run s).2 ∧ (∀ m ∈ ms, isRuleModifier m.1) ∧
      (∀ m ∈ ms, flags.has m.1 = false) ∧ (ms.map Prod.fst).Nodup := by
  induction size : s.unread using Nat.strongRecOn generalizing s flags with
  | _ size ih =>
    have ended : (flagStep flags).run s = (.done flags, s) →
        ∃ ms, s.ReadsWords ms ((iterate flagStep flags).run s).2 ∧
        (∀ m ∈ ms, isRuleModifier m.1) ∧ (∀ m ∈ ms, flags.has m.1 = false) ∧
          (ms.map Prod.fst).Nodup := fun run => by
      rw [run_iterate_done run]
      exact ⟨[], .none s, nofun, nofun, List.nodup_nil⟩
    cases next : s.next? with
    | none => exact ended (by rw [flagStep, run_bind, run_peek, next]; rfl)
    | some t =>
      by_cases modifier : isRuleModifier t.kind
      · cases known : flags.has t.kind with
        | false =>
          have run := run_iterate_yield flagStep_progress (run_flagStep next modifier known)
          rw [run] at clean ⊢
          obtain ⟨ms, read, modifiers, fresh, once⟩ :=
            ih _ (size ▸ advanced_unread_lt next .normal) _ _ clean rfl
          refine ⟨t.word :: ms, .word next read, List.forall_mem_cons.mpr ⟨modifier, modifiers⟩,
            List.forall_mem_cons.mpr ⟨known, fun m member => ?_⟩,
              List.nodup_cons.mpr ⟨fun member => ?_, once⟩⟩
          · have both := fresh m member
            rw [RuleFlags.has_add modifier, Bool.or_eq_false_iff] at both
            exact both.1
          · obtain ⟨m, inside, same⟩ := List.mem_map.mp member
            have both := fresh m inside
            rw [RuleFlags.has_add modifier, Bool.or_eq_false_iff, beq_eq_false_iff_ne] at both
            exact both.2 same.symm
        | true =>
          -- the second one is reported
          exfalso
          have reported : ((flagStep flags).run s).2.errors ≠ [] := by
            obtain ⟨p, g⟩ := flags
            rw [flagStep, run_bind, run_peek, next]
            dsimp only
            rcases isRuleModifier_cases modifier with kind | kind <;> rw [kind] at known ⊢
            · obtain rfl : p = true := by simpa [RuleFlags.has] using known
              exact ParseState.reported_ne_nil _ _
            · obtain rfl : g = true := by simpa [RuleFlags.has] using known
              exact ParseState.reported_ne_nil _ _
          exact reported ((iterate_first flagStep flags s).no_errors clean)
      · refine ended ?_
        rw [flagStep, run_bind, run_peek, next]
        dsimp only
        have no_private : t.kind ≠ .keyword .kwPrivate := fun kind => modifier (by rw [kind]; rfl)
        have no_global : t.kind ≠ .keyword .kwGlobal := fun kind => modifier (by rw [kind]; rfl)
        rw [if_neg no_private, if_neg no_global]
        rfl

/-- A name without a place. -/
def placelessIdent (name : List Char) : Ident := ⟨String.ofList name, ⟨0, 0⟩⟩

theorem identOf_placeless (t : Token) : (identOf t).rebase .placeless = placelessIdent t.text := rfl

theorem run_tags {ts : List (Kind × List Char)} (h : s.ReadsWords ts u)
    (idents : ∀ t ∈ ts, t.1 = .ident) {is : List Ident}
    (distinct : (is.map (·.name) ++ ts.map fun t => String.ofList t.2).Nodup)
    (ends : u.kindAhead? ≠ some .ident) :
    ∃ is', (iterate tagStep is).run s = (is', u) ∧
      is'.map (·.rebase .placeless) = is.map (·.rebase .placeless) ++ ts.map fun t =>
        placelessIdent t.2 := by
  induction h generalizing is with
  | none s =>
    refine ⟨is, run_iterate_done ?_, (List.append_nil _).symm⟩
    rw [tagStep, run_bind, run_eat, if_neg ends]
    rfl
  | @word s u t ts next later ih =>
    obtain ⟨first, idents⟩ := List.forall_mem_cons.mp idents
    have fresh : is.any (·.name == t.name) = false := by
      refine List.any_eq_false.mpr fun i member same => ?_
      exact (List.nodup_append.mp distinct).2.2 _ (List.mem_map_of_mem member) _
        (List.mem_cons_self ..) (beq_iff_eq.mp same)
    have run : (tagStep is).run s = (.yield (is ++ [identOf t]), s.advanced .normal) := by
      rw [tagStep, run_bind, run_eat, if_pos (first ▸ kindAhead?_of_next next), next]
      dsimp only
      rw [fresh]
      rfl
    have distinct :
        ((is ++ [identOf t]).map (·.name) ++ ts.map fun t => String.ofList t.2).Nodup := by
      rw [List.map_append, List.append_assoc]
      exact distinct
    obtain ⟨is', result, names⟩ := ih idents distinct ends
    refine ⟨is', (run_iterate_yield tagStep_progress run).trans result, ?_⟩
    rw [names, List.map_append, List.append_assoc]
    rfl

/-- Tags without errors are different ones. -/
theorem tags_clean (is : List Ident) (s : ParseState) (distinct : (is.map (·.name)).Nodup)
    (clean : ((iterate tagStep is).run s).2.errors = []) :
    ∃ ts, s.ReadsWords ts ((iterate tagStep is).run s).2 ∧ (∀ t ∈ ts, t.1 = .ident) ∧
      (is.map (·.name) ++ ts.map fun t => String.ofList t.2).Nodup ∧
      ((iterate tagStep is).run s).2.kindAhead? ≠ some .ident := by
  induction size : s.unread using Nat.strongRecOn generalizing s is with
  | _ size ih =>
    by_cases ahead : s.kindAhead? = some .ident
    · obtain ⟨t, next, kind⟩ := kindAhead?_eq_some ahead
      cases known : is.any (·.name == t.name) with
      | false =>
        have run : (tagStep is).run s = (.yield (is ++ [identOf t]), s.advanced .normal) := by
          rw [tagStep, run_bind, run_eat, if_pos ahead, next]
          dsimp only
          rw [known]
          rfl
        have fresh : ((is ++ [identOf t]).map (·.name)).Nodup := by
          rw [List.map_append, List.nodup_append]
          refine ⟨distinct, List.pairwise_singleton _ _, fun name member last same => ?_⟩
          rw [List.map_singleton, List.mem_singleton] at same
          rintro rfl
          obtain ⟨i, inside, named⟩ := List.mem_map.mp member
          exact List.any_eq_false.mp known i inside (beq_iff_eq.mpr (named.trans same))
        rw [run_iterate_yield tagStep_progress run] at clean ⊢
        obtain ⟨ts, read, idents, distinct, ends⟩ :=
          ih _ (size ▸ advanced_unread_lt next .normal) _ _ fresh clean rfl
        refine ⟨t.word :: ts, .word next read, List.forall_mem_cons.mpr ⟨kind, idents⟩, ?_, ends⟩
        rw [List.map_append, List.append_assoc] at distinct
        exact distinct
      | true =>
        exfalso
        have reported : ((tagStep is).run s).2.errors ≠ [] := by
          rw [tagStep, run_bind, run_eat, if_pos ahead, next]
          dsimp only
          rw [known]
          exact ParseState.reported_ne_nil _ _
        exact reported ((iterate_first tagStep is s).no_errors clean)
    · have run : (iterate tagStep is).run s = (is, s) := run_iterate_done (by
        rw [tagStep, run_bind, run_eat, if_neg ahead]
        rfl)
      rw [run]
      exact ⟨[], .none s, nofun, by rwa [List.map_nil, List.append_nil], ahead⟩

/-- What stands between the start of a rule and its brace. -/
structure RuleLine where
  modifiers : List (Kind × List Char)
  keyword : List Char
  name : List Char
  -- the colon and the names behind it
  tags : List (Kind × List Char)

namespace RuleLine

variable (l : RuleLine)

/-- The words from the name of the rule on. -/
def title : List (Kind × List Char) := (.ident, l.name) :: l.tags

def words : List (Kind × List Char) := l.modifiers ++ (.keyword .kwRule, l.keyword) :: l.title

def flags : RuleFlags := l.modifiers.foldl (fun flags m => flags.add m.1) ⟨false, false⟩

/-- The rule that starts with these words, without places. -/
def rule : Rule where
  isPrivate := l.flags.isPrivate
  isGlobal := l.flags.isGlobal
  ident := placelessIdent l.name
  tags := l.tags.tail.map fun t => placelessIdent t.2
  metas := []
  patterns := []
  condition := none
  sections := []
  lbrace := some ⟨0, 0⟩
  rbrace := none
  span := ⟨0, 0⟩

/-- No error is met in the words. -/
structure Fine : Prop where
  named : l.name ≠ []
  modifiers : ∀ m ∈ l.modifiers, isRuleModifier m.1
  once : (l.modifiers.map Prod.fst).Nodup
  colon : ∀ t ∈ l.tags.head?, t.1 = .symbol .colon
  idents : ∀ t ∈ l.tags.tail, t.1 = .ident
  distinct : (l.tags.tail.map fun t => String.ofList t.2).Nodup

variable {l}

theorem Fine.top (fine : l.Fine) : ∀ w ∈ l.words, w.1.isTop := by
  intro w member
  have tagged : ∀ t ∈ l.tags, t.1 = .symbol .colon ∨ t.1 = .ident := by
    intro t inside
    have colon := fine.colon
    have idents := fine.idents
    cases tags : l.tags with
    | nil =>
      rw [tags] at inside
      cases inside
    | cons first others =>
      rw [tags] at inside colon idents
      rcases List.mem_cons.mp inside with rfl | inside
      · exact .inl (colon t rfl)
      · exact .inr (idents t inside)
  rcases List.mem_append.mp member with modifier | member
  · rcases isRuleModifier_cases (fine.modifiers w modifier) with kind | kind <;> rw [kind] <;> rfl
  rcases List.mem_cons.mp member with rfl | member
  · rfl
  rcases List.mem_cons.mp member with rfl | member
  · rfl
  · rcases tagged w member with kind | kind <;> rw [kind] <;> rfl

/-- A rule starts with a modifier or with its keyword. -/
theorem Fine.starts (fine : l.Fine) (read : s.ReadsWords l.words u) {t : Token}
    (first : s.next? = some t) :
    t.kind = .keyword .kwRule ∨ isRuleModifier t.kind := by
  have head : ∀ {w words}, l.words = w :: words → t.word = w := fun same => by
    obtain ⟨t', next, word, _⟩ := (same ▸ read).first
    exact Option.some.inj (first.symm.trans next) ▸ word
  cases modifiers : l.modifiers with
  | nil =>
    have word := head (w := (.keyword .kwRule, l.keyword)) (by rw [words, modifiers]; rfl)
    exact .inl (congrArg Prod.fst word)
  | cons w ws =>
    have word := head (w := w) (by rw [words, modifiers]; rfl)
    have modifier : isRuleModifier t.word.1 :=
      word ▸ fine.modifiers w (modifiers ▸ List.mem_cons_self ..)
    exact .inr modifier

end RuleLine

variable {l : RuleLine} {brace : Token}

theorem run_tagList (fine : l.Fine) (h : s.ReadsWords l.tags u)
    (ends : u.kindAhead? = some (.symbol .lbrace)) :
    ∃ is, tags.run s = (is, u) ∧ is.map (·.rebase .placeless) = l.tags.tail.map fun t =>
      placelessIdent t.2 := by
  have colon := fine.colon
  have idents := fine.idents
  have distinct := fine.distinct
  generalize l.tags = ts at h colon idents distinct
  cases h with
  | none =>
    have missing : (eat (.symbol .colon)).run s = (none, s) := by
      rw [run_eat, if_neg (by rw [ends]; decide)]
    refine ⟨[], ?_, rfl⟩
    rw [tags, run_bind, missing]
    rfl
  | @word s u t ts next later =>
    have distinct :
        (([] : List Ident).map (·.name) ++ ts.map fun t => String.ofList t.2).Nodup := distinct
    obtain ⟨is, run, names⟩ := run_tags later idents distinct (by rw [ends]; decide)
    refine ⟨is, ?_, names⟩
    have kind : t.kind = .symbol .colon := colon _ rfl
    have found : (eat (.symbol .colon)).run s = (some t, s.advanced .normal) := by
      rw [run_eat, if_pos (kind ▸ kindAhead?_of_next next), next]
    rw [tags, run_bind, found]
    exact run

/-- The head of a rule, up to its brace. -/
theorem run_ruleHead (fine : l.Fine) (h : s.ReadsWords l.title u) (next : u.next? = some brace)
    (kind : brace.kind = .symbol .lbrace) :
    ∃ r : Rule, (ruleHead l.flags).run s = (r, u.advanced .normal) ∧ r.rebase .placeless = l.rule ∧
      r.lbrace = some brace.span := by
  have ahead : u.kindAhead? = some (.symbol .lbrace) := kind ▸ kindAhead?_of_next next
  obtain ⟨t, first, word, later⟩ := h.first
  obtain ⟨is, run, names⟩ := run_tagList fine later ahead
  have ident : t.kind = .ident := congrArg Prod.fst word
  have name : t.text = l.name := congrArg Prod.snd word
  have named : ruleName.run s = (identOf t, s.advanced .normal) := by
    rw [ruleName, run_bind, run_eat, if_pos (ident ▸ kindAhead?_of_next first), first]
    rfl
  refine ⟨⟨l.flags.isPrivate, l.flags.isGlobal, identOf t, is, [], [], none, [], some brace.span,
    none, t.span⟩, ?_, ?_, rfl⟩
  · rw [ruleHead, run_bind, named, run_bind, run, run_bind, run_expect ahead, next]
    rfl
  · simp only [Rule.rebase, RuleLine.rule, identOf_placeless, names, name]
    rfl

end Parser

end RuleDesk
