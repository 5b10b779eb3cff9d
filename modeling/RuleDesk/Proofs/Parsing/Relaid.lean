import RuleDesk.Proofs.Parsing.Whole

namespace RuleDesk

/-! ## A section that is laid out anew

A section without errors says the same where it is laid out anew, whatever stands in front
of it and behind it in the two texts. -/

namespace View

/-- Places are not looked at. -/
def placeless : View := .of fun _ => 0

theorem placeless_keepsNames : placeless.KeepsNames := of_keepsNames _

theorem placeless_unnamed (span : Span) (name : String) :
    (placeless.name span name = "" ↔ name = "") ∧ (placeless.name span name = "$" ↔ name = "$") :=
  ⟨Iff.rfl, Iff.rfl⟩

end View

/-- Tokens that say the same are alike in all but their places. -/
theorem Token.alike_placeless {t t' : Token} (kind : t'.kind = t.kind) (text : t'.text = t.text) :
    t.Alike False .placeless .placeless t' :=
  ⟨kind.symm, rfl, fun _ => (congrArg String.ofList text).symm, fun _ _ => text.symm⟩

theorem Kind.isWhole_of_closesPart {k : Kind} (h : k.closesPart) : k.isWhole := by
  cases k <;> first | rfl | cases h

/-- The parse of a text has come to the end of a section without an error, and its next
token stands at `stop`. From there on `tail` is the text, and `tail'` the text that this
is laid out anew as. -/
structure EndsSection (text : List Char) (last : ParseState) (stop : Nat)
    (tail tail' : List Char) : Prop where
  clean : last.errors = []
  good : last.Wholesome text
  closing : ∃ t after more, last.input.here.nextSolid? = some (t, after) ∧ t.kind.closesPart ∧
      t.start = stop ∧ tail' = t.text ++ more ∧ Loose more
  tails : Tails False tail tail'

namespace EndsSection

variable {text : List Char} {last : ParseState} {stop : Nat} {tail tail' : List Char}
    (E : EndsSection text last stop tail tail')

include E

theorem here_le : last.input.here.offset ≤ stop := by
  obtain ⟨t, after, more, next, _, start, _⟩ := E.closing
  exact start ▸ (Cursor.nextSolid?_place next).1

/-- Tokens that were read on the way stand before the end. -/
theorem inside {later earlier : List Token} {t : Token} (read : last.read = later ++ t :: earlier) :
    t.stop ≤ stop := by
  have behind :=
    E.good.tracked.read.stop_le t (read ▸ List.mem_append_right _ (List.mem_cons_self ..))
  rw [← E.good.tracked.behind.stop] at behind
  exact Nat.le_trans behind E.here_le

omit E in
/-- Places in both texts behind some tokens of the first one, the latest one first. -/
structure Near (tail tail' : List Char) (stop : Nat) (tokens : List Token)
    (c c' : Cursor) : Prop where
  abreast : c.Abreast False tail tail' stop (∀ u ∈ tokens.head?, u.kind ≠ .symbol .colon) c'
  outside : ¬ InArguments tokens
  unopened : ∀ u ∈ tokens.head?, Parser.isModifierWithArguments u.kind →
      ∀ t after, c.nextSolid? = some (t, after) → t.kind ≠ .symbol .lparen

omit E in
theorem Near.state {s : ParseState} {c' : Cursor}
    (h : Near tail tail' stop s.read s.input.here c') : s.Outside := by
  refine ⟨h.outside, fun u head modifier ahead => ?_⟩
  obtain ⟨t, next, kind⟩ := ParseState.kindAhead?_eq_some ahead
  obtain ⟨after, entry⟩ := ParseState.next?_eq_some next
  exact h.unopened u head modifier t after (s.input.ahead_eq.symm.trans entry) kind

omit E in
theorem Near.ofState {s : ParseState} {c' : Cursor} (outside : s.Outside)
    (abreast : s.input.here.Abreast False tail tail' stop
    (∀ u ∈ s.read.head?, u.kind ≠ .symbol .colon) c') :
    Near tail tail' stop s.read s.input.here c' := by
  refine ⟨abreast, outside.outside, fun u head modifier t after next kind => ?_⟩
  have ahead : s.input.ahead = some (t, after) := s.input.ahead_eq.trans next
  exact outside.unopened u head modifier
    (kind ▸ ParseState.kindAhead?_of_next (by rw [ParseState.next?, ahead]; rfl))

omit E in
/-- The next token is not among the arguments of a modifier. -/
theorem Near.ahead {earlier : List Token} {c c' after : Cursor} {t : Token}
    (h : Near tail tail' stop earlier c c')
    (next : c.nextSolid? = some (t, after)) : ¬ InArguments (t :: earlier) := by
  rintro (⟨inside, _⟩ | ⟨_, kind, modifier⟩)
  · exact h.outside inside
  · obtain ⟨u, first, modifier⟩ := (Option.any_eq_true ..).mp modifier
    exact h.unopened u first modifier t after next kind

theorem next {later earlier : List Token} {t : Token} {c c' after : Cursor}
    (read : last.read = later ++ t :: earlier)
    (near : Near tail tail' stop earlier c c') (next : c.nextSolid? = some (t, after)) :
    ∃ t' after', c'.nextSolid? = some (t', after') ∧ t'.kind = t.kind ∧ t'.text = t.text ∧
      after.Abreast False tail tail' stop True after' ∧
      (∀ u ∈ earlier.head?, u.kind.joins t.kind → (t.start = c.offset ↔ t'.start = c'.offset)) := by
  have outside := near.ahead next
  have whole := (read ▸ E.good.whole).here outside
  have inside := E.inside read
  obtain ⟨t', after', next', kind, spelled, abreast⟩ := near.abreast.next E.tails next whole inside
  refine ⟨t', after', next', kind, spelled, abreast, fun u head joins => ?_⟩
  have symbol : ∃ s, t.kind = .symbol s ∧ ¬ t.kind.isOfHex := by
    rcases Kind.joins_second joins with dot | asterisk
    · exact ⟨_, dot, by rw [dot]; exact Bool.false_ne_true⟩
    · exact ⟨_, asterisk, by rw [asterisk]; exact Bool.false_ne_true⟩
  obtain ⟨s, symbol, other⟩ := symbol
  have tight : ∀ v ∈ earlier.head?, v.kind ≠ .symbol .colon := by
    intro v head' colon
    obtain rfl : u = v := Option.some.inj (head.symm.trans head')
    rw [colon] at joins
    cases joins
  exact (near.abreast.weaken fun _ => tight).touches E.tails next next' symbol kind spelled
    other inside

theorem ended {c' : Cursor} (near : Near tail tail' stop last.read last.input.here c') :
    Meeting .placeless .placeless last.input.here c' := by
  obtain ⟨t, after, more, next, closes, start, same, loose⟩ := E.closing
  obtain ⟨_, place, next'⟩ :=
    near.abreast.meets E.tails next start (Kind.isWhole_of_closesPart closes) same loose
  exact .token next next' (Token.alike_placeless rfl rfl) closes

/-- The section in the other text. -/
def beside : Beside text last where
  left := .placeless
  right := .placeless
  ends _ _ := rfl
  keeps := View.placeless_keepsNames
  unnamed := View.placeless_unnamed
  clean := E.clean
  tracked := E.good.tracked
  compared k := Parser.isModifierWithArguments k = false
  plain := Kind.not_arguments_of_isPlain
  near := Near tail tail' stop
  here _ := rfl
  next {later earlier t c c' after} read near _ next := by
    obtain ⟨t', after', next', kind, spelled, abreast, touching⟩ := E.next read near next
    refine ⟨t', after', next', Token.alike_placeless kind spelled, touching, fun other mode _ => ?_⟩
    refine ⟨(abreast.enter mode).weaken fun _ => trivial, near.ahead next, ?_⟩
    rintro u ⟨⟩ modifier
    rw [other] at modifier
    cases modifier
  ended := E.ended

/-- Two states behind a token. -/
theorem together {u u' : ParseState} (onWay : u.Before last) (tracked : u.Tracked text)
    (outside : u.Outside)
    (abreast : u.input.here.Abreast False tail tail' stop True u'.input.here)
    (calm : u.panicking = false)
    (calm' : u'.panicking = false) (quiet' : u'.errors = []) : E.beside.lockstep.rel u u' := by
  have near : Near tail tail' stop u.read u.input.here u'.input.here :=
    .ofState outside (abreast.weaken fun _ => trivial)
  exact Beside.Together.mk onWay tracked near calm calm' quiet'

/-- The next token that the first parse reads. -/
theorem step {s s' : ParseState} {tight : Prop}
    (abreast : s.input.here.Abreast False tail tail' stop tight s'.input.here)
    {t : Token} (next : s.next? = some t) (whole : t.kind.isWhole)
    (onWay : (s.advanced .normal).Before last) :
    ∃ t', s'.next? = some t' ∧ t'.kind = t.kind ∧
      (s.advanced .normal).input.here.Abreast False tail tail' stop True
        (s'.advanced .normal).input.here := by
  obtain ⟨after, ahead⟩ := ParseState.next?_eq_some next
  have inside : t.stop ≤ stop :=
    ParseState.advanced_here next .normal ▸ Nat.le_trans onWay.here_le E.here_le
  obtain ⟨t', after', next', kind, _, abreast⟩ :=
    abreast.next E.tails (s.input.ahead_eq.symm.trans ahead) whole inside
  have ahead' : s'.input.ahead = some (t', after') := s'.input.ahead_eq.trans next'
  refine ⟨t', by rw [ParseState.next?, ahead']; rfl, kind, ?_⟩
  rw [ParseState.advanced, ahead, ParseState.advanced, ahead']
  exact abreast

/-- A modifier with its arguments is taken in both texts. -/
theorem takes {s s' u : ParseState} (related : E.beside.lockstep.rel s s') {t : Token}
    (next : s.next? = some t)
    (modifier : Parser.isModifierWithArguments t.kind) (took : s.TookArguments u)
    (onWay : u.Before last) :
    ∃ u', s'.TookArguments u' ∧ E.beside.lockstep.rel u u' := by
  have h : E.beside.Together s s' := related
  have near : Near tail tail' stop s.read s.input.here s'.input.here := h.near
  have outside := took.outside near.state next modifier
  have tracked := took.tracked h.tracked
  have calm := took.panicking.trans h.calm
  have keyword : ∃ w, t.kind = .keyword w := by
    cases kind : t.kind with
    | keyword w => exact ⟨w, rfl⟩
    | _ => rw [kind] at modifier; cases modifier
  obtain ⟨w, keyword⟩ := keyword
  have stays : (s.advanced .normal).Before u := by
    have advance : ∀ s : ParseState, s.Before (s.advanced .normal) := fun s => by
      have step := Parser.advance.forward s
      rwa [Parser.run_advance] at step
    cases took with
    | bare => exact .refl _
    | closed _ inner => exact (advance _).trans (inner.before.trans (advance _))
  obtain ⟨t', next', kind, abreast⟩ :=
    E.step near.abreast next (by rw [keyword]; rfl) (stays.trans onWay)
  cases took with
  | bare missing =>
    have joined : E.beside.lockstep.rel (s.advanced .normal) (s'.advanced .normal) :=
      E.together onWay tracked outside abreast calm (by rw [ParseState.advanced_panicking, h.calm'])
        (by rw [ParseState.advanced_errors, h.quiet'])
    refine ⟨_, .bare ?_, joined⟩
    rwa [← Lockstep.kindAhead? joined]
  | @closed v opened inner closes =>
    obtain ⟨after, ahead⟩ := ParseState.next?_eq_some next
    have normal : (s.advanced .normal).input.here.mode = .normal := by
      rw [ParseState.advanced, ahead]
      exact Cursor.nextSolid?_ends_hex (s.input.ahead_eq.symm.trans ahead)
        (by rw [keyword]; exact Bool.false_ne_true)
    obtain ⟨paren, second, opening⟩ := ParseState.kindAhead?_eq_some opened
    have last_step := Parser.advance.forward v
    rw [Parser.run_advance] at last_step
    have upto : v.input.here.offset ≤ stop := Nat.le_trans (last_step.trans onWay).here_le E.here_le
    obtain ⟨paren', second', opening', abreast⟩ :=
      E.step abreast second (by rw [opening]; rfl) (inner.before.trans (last_step.trans onWay))
    have normal : ((s.advanced .normal).advanced .normal).input.here.mode = .normal := by
      obtain ⟨after, ahead⟩ := ParseState.next?_eq_some second
      rw [ParseState.advanced, ahead]
      exact Cursor.nextSolid?_stays_normal
        ((s.advanced .normal).input.ahead_eq.symm.trans ahead) normal
    obtain ⟨v', d', skipped, same, abreast⟩ := inner.abreast E.tails rfl abreast normal upto
    obtain ⟨close, third, closing⟩ := ParseState.kindAhead?_eq_some closes
    obtain ⟨after, ahead⟩ := ParseState.next?_eq_some third
    have inside : close.stop ≤ stop :=
      ParseState.advanced_here third .normal ▸ Nat.le_trans onWay.here_le E.here_le
    obtain ⟨close', after', found, kind', _, abreast⟩ :=
      abreast.next E.tails (v.input.ahead_eq.symm.trans ahead) (by rw [closing]; rfl) inside
    have ahead' : v'.input.ahead = some (close', after') :=
      v'.input.ahead_eq.trans (same.trans found)
    have third' : v'.next? = some close' := by rw [ParseState.next?, ahead']; rfl
    refine ⟨v'.advanced .normal, .closed ?_ skipped ?_,
      E.together onWay tracked outside ?_ calm ?_ ?_⟩
    · rw [ParseState.kindAhead?_of_next second', opening', opening]
    · rw [ParseState.kindAhead?_of_next third', kind', closing]
    · rw [ParseState.advanced, ahead, ParseState.advanced, ahead']
      exact abreast
    · rw [ParseState.advanced_panicking, skipped.panicking, ParseState.advanced_panicking,
        ParseState.advanced_panicking, h.calm']
    · rw [ParseState.advanced_errors, skipped.errors, ParseState.advanced_errors,
        ParseState.advanced_errors, h.quiet']

theorem takesArguments : E.beside.lockstep.TakesArguments := by
  rintro s s' related ⟨k, ahead, modifier⟩ _
  obtain ⟨t, next, rfl⟩ := ParseState.kindAhead?_eq_some ahead
  by_cases onWay : (Lockstep.modifierWithArguments.run s).2.Before last
  · have h : E.beside.Together s s' := related
    have took := Parser.modifierWithArguments_took h.calm (onWay.no_errors E.clean)
    obtain ⟨u', took', together⟩ := E.takes related next modifier took onWay
    rw [Lockstep.Follows, Parser.run_modifierWithArguments took']
    exact .inr ⟨trivial, together⟩
  · exact .inl onWay

/-- What goes in lockstep up to the end of the section is the same in both texts. -/
theorem follows {s s' : ParseState} {p p' : Parser α} {alike : α → α → Prop} {good : α → Prop}
    (always : E.beside.lockstep.Always p p' alike good)
    (related : E.beside.lockstep.rel s s') (fine : good (p.run s).1)
    (onWay : (p.run s).2.Before last) :
    alike (p.run s).1 (p'.run s').1 ∧ E.beside.lockstep.rel (p.run s).2 (p'.run s').2 :=
  (always s s' related trivial fine).resolve_left fun parted => parted onWay

end EndsSection

end RuleDesk
