import RuleDesk.Proofs.Lexing.Abreast
import RuleDesk.Proofs.Parsing.Beside

namespace RuleDesk

/-! ## The arguments of modifiers

Between the parentheses behind a modifier all tokens are skipped. Among them there may be
tokens that are not whole, and these may be others where the text is laid out anew. -/

/-- Kinds of tokens that are skipped among the arguments of a modifier. -/
def Kind.isInner (k : Kind) : Bool := k != .symbol .rparen && !Parser.isSyncKind k

theorem Kind.isInner_of_isStray {k : Kind} (h : k.isStray) : k.isInner := by
  cases k with
  | symbol s => cases s <;> first | rfl | cases h
  | unknown | openString | openRegexp => rfl
  | _ => cases h

/-- True behind tokens, the latest one first, among the arguments of a modifier. -/
def InArguments : List Token → Prop
  | [] => False
  | t :: earlier => InArguments earlier ∧ t.kind ≠ .symbol .rparen ∨
      ¬ InArguments earlier ∧ t.kind = .symbol .lparen ∧
        earlier.head?.any (Parser.isModifierWithArguments ·.kind)

namespace ParseState

theorem advanced_before (s : ParseState) : s.Before (s.advanced .normal) := by
  have step := Parser.advance.forward s
  rwa [Parser.run_advance] at step

theorem Tracked.onward {text : List Char} {s : ParseState} (h : s.Tracked text) :
    (s.advanced .normal).Tracked text :=
  h.advanced fun hex => absurd hex (by decide)

/-- From one state to another, tokens among the arguments of a modifier are read. -/
inductive Skipped : ParseState → ParseState → Prop
  | none (s : ParseState) : Skipped s s
  | token {s u : ParseState} {t : Token} (next : s.next? = some t) (inner : t.kind.isInner)
    (later : Skipped (s.advanced .normal) u) :
    Skipped s u

namespace Skipped

variable {s t u : ParseState}

theorem trans (h : Skipped s t) (h' : Skipped t u) : Skipped s u := by
  induction h with
  | none => exact h'
  | token next inner _ ih => exact .token next inner (ih h')

theorem before (h : Skipped s u) : s.Before u := by
  induction h with
  | none s => exact .refl s
  | token _ _ _ ih => exact (advanced_before _).trans ih

theorem errors (h : Skipped s u) : u.errors = s.errors := by
  induction h with
  | none => rfl
  | token _ _ _ ih => rw [ih, advanced_errors]

theorem panicking (h : Skipped s u) : u.panicking = s.panicking := by
  induction h with
  | none => rfl
  | token _ _ _ ih => rw [ih, advanced_panicking]

theorem read (h : Skipped s u) :
    ∃ inner, u.read = inner ++ s.read ∧ ∀ t ∈ inner, t.kind.isInner := by
  induction h with
  | none => exact ⟨[], rfl, nofun⟩
  | @token s u t next inner _ ih =>
    obtain ⟨more, read, kinds⟩ := ih
    refine ⟨more ++ [t], by rw [read, advanced_read next, List.append_assoc]; rfl,
      fun u member => ?_⟩
    rcases List.mem_append.mp member with old | last
    · exact kinds u old
    · exact List.mem_singleton.mp last ▸ inner

theorem tracked {text : List Char} (h : Skipped s u) (tracked : s.Tracked text) :
    u.Tracked text := by
  induction h with
  | none => exact tracked
  | token _ _ _ ih => exact ih tracked.onward

/-- What is skipped in a text is skipped in a parse of it. -/
theorem of_skips {p : Kind → Prop} (kinds : ∀ k, p k → k.isInner) {c d : Cursor}
    (h : Cursor.Skips p c d) {s : ParseState}
    (here : s.input.here.nextSolid? = c.nextSolid?) :
    ∃ u, Skipped s u ∧ u.input.here.nextSolid? = d.nextSolid? := by
  induction h generalizing s with
  | pass same => exact ⟨s, .none s, here.trans same⟩
  | @token c d e t next kind _ ih =>
    have ahead : s.input.ahead = some (t, d) := s.input.ahead_eq.trans (here.trans next)
    have after : (s.advanced .normal).input.here = d := by rw [advanced, ahead]; rfl
    obtain ⟨u, skipped, same⟩ := ih (s := s.advanced .normal) (by rw [after])
    exact ⟨u, .token (by rw [next?, ahead]; rfl) (kinds _ kind) skipped, same⟩

section Abreast

variable {tail tail' : List Char} (tails : Tails False tail tail') {stop : Nat}

include tails

/-- What is skipped in a text is skipped where the text is laid out anew, whatever
becomes of tokens that are not whole. -/
theorem abreast (h : Skipped s u) :
    ∀ {tight : Prop} {s' : ParseState} {d : Cursor}, s'.input.here.nextSolid? = d.nextSolid? →
    s.input.here.Abreast False tail tail' stop tight d → s.input.here.mode = .normal →
      u.input.here.offset ≤ stop →
    ∃ u' d', Skipped s' u' ∧ u'.input.here.nextSolid? = d'.nextSolid? ∧
      u.input.here.Abreast False tail tail' stop False d' := by
  induction h with
  | none s => exact fun same beside _ _ => ⟨_, _, .none _, same, beside.weaken False.elim⟩
  | @token s u t next inner later ih =>
    intro tight s' d same beside normal inside
    obtain ⟨after, ahead⟩ := next?_eq_some next
    have solid := s.input.ahead_eq.symm.trans ahead
    have here : (s.advanced .normal).input.here = after := by rw [advanced, ahead]; rfl
    have stops : t.stop ≤ stop :=
      advanced_here next .normal ▸ Nat.le_trans later.before.here_le inside
    rw [here] at ih
    by_cases whole : t.kind.isWhole
    · obtain ⟨t', after', next', kind, _, beside⟩ := beside.next tails solid whole stops
      have ahead' : s'.input.ahead = some (t', after') := s'.input.ahead_eq.trans (same.trans next')
      have here' : (s'.advanced .normal).input.here.nextSolid? = after'.nextSolid? := by
        rw [advanced, ahead']; rfl
      obtain ⟨u', d', skipped, same', beside⟩ :=
        ih here' beside (Cursor.nextSolid?_stays_normal solid normal) inside
      exact ⟨u', d', .token (by rw [next?, ahead']; rfl) (kind ▸ inner) skipped, same', beside⟩
    · obtain ⟨d', skips, normal, beside⟩ := beside.stray tails id normal solid whole stops
      obtain ⟨v', skipped, same'⟩ := of_skips (fun _ => Kind.isInner_of_isStray) skips same
      obtain ⟨u', d', skipped', same', beside⟩ := ih same' beside normal inside
      exact ⟨u', d', skipped.trans skipped', same', beside⟩

end Abreast

end Skipped

end ParseState

namespace Parser

open ParseState

variable {s u : ParseState}

theorem argumentStep_done
    (ends : s.kindAhead? = some (.symbol .rparen) ∨ s.kindAhead?.all isSyncKind) :
    (argumentStep ()).run s = (.done (), s) := by
  have ended : (s.kindAhead? == some (.symbol .rparen) || s.kindAhead?.all isSyncKind) = true := by
    rcases ends with close | sync
    · rw [close]; rfl
    · rw [sync, Bool.or_true]
  rw [argumentStep, run_bind, run_atArgumentsEnd, ended]
  rfl

theorem argumentStep_yield {t : Token} (next : s.next? = some t) (inner : t.kind.isInner) :
    (argumentStep ()).run s = (.yield (), s.advanced .normal) := by
  obtain ⟨other, no_sync⟩ := Bool.and_eq_true_iff.mp inner
  have going : (s.kindAhead? == some (.symbol .rparen) || s.kindAhead?.all isSyncKind) = false := by
    rw [kindAhead?_of_next next, Option.all_some]
    simpa using ⟨by simpa using other, by simpa using no_sync⟩
  rw [argumentStep, run_bind, run_atArgumentsEnd, going, run_ite, if_neg Bool.false_ne_true,
    run_bind, run_advance]
  rfl

/-- The tokens among the arguments are skipped up to their end. -/
theorem run_arguments (h : Skipped s u)
    (ends : u.kindAhead? = some (.symbol .rparen) ∨ u.kindAhead?.all isSyncKind) :
    (iterate argumentStep ()).run s = ((), u) := by
  induction h with
  | none => exact run_iterate_done (argumentStep_done ends)
  | token next inner _ ih =>
    exact (run_iterate_yield argumentStep_progress (argumentStep_yield next inner)).trans (ih ends)

/-- The loop over the arguments ends somewhere. -/
theorem arguments_skipped (s : ParseState) :
    ∃ u, Skipped s u ∧ (u.kindAhead? = some (.symbol .rparen) ∨ u.kindAhead?.all isSyncKind) := by
  induction size : s.unread using Nat.strongRecOn generalizing s with
  | _ size ih =>
    subst size
    by_cases ends : s.kindAhead? = some (.symbol .rparen) ∨ s.kindAhead?.all isSyncKind
    · exact ⟨s, .none s, ends⟩
    · obtain ⟨close, sync⟩ := not_or.mp ends
      cases next : s.next? with
      | none => exact (sync (by rw [kindAhead?, next]; rfl)).elim
      | some t =>
        have kind := kindAhead?_of_next next
        rw [kind, Option.all_some] at sync
        have inner : t.kind.isInner := by
          rw [Kind.isInner, Bool.and_eq_true, bne_iff_ne, Bool.not_eq_true']
          exact ⟨fun same => close (by rw [kind, same]), Bool.not_eq_true _ ▸ sync⟩
        obtain ⟨u, skipped, ended⟩ := ih _ (advanced_unread_lt next .normal) _ rfl
        exact ⟨u, .token next inner skipped, ended⟩

end Parser

/-- From one state to another, a modifier with its arguments is taken. -/
inductive ParseState.TookArguments (s : ParseState) : ParseState → Prop
  | bare (missing : (s.advanced .normal).kindAhead? ≠ some (.symbol .lparen)) :
      TookArguments s (s.advanced .normal)
  | closed {u : ParseState} (opened : (s.advanced .normal).kindAhead? = some (.symbol .lparen))
      (inner : ((s.advanced .normal).advanced .normal).Skipped u)
      (closes : u.kindAhead? = some (.symbol .rparen)) :
      TookArguments s (u.advanced .normal)

namespace Parser

open ParseState

variable {s u : ParseState}

theorem run_modifierWithArguments (h : s.TookArguments u) :
    Lockstep.modifierWithArguments.run s = ((), u) := by
  rw [Lockstep.modifierWithArguments, run_bind, run_advance, skipArguments, run_bind, run_eat]
  cases h with
  | bare missing =>
    rw [if_neg missing]
    rfl
  | @closed u opened inner closes =>
    obtain ⟨t, next, _⟩ := kindAhead?_eq_some opened
    rw [if_pos opened, next]
    simp only [Option.isSome_some, if_true]
    rw [run_bind, run_arguments inner (.inl closes), run_bind, run_expect closes]
    rfl

/-- Arguments without an error are closed. -/
theorem modifierWithArguments_took (calm : s.panicking = false)
    (clean : (Lockstep.modifierWithArguments.run s).2.errors = []) :
    s.TookArguments (Lockstep.modifierWithArguments.run s).2 := by
  by_cases opened : (s.advanced .normal).kindAhead? = some (.symbol .lparen)
  · obtain ⟨u, skipped, ends⟩ := arguments_skipped ((s.advanced .normal).advanced .normal)
    by_cases closes : u.kindAhead? = some (.symbol .rparen)
    · have took : s.TookArguments (u.advanced .normal) := .closed opened skipped closes
      rw [run_modifierWithArguments took]
      exact took
    · exfalso
      obtain ⟨t, next, _⟩ := kindAhead?_eq_some opened
      have quiet : u.panicking = false := by
        rw [skipped.panicking, advanced_panicking, advanced_panicking, calm]
      rw [Lockstep.modifierWithArguments, run_bind, run_advance, skipArguments, run_bind, run_eat,
        if_pos opened, next] at clean
      simp only [Option.isSome_some, if_true] at clean
      rw [run_bind, run_arguments skipped ends, run_bind, expect, run_bind, run_eat,
        if_neg closes] at clean
      simp only [run_bind, run_pure, run_unexpected, quiet, Bool.false_eq_true, if_false] at clean
      exact reported_ne_nil _ _ clean
  · have took : s.TookArguments (s.advanced .normal) := .bare opened
    rw [run_modifierWithArguments took]
    exact took

end Parser

end RuleDesk
