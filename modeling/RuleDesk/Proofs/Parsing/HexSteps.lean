import RuleDesk.Proofs.Parsing.HexRule
import RuleDesk.Proofs.Lexing.HexText

namespace RuleDesk

/-! ## The steps of a hex pattern -/

namespace Parser

/-- The parentheses behind a token that a hex pattern has a place for. -/
def hexMove (parens : Nat) : Kind → Option Nat
  | .hexByte | .symbol .lbracket => some parens
  | .symbol .lparen => some (parens + 1)
  | .symbol .pipe => if 0 < parens then some parens else none
  | .symbol .rparen => if 0 < parens then some (parens - 1) else none
  | _ => none

section Step

variable {s : ParseState} {t : Token} {lbrace : Span} {n m : Nat} (next : s.next? = some t)

include next

/-- A token with a place there is read, and a whole jump behind its bracket. -/
theorem run_hexStep_move (move : hexMove n t.kind = some m) : (hexStep lbrace (.within n)).run s =
    (.yield (.within m), if t.kind = .symbol .lbracket then (hexJump.run (s.advanced .jump)).2
      else s.advanced .normal) := by
  rw [hexStep, run_bind, run_peek, next]
  dsimp only
  generalize t.kind = k at move ⊢
  unfold hexMove at move
  split at move
  · cases move
    rw [if_pos rfl, run_bind, run_advance, if_neg (by decide)]
    rfl
  · cases move
    rw [if_neg (by decide), if_pos rfl, run_bind, run_advanceInto, if_pos rfl]
    rfl
  · cases move
    rw [if_neg (by decide), if_neg (by decide), if_pos rfl, run_bind, run_advance,
      if_neg (by decide)]
    rfl
  · split at move
    · rename_i inside
      cases move
      rw [if_neg (by decide), if_neg (by decide), if_neg (by decide), if_pos ⟨rfl, inside⟩,
        run_bind, run_advance, if_neg (by decide)]
      rfl
    · cases move
  · split at move
    · rename_i inside
      cases move
      rw [if_neg (by decide), if_neg (by decide), if_neg (by decide), if_neg (fun h => nomatch h.1),
        if_pos ⟨rfl, inside⟩, run_bind, run_advance, if_neg (by decide)]
      rfl
    · cases move
  · cases move

/-- The brace outside of all parentheses ends the pattern. -/
theorem run_hexStep_brace (brace : t.kind = .symbol .rbrace) (outside : n = 0) :
    (hexStep lbrace (.within n)).run s =
    (.done (.ended t.stop), s.advanced .normal) := by
  subst outside
  rw [hexStep, run_bind, run_peek, next]
  dsimp only
  rw [brace, if_neg (by decide), if_neg (by decide), if_neg (by decide),
    if_neg (fun h => nomatch h.1), if_neg (fun h => nomatch h.1),
    if_pos ⟨rfl, rfl⟩, run_bind, run_advance]
  rfl

omit next in
/-- The kinds without a place, one by one. -/
theorem hexMove_none {k : Kind} (refused : hexMove n k = none) :
    k ≠ .hexByte ∧ k ≠ .symbol .lbracket ∧ k ≠ .symbol .lparen ∧
    ¬ (k = .symbol .pipe ∧ 0 < n) ∧ ¬ (k = .symbol .rparen ∧ 0 < n) := by
  have inside : 0 < n → k ≠ .symbol .pipe ∧ k ≠ .symbol .rparen := fun inside => by
    constructor <;>
    · rintro rfl
      rw [hexMove, if_pos inside] at refused
      cases refused
  refine ⟨?_, ?_, ?_, fun bar => (inside bar.2).1 bar.1, fun closes => (inside closes.2).2 closes.1⟩
    <;>
  · rintro rfl
    cases refused

/-- Reports what has no place in the pattern, and goes to its brace or to where
parsing resumes. -/
def hexRecover (parens : Nat) : Parser (ForInStep HexProgress) := do
  unexpected (if 0 < parens then .hexByteOrAlternative else .hexByteOrBrace)
  skipToSyncPoint
  match ← eat (.symbol .rbrace) with
  | some rbrace => return .done (.ended rbrace.stop)
  | none => return .done (.ended (← lastStop))

/-- What has no place ends the pattern as well. -/
theorem run_hexStep_refused (refused : hexMove n t.kind = none)
    (other : ¬ (t.kind = .symbol .rbrace ∧ n = 0)) :
    (hexStep lbrace (.within n)).run s =
      if isSyncKind t.kind
        then (.done (.ended s.input.here.offset), s.reported ⟨.unbalancedBraces, lbrace⟩)
      else (hexRecover n).run s := by
  obtain ⟨byte, jump, opens, bar, closes⟩ := hexMove_none refused
  rw [hexStep, run_bind, run_peek, next]
  dsimp only
  rw [if_neg byte, if_neg jump, if_neg opens, if_neg bar, if_neg closes, if_neg other, run_bind,
    run_atSyncPoint, ParseState.kindAhead?_of_next next, Option.all_some, run_ite]
  rfl

end Step

/-- Behind the upper number of a jump, which only a hyphen allows. -/
def afterHigh (hyphen : Option Token × ParseState) : ParseState :=
  if hyphen.1.isSome then ((eat .integer).run hyphen.2).2 else hyphen.2

theorem run_hexJump (s : ParseState) : hexJump.run s =
    ((), ((expect (.symbol .rbracket)).run
      (afterHigh ((eat (.symbol .hyphen)).run ((eat .integer).run s).2))).2) := by
  rw [hexJump, run_bind, run_bind, afterHigh]
  split <;> rfl

/-! ### What is left of a hex pattern -/

/-- In front of some text of a hex pattern and the brace behind it. -/
structure InHex (back : List Char) (stop : Nat) (s : ParseState) (cs : List Char) : Prop where
  among : cs.all isPatternChar
  ahead : ∃ mode offset, s.input.ahead =
      (⟨mode, offset, cs ++ '}' :: ' ' :: back⟩ : Cursor).nextSolid? ∧ offset + byteLength cs = stop

/-- Behind some of the text of a hex pattern: no parenthesis is passed. -/
structure Passed (cs rest : List Char) : Prop where
  suffix : rest <:+ cs
  opens : cs.count '(' = rest.count '('
  closes : cs.count ')' = rest.count ')'

theorem Passed.refl (cs : List Char) : Passed cs cs := ⟨List.suffix_refl cs, rfl, rfl⟩

theorem Passed.trans {cs ds es : List Char} (h : Passed cs ds) (h' : Passed ds es) : Passed cs es :=
  ⟨h'.suffix.trans h.suffix, h.opens.trans h'.opens, h.closes.trans h'.closes⟩

/-- What may be ahead there. Text that cannot be read may take the brace with it. -/
inductive InHex.Next (back : List Char) (stop : Nat) (s : ParseState) (cs : List Char)
    (t : Token) : Prop
  | brace (white : cs.all isWhite) (kind : t.kind = .symbol .rbrace) (ends : t.stop = stop + 1)
      (behind : (s.advanced .normal).input.here = ⟨.normal, stop + 1, ' ' :: back⟩)
  | swallowed (kind : t.kind = .unknown)
      (behind : (s.advanced .normal).input.here = ⟨.normal, stop + 1, ' ' :: back⟩)
  | inside {rest : List Char} (shorter : rest.length < cs.length) (suffix : rest <:+ cs)
      (sync : isSyncKind t.kind → ∃ w, isSyncKind (.keyword w) ∧ w.text.toList <:+: cs)
      (opens : t.kind ≠ .unknown → cs.count '(' = rest.count '(' + if t.kind = .symbol .lparen
      then 1 else 0)
      (closes : t.kind ≠ .unknown → cs.count ')' = rest.count ')' + if t.kind = .symbol .rparen
      then 1 else 0) (behind : ∀ mode, InHex back stop (s.advanced mode) rest)

/-- Parsing resumes only at reserved words and at the brace. -/
theorem reading_sync {mode mode' : Mode} {k : Kind} {c : Char} {text rest : List Char}
    (among : isPatternChar c) (solid : isWhite c = false)
    (read : mode.read (c :: text ++ rest) = (mode', ⟨k, text.length + 1⟩)) (sync : isSyncKind k) :
    ∃ w, isSyncKind (.keyword w) ∧ w.text.toList = c :: text := by
  cases k with
  | keyword w => exact ⟨w, sync, (Mode.reading_keyword read rfl).symm⟩
  | symbol s =>
    have brace : s = .rbrace := beq_iff_eq.mp sync
    obtain ⟨_, entry⟩ := Mode.reading_symbol among solid read rfl
    have closing : ∀ entry ∈ Symbol.table, entry.1 = .rbrace → entry.2 = ['}'] := by decide
    cases closing _ entry brace
    cases among
  | _ => cases sync

theorem InHex.next {back : List Char} {stop : Nat} {s : ParseState} {cs : List Char}
    (h : InHex back stop s cs) :
    ∃ t, s.next? = some t ∧ Next back stop s cs t := by
  obtain ⟨among, mode, offset, ahead, place⟩ := h
  obtain ⟨t, after, next, reading⟩ := Cursor.nextSolid?_inHex mode offset among back
  rw [next] at ahead
  have advanced : ∀ mode, (s.advanced mode).input = Input.at (after.enter mode) := fun mode => by
    rw [ParseState.advanced, ahead]
    rfl
  refine ⟨t, congrArg (Option.map Prod.fst) ahead, ?_⟩
  subst place
  cases reading with
  | brace white => exact .brace white rfl rfl (congrArg Input.here (advanced .normal))
  | swallowed unknown => exact .swallowed unknown (congrArg Input.here (advanced .normal))
  | @inside mode' k c ws text rest split white solid read =>
    subst split
    rw [List.all_append, List.all_append, Bool.and_eq_true, Bool.and_eq_true] at among
    obtain ⟨_, here, later⟩ := among
    have first : isPatternChar c := List.all_eq_true.mp here c List.mem_cons_self
    have suffix : rest <:+ ws ++ (c :: text ++ rest) := ⟨ws ++ c :: text, List.append_assoc _ _ _⟩
    refine .inside ?_ suffix (fun sync => ?_) (fun known => ?_) (fun known => ?_) fun mode =>
      ⟨later, ?_⟩
    · simp only [List.length_append, List.length_cons]
      omega
    · obtain ⟨w, resumes, spelled⟩ := reading_sync first solid read sync
      exact ⟨w, resumes, ws, rest, by rw [spelled, List.append_assoc]⟩
    · rw [List.count_append, List.count_append, count_of_all white rfl,
        (Mode.reading_parens first solid read known).1, Nat.zero_add, Nat.add_comm]
    · rw [List.count_append, List.count_append, count_of_all white rfl,
        (Mode.reading_parens first solid read known).2, Nat.zero_add, Nat.add_comm]
    · obtain ⟨new, entered⟩ := Cursor.enter_uniform mode' mode
      refine ⟨new, offset + byteLength ws + byteLength (c :: text), ?_, ?_⟩
      · rw [advanced mode, entered]
        rfl
      · rw [byteLength_append, byteLength_append]
        omega

end Parser

end RuleDesk
