import RuleDesk.Proofs.Lexing.HexText

namespace RuleDesk

/-- Kinds of tokens behind which the tokenizer may be in the jump of a hex pattern. -/
def Kind.isOfJump (k : Kind) : Bool :=
  k == .symbol .lbracket || k == .integer || k == .symbol .hyphen

/-! ## Comments inside of a hex pattern

A hex pattern closes comments in its own way: an asterisk always takes the next
character with it. So of the comments it closes those with an odd number of asterisks
before the last slash. -/

namespace Lexeme

variable {c : Char} {body front : List Char}

/-- The number of asterisks right before the last character of a comment. -/
def closingStars (body : List Char) : Nat := runLength (· == '*') body.dropLast.reverse

theorem runLength_append_other {p : Char → Bool} (other : p c = false) (front rest : List Char) :
    runLength p (front ++ c :: rest) = runLength p front := by
  induction front with
  | nil => exact if_neg (Bool.eq_false_iff.mp other)
  | cons d front ih => rw [List.cons_append, runLength, runLength, ih]

/-- What stands before a character that is no asterisk is not in the run at the end. -/
theorem closingStars_behind (nonempty : body ≠ []) (other : c ≠ '*') :
    closingStars (front ++ c :: body) = closingStars body := by
  rw [closingStars, List.dropLast_append_of_ne_nil (List.cons_ne_nil c body),
    List.dropLast_cons_of_ne_nil nonempty,
    List.reverse_append, List.reverse_cons, List.append_assoc]
  exact runLength_append_other (p := (· == '*')) (beq_eq_false_iff_ne.mpr other) _ _

/-- Two asterisks more make the run at the end longer by two, if they are in it. -/
theorem closingStars_pair (nonempty : body ≠ []) :
    closingStars ('*' :: '*' :: body) % 2 = closingStars body % 2 := by
  rw [closingStars, List.dropLast_cons_of_ne_nil (List.cons_ne_nil _ _),
    List.dropLast_cons_of_ne_nil nonempty,
    List.reverse_cons, List.reverse_cons, List.append_assoc, closingStars]
  obtain ⟨stars, rest, split, _, all, head⟩ := runLength_split (· == '*') body.dropLast.reverse
  rw [split]
  cases rest with
  | nil =>
    rw [List.append_nil, runLength_of_all all, ← List.append_nil stars, runLength_of_all all,
      List.append_nil]
    show (stars.length + 2) % 2 = (stars.length + 0) % 2
    omega
  | cons d rest =>
    have other : (d == '*') = false := head
    rw [List.append_assoc, List.cons_append, runLength_append_other (p := (· == '*')) other,
      runLength_append_other (p := (· == '*')) other]

theorem closeComment?_cons {rest : List Char} {n : Nat}
    (closed : closeComment? (c :: rest) = some (n + 1))
    (goes_on : c = '*' → rest.head? ≠ some '/') : closeComment? rest = some n := by
  rw [closeComment?.eq_2] at closed
  · obtain ⟨m, found, same⟩ := Option.map_eq_some_iff.mp closed
    exact found.trans (congrArg some (Nat.succ.inj same))
  · rintro tail rfl rfl
    exact goes_on rfl rfl

theorem nothing_behind (closed : closeComment? ('*' :: '/' :: body) = some (body.length + 2)) :
    body = [] := by
  have two : some (0 + 2) = some (body.length + 2) := closed
  exact List.length_eq_zero_iff.mp (Nat.add_right_cancel (Option.some.inj two)).symm

theorem closed_nonempty {n : Nat} (closed : closeComment? body = some n) : body ≠ [] := by
  rintro rfl
  cases closed

theorem map_add_eq_some {o : Option Nat} {n k : Nat} :
    o.map (· + k) = some (n + k) ↔ o = some n := by
  rw [Option.map_eq_some_iff]
  exact ⟨fun ⟨_, found, same⟩ => found.trans (congrArg some (Nat.add_right_cancel same)),
    fun found => ⟨n, found, rfl⟩⟩

/-- A comment is closed at the same place in a hex pattern if the number of
asterisks before its last slash is odd. -/
theorem closeHexComment?_iff_odd (closed : closeComment? body = some body.length) :
    closeHexComment? body = some body.length ↔ closingStars body % 2 = 1 := by
  fun_induction closeHexComment? body with
  | case1 rest =>
    obtain rfl := nothing_behind closed
    exact iff_of_true rfl rfl
  | case2 c rest slash ih =>
    have inner := closeComment?_cons closed fun _ => by simpa using slash
    by_cases star : c = '*'
    · subst star
      by_cases last : rest.head? = some '/'
      · obtain ⟨rest, rfl⟩ := List.head?_eq_some_iff.mp last
        obtain rfl := nothing_behind inner
        exact iff_of_false (Option.some_ne_none _).symm (by decide)
      · have closed := closeComment?_cons inner fun _ => last
        rw [closingStars_pair (closed_nonempty closed), ← ih closed]
        exact map_add_eq_some
    · have closed := closeComment?_cons inner fun same => (star same).elim
      rw [show '*' :: c :: rest = ['*'] ++ c :: rest from rfl,
        closingStars_behind (closed_nonempty closed) star, ← ih closed]
      exact map_add_eq_some
  | case3 => cases closed
  | case4 c rest _ pair alone ih =>
    have star : c ≠ '*' := by
      rintro rfl
      cases rest with
      | nil => exact alone rfl rfl
      | cons d rest => exact pair d rest rfl rfl
    have closed := closeComment?_cons closed fun same => (star same).elim
    rw [show c :: rest = [] ++ c :: rest from rfl,
      closingStars_behind (closed_nonempty closed) star, ← ih closed]
    exact map_add_eq_some
  | case5 => cases closed

theorem jump?_kind_isOfJump {cs : List Char} {l : Lexeme} (h : jump? cs = some l)
    (meant : ¬ l.kind.isTrivia) : l.kind.isOfJump := by
  rcases Option.or_eq_some_iff.mp h with hyphen | ⟨_, h⟩
  · unfold jumpHyphen? at hyphen
    split at hyphen <;> cases hyphen
    rfl
  rcases Option.or_eq_some_iff.mp h with integer | ⟨_, h⟩
  · rw [jumpInteger?_kind integer]
    rfl
  rcases Option.or_eq_some_iff.mp h with newline | ⟨_, blank⟩
  · exact (meant (newline?_kind newline ▸ rfl)).elim
  · exact (meant (blank?_kind blank ▸ rfl)).elim

end Lexeme

theorem Mode.read_jump {mode : Mode} {cs : List Char} {l : Lexeme} (h : mode.read cs = (.jump, l)) :
    Lexeme.jump? cs = some l := by
  cases mode with
  | normal => cases h
  | hex =>
    rw [read] at h
    split at h <;> cases h
  | jump =>
    rw [read] at h
    split at h
    · rename_i found
      cases h
      exact found
    · split at h <;> cases h

/-- White space and comments that a hex pattern has no other meaning for: where it is
to close a block comment, the asterisks before the last slash are odd in number. -/
inductive HexTrivia : List Char → Prop
  | nothing : HexTrivia []
  | white {c : Char} {rest : List Char} (h : isWhite c) (later : HexTrivia rest) :
      HexTrivia (c :: rest)
  | line {body rest : List Char} (single : '\n' ∉ body) (later : HexTrivia rest) :
      HexTrivia ('/' :: '/' :: (body ++ '\n' :: rest))
  | block {body rest : List Char} (closed : Lexeme.closeComment? body = some body.length)
      (odd : Lexeme.closingStars body % 2 = 1) (later : HexTrivia rest) :
      HexTrivia ('/' :: '*' :: (body ++ rest))

namespace HexTrivia

variable {inserted : List Char} {mode : Mode}

theorem trivia (h : HexTrivia inserted) : Trivia inserted := by
  induction h with
  | nothing => exact .nothing
  | white white _ ih => exact .white white ih
  | line single _ ih => exact .line single ih
  | block closed _ _ ih => exact .block closed ih

/-- Such a text is passed in hex patterns and outside of them, and the mode stays. -/
theorem gap (h : HexTrivia inserted) (outside : mode ≠ .jump) (follow : List Char) :
    Gap follow mode inserted mode := by
  have same : mode.commenting = mode := by cases mode <;> first | rfl | exact (outside rfl).elim
  induction h with
  | nothing => exact .nothing mode
  | white white _ ih => exact .white white ih
  | line single _ ih => exact .line single (same.symm ▸ .white rfl ih)
  | block closed odd _ ih =>
    cases mode with
    | normal => exact .block closed (fun inside => (inside rfl).elim) ih
    | hex => exact .hexBlock nofun ((Lexeme.closeHexComment?_iff_odd closed).mpr odd) ih
    | jump => exact (outside rfl).elim

end HexTrivia

namespace Cursor

theorem nextSolid?_hexTrivia {inserted : List Char} {mode : Mode} (h : HexTrivia inserted)
    (outside : mode ≠ .jump) (offset : Nat)
    (rest : List Char) : (⟨mode, offset, inserted ++ rest⟩ : Cursor).nextSolid? =
      (⟨mode, offset + byteLength inserted, rest⟩ : Cursor).nextSolid? :=
  nextSolid?_of_gap (h.gap outside rest) offset

theorem enter_jump {c : Cursor} {mode : Mode} (h : (c.enter mode).mode = .jump) :
    c.mode = .jump ∨ mode = .jump := by
  cases mode with
  | normal => exact .inl h
  | hex =>
    have entered : c.enterHex.mode = .jump := h
    unfold enterHex at entered
    split at entered
    · cases entered
    · exact .inl entered
  | jump => exact .inr rfl

/-- Only behind a token of a jump the tokenizer is in one. -/
theorem nextSolid?_jump {c after : Cursor} {t : Token} (h : c.nextSolid? = some (t, after))
    (jump : after.mode = .jump) :
    t.kind.isOfJump := by
  revert h
  refine nextSolid?_induct (motive := fun _ o => o = some (t, after) → t.kind.isOfJump)
    (fun _ _ => nofun) (fun _ _ _ _ _ ih => ih) ?_ c
  rintro c _ _ read meant ⟨⟩
  cases reading : c.mode.read c.rest with
  | mk mode l =>
    rw [next?_of_read (rest_ne_nil read) reading] at read
    cases read
    obtain rfl : mode = .jump := jump
    exact Lexeme.jump?_kind_isOfJump (Mode.read_jump reading) meant

end Cursor

end RuleDesk
