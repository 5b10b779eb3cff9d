import RuleDesk.Proofs.Lexing.Boundaries
import RuleDesk.Proofs.Lexing.Loose

namespace RuleDesk

/-! ## White space and comments

White space is read a run at a time, but a run that is cut into two is passed
like the whole one. So what stands before a token with a meaning is passed
character by character and comment by comment. -/

theorem byteLength_of_all_white {ws : List Char} (h : ws.all isWhite) :
    byteLength ws = ws.length := by
  induction ws with
  | nil => rfl
  | cons c ws ih =>
    obtain ⟨white, rest⟩ := Bool.and_eq_true_iff.mp h
    have one : byteLength (c :: ws) = 1 + byteLength ws := by
      rcases isWhite_cases white with rfl | rfl | rfl | rfl <;> rfl
    rw [one, ih rest, List.length_cons, Nat.add_comm]

namespace Lexeme

variable {c : Char} {cs : List Char} {l : Lexeme}

theorem white_read (h : isWhite c) (cs : List Char) :
    ∃ l, (newline? (c :: cs)).or (blank? (c :: cs)) = some l ∧ l.kind.isTrivia ∧
    0 < l.size ∧ ((c :: cs).take l.size).all isWhite := by
  by_cases blank : (c == ' ' || c == '\t') = true
  · have others : c ≠ '\r' ∧ c ≠ '\n' := by
      constructor <;> rintro rfl <;> cases blank
    have run : runLength (fun c => c == ' ' || c == '\t') (c :: cs) =
      runLength (fun c => c == ' ' || c == '\t') cs + 1 :=
      if_pos blank
    refine ⟨⟨.blank, runLength (fun c => c == ' ' || c == '\t') (c :: cs)⟩, ?_, rfl, ?_, ?_⟩
    · rw [newline?_eq_none.mpr others, Option.none_or, blank?, run]
      rfl
    · exact run ▸ Nat.succ_pos _
    · have all : ∀ ds :
          List Char, (ds.take (runLength (fun c => c == ' ' || c == '\t') ds)).all isWhite := by
        intro ds
        induction ds with
        | nil => rfl
        | cons d ds ih =>
          rw [runLength]
          split
          · rename_i white
            rw [List.take_succ_cons, List.all_cons, ih, Bool.and_true, isWhite, Bool.or_assoc,
              Bool.or_eq_true]
            exact .inl white
          · rfl
      exact all _
  · rcases isWhite_cases h with rfl | rfl | rfl | rfl
    · exact (blank rfl).elim
    · exact (blank rfl).elim
    · cases cs with
      | nil => exact ⟨_, rfl, rfl, by decide, rfl⟩
      | cons d cs =>
        by_cases feed : d = '\n'
        · subst feed
          exact ⟨_, rfl, rfl, by decide, rfl⟩
        · refine ⟨⟨.newline, 1⟩, ?_, rfl, by decide, rfl⟩
          simp [newline?, feed]
    · exact ⟨_, rfl, rfl, by decide, rfl⟩

theorem normal_white (h : isWhite c) :
    some (normal (c :: cs)) = (newline? (c :: cs)).or (blank? (c :: cs)) := by
  obtain ⟨l, read, _⟩ := white_read h cs
  have others : word? (c :: cs) = none ∧ number? (c :: cs) = none ∧ symbol? (c :: cs) = none ∧
      sigil? (c :: cs) = none ∧ string? (c :: cs) = none ∧ slash? (c :: cs) = none := by
    rcases isWhite_cases h with rfl | rfl | rfl | rfl <;>
      exact ⟨rfl, number?_of_not_digit rfl _, rfl, rfl, rfl, rfl⟩
  obtain ⟨word, number, symbol, sigil, string, slash⟩ := others
  rw [normal, word, number, symbol, sigil, string, slash, read]
  simp only [Option.none_or, Option.getD_some]

theorem hex?_white (h : isWhite c) :
    hex? (c :: cs) = (newline? (c :: cs)).or (blank? (c :: cs)) := by
  have others : c ≠ '~' ∧ isHexByteChar c = false ∧ hexSymbol? (c :: cs) = none ∧
      hexComment? (c :: cs) = none := by
    rcases isWhite_cases h with rfl | rfl | rfl | rfl <;> exact ⟨by decide, rfl, rfl, rfl⟩
  obtain ⟨tilde, byte, symbol, comment⟩ := others
  rw [hex?, hexByte?_plain _ tilde, byte, symbol, comment]
  rfl

theorem jump?_white (h : isWhite c) :
    jump? (c :: cs) = (newline? (c :: cs)).or (blank? (c :: cs)) := by
  have others : jumpHyphen? (c :: cs) = none ∧ jumpInteger? (c :: cs) = none := by
    rcases isWhite_cases h with rfl | rfl | rfl | rfl <;> exact ⟨rfl, rfl⟩
  obtain ⟨hyphen, integer⟩ := others
  rw [jump?, hyphen, integer]
  rfl

end Lexeme

/-- White space is read in every mode and leaves it as it is. -/
theorem Mode.read_white (mode : Mode) {c : Char} (h : isWhite c) (cs : List Char) :
    ∃ l, mode.read (c :: cs) = (mode, l) ∧ l.kind.isTrivia ∧ 0 < l.size ∧
      ((c :: cs).take l.size).all isWhite := by
  obtain ⟨l, read, facts⟩ := Lexeme.white_read h cs
  refine ⟨l, ?_, facts⟩
  cases mode with
  | normal => rw [Mode.read, Option.some.inj ((Lexeme.normal_white h).trans read)]
  | hex => rw [Mode.read, Lexeme.hex?_white h, read]
  | jump => rw [Mode.read, Lexeme.jump?_white h, read]

namespace Cursor

/-- White space before a token is passed. -/
theorem nextSolid?_whites (mode : Mode) (offset : Nat) {ws : List Char} (h : ws.all isWhite)
    (rest : List Char) :
    (⟨mode, offset, ws ++ rest⟩ : Cursor).nextSolid? =
    (⟨mode, offset + byteLength ws, rest⟩ : Cursor).nextSolid? := by
  induction size : (ws ++ rest).length using Nat.strongRecOn generalizing offset ws rest with
  | _ size ih =>
    subst size
    cases ws with
    | nil => rfl
    | cons c ws =>
      obtain ⟨white, whites⟩ := Bool.and_eq_true_iff.mp h
      obtain ⟨l, read, trivia, some_size, taken⟩ := mode.read_white white (ws ++ rest)
      have first : (⟨mode, offset, c :: (ws ++ rest)⟩ : Cursor).next? = _ :=
        next?_of_read (List.cons_ne_nil _ _) read
      rw [List.cons_append, nextSolid?_of_trivia first trivia]
      obtain ⟨n, count⟩ := Nat.exists_eq_add_one.mpr some_size
      simp only [count, List.take_succ_cons, List.drop_succ_cons, List.all_cons, white,
        Bool.true_and] at taken ⊢
      show (⟨mode, offset + byteLength (c :: (ws ++ rest).take n), (ws ++ rest).drop n⟩ :
        Cursor).nextSolid? = _
      -- the run that was read ends within the white space or goes on behind it
      rcases Nat.le_total n ws.length with le | le
      · rw [List.take_append_of_le_length le] at taken ⊢
        rw [List.drop_append_of_le_length le]
        have rest_white : (ws.drop n).all isWhite := by
          rw [← List.take_append_drop n ws, List.all_append, Bool.and_eq_true] at whites
          exact whites.2
        rw [ih _ (by simp only [List.length_append, List.length_drop, List.length_cons]; omega) _
          rest_white rest rfl,
          Nat.add_assoc, ← byteLength_append, List.cons_append, List.take_append_drop]
      · have split : (ws ++ rest).take n = ws ++ rest.take (n - ws.length) := by
          rw [List.take_append, List.take_of_length_le le]
        have split' : (ws ++ rest).drop n = rest.drop (n - ws.length) := by
          rw [List.drop_append, List.drop_of_length_le le, List.nil_append]
        rw [split, List.all_append, Bool.and_eq_true] at taken
        have known := ih rest.length (by simp only [List.length_append, List.length_cons]; omega)
          (offset + byteLength (c :: ws)) taken.2 (rest.drop (n - ws.length))
            (by rw [List.take_append_drop])
        rw [List.take_append_drop] at known
        rw [known, split, split', ← List.cons_append, byteLength_append, Nat.add_assoc]

theorem nextSolid?_white (mode : Mode) (offset : Nat) {c : Char} (h : isWhite c)
    (rest : List Char) :
    (⟨mode, offset, c :: rest⟩ : Cursor).nextSolid? =
    (⟨mode, offset + 1, rest⟩ : Cursor).nextSolid? := by
  have single : [c].all isWhite := by rw [List.all_cons, h]; rfl
  rw [← List.singleton_append, nextSolid?_whites mode offset single, byteLength_of_all_white single]
  rfl

end Cursor

/-! ### Comments -/

namespace Lexeme

variable {c : Char} {cs : List Char}

theorem normal_block : normal ('/' :: '*' :: cs) = match closeComment? cs with
    | some n => ⟨.comment, n + 2⟩
    | none => ⟨.unknown, cs.length + 2⟩ := by
  rw [normal_slash, slash?]
  cases closeComment? cs <;> rfl

theorem hex?_slash : hex? ('/' :: cs) = hexComment? ('/' :: cs) := by
  have white : (newline? ('/' :: cs)).or (blank? ('/' :: cs)) = none := by
    rw [newline?_eq_none.mpr (by decide), blank?_eq_none.mpr (by decide)]
    rfl
  rw [hex?, hexByte?_plain _ (by decide), white, Option.or_none]
  rfl

theorem jump?_slash : jump? ('/' :: cs) = none := by
  have integer : jumpInteger? ('/' :: cs) = none := by
    rw [jumpInteger?, prefixed?_other _ (by decide)]
    rfl
  rw [jump?, integer, newline?_eq_none.mpr (by decide), blank?_eq_none.mpr (by decide)]
  rfl

/-- A comment that is closed is closed by its own text. -/
theorem closeComment?_own {body rest : List Char} :
    closeComment? (body ++ rest) = some body.length ↔ closeComment? body = some body.length := by
  constructor
  · intro closed
    have own := closeComment?_take closed []
    rwa [List.take_left, List.append_nil] at own
  · intro closed
    have whole := closeComment?_take closed rest
    rwa [List.take_length] at whole

theorem closeHexComment?_own {body rest : List Char} :
    closeHexComment? (body ++ rest) = some body.length ↔
      closeHexComment? body = some body.length := by
  constructor
  · intro closed
    have own := closeHexComment?_take closed []
    rwa [List.take_left, List.append_nil] at own
  · intro closed
    have whole := closeHexComment?_take closed rest
    rwa [List.take_length] at whole

theorem runLength_line {body : List Char} (single : '\n' ∉ body) (rest : List Char) :
    runLength (· != '\n') (body ++ '\n' :: rest) = body.length := by
  have all : body.all (· != '\n') :=
    List.all_eq_true.mpr fun c member => bne_iff_ne.mpr fun newline => single (newline ▸ member)
  exact runLength_of_all all _

end Lexeme

/-- The mode that reads a comment where a mode meets one. -/
def Mode.commenting : Mode → Mode
  | .normal => .normal
  | .hex | .jump => .hex

namespace Mode

theorem read_line (mode : Mode) (cs : List Char) :
    mode.read ('/' :: '/' :: cs) = (mode.commenting, ⟨.comment, runLength (· != '\n') cs + 2⟩) := by
  cases mode with
  | normal => rw [read, Lexeme.normal_slash]; rfl
  | hex => rw [read, Lexeme.hex?_slash]; rfl
  | jump => rw [read, Lexeme.jump?_slash, Lexeme.hex?_slash]; rfl

/-- Inside of a hex pattern a comment is closed in its own way. One that is not
closed so ends the pattern and is read once more. -/
theorem read_block (mode : Mode) (cs : List Char) : mode.read ('/' :: '*' :: cs) =
    if mode = .normal then (.normal, Lexeme.normal ('/' :: '*' :: cs))
    else match Lexeme.closeHexComment? cs with
      | some n => (.hex, ⟨.comment, n + 2⟩)
      | none => (.normal, Lexeme.normal ('/' :: '*' :: cs)) := by
  have comment : Lexeme.hex? ('/' :: '*' :: cs) = (Lexeme.closeHexComment? cs).map fun n =>
    ⟨.comment, n + 2⟩ :=
    Lexeme.hex?_slash
  cases mode with
  | normal => rfl
  | hex =>
    rw [if_neg (by decide), read, comment]
    cases Lexeme.closeHexComment? cs <;> rfl
  | jump =>
    rw [if_neg (by decide), read, Lexeme.jump?_slash]
    dsimp only
    rw [comment]
    cases Lexeme.closeHexComment? cs <;> rfl

end Mode

/-- How white space and comments start. -/
def StartsTrivia (c : Char) (cs : List Char) : Prop :=
  isWhite c ∨ c = '/' ∧ (cs.head? = some '/' ∨ cs.head? = some '*')

namespace Lexeme

variable {c : Char} {cs : List Char} {l : Lexeme}

theorem white_starts (h : (newline? (c :: cs)).or (blank? (c :: cs)) = some l) : isWhite c := by
  by_contra other
  simp only [isWhite, Bool.or_eq_true, not_or, beq_iff_eq] at other
  obtain ⟨⟨⟨space, tab⟩, carriage⟩, feed⟩ := other
  rw [newline?_eq_none.mpr ⟨carriage, feed⟩, blank?_eq_none.mpr (by simp [space, tab])] at h
  cases h

theorem regexp?_kind (h : regexp? cs = some l) : ¬ l.kind.isTrivia := by
  rw [regexp?_eq] at h
  dsimp only at h
  split at h
  · cases h
  · split at h <;> cases h <;> exact nofun

theorem slash?_starts (h : slash? (c :: cs) = some l) (trivia : l.kind.isTrivia) :
    StartsTrivia c cs := by
  by_cases slash : c = '/'
  · subst slash
    rw [slash?_eq] at h
    split at h
    · exact .inr ⟨rfl, .inl ‹_›⟩
    split at h
    · exact .inr ⟨rfl, .inr ‹_›⟩
    · exact (regexp?_kind h trivia).elim
  · rw [slash?_other _ slash] at h
    cases h

theorem normal_starts (trivia : (normal (c :: cs)).kind.isTrivia) : StartsTrivia c cs := by
  cases normal_readBy (c :: cs) with
  | slash read => exact slash?_starts read trivia
  | white read => exact .inl (white_starts read)
  | word _ kind =>
    cases same : (normal (c :: cs)).kind <;> simp [same, Kind.isWord, Kind.isTrivia] at kind trivia
  | number _ kind | string _ kind =>
    rcases kind with kind | kind <;> rw [kind] at trivia <;> cases trivia
  | symbol _ kind | sigil _ kind =>
    obtain ⟨_, kind⟩ := kind
    rw [kind] at trivia
    cases trivia
  | unknown kind =>
    rw [kind] at trivia
    cases trivia

theorem hex?_starts (h : hex? (c :: cs) = some l) (trivia : l.kind.isTrivia) :
    StartsTrivia c cs := by
  rcases Option.or_eq_some_iff.mp h with byte | ⟨_, h⟩
  · by_cases tilde : c = '~'
    · subst tilde
      rw [hexByte?_tilde] at byte
      split at byte <;> cases byte
      cases trivia
    · rw [hexByte?_plain _ tilde] at byte
      split at byte <;> cases byte
      cases trivia
  rcases Option.or_eq_some_iff.mp h with symbol | ⟨_, h⟩
  · unfold hexSymbol? at symbol
    split at symbol <;> cases symbol <;> cases trivia
  rcases Option.or_eq_some_iff.mp h with comment | ⟨_, white⟩
  · unfold hexComment? at comment
    split at comment
    · rename_i eq
      cases eq
      exact .inr ⟨rfl, .inl rfl⟩
    · rename_i eq
      cases eq
      exact .inr ⟨rfl, .inr rfl⟩
    · cases comment
  · exact .inl (white_starts white)

theorem jump?_starts (h : jump? (c :: cs) = some l) (trivia : l.kind.isTrivia) :
    StartsTrivia c cs := by
  rcases Option.or_eq_some_iff.mp h with hyphen | ⟨_, h⟩
  · unfold jumpHyphen? at hyphen
    split at hyphen <;> cases hyphen
    cases trivia
  rcases Option.or_eq_some_iff.mp h with integer | ⟨_, white⟩
  · have kind : l.kind = .integer := by
      rcases Option.or_eq_some_iff.mp integer with based | ⟨_, digits⟩
      · unfold prefixed? at based
        dsimp only at based
        split at based <;> (try split at based) <;> cases based <;> rfl
      · dsimp only at digits
        split at digits <;> cases digits
        rfl
    rw [kind] at trivia
    cases trivia
  · exact .inl (white_starts white)

end Lexeme

theorem Mode.read_starts (mode : Mode) {c : Char} {cs : List Char}
    (trivia : (mode.read (c :: cs)).2.kind.isTrivia) :
    StartsTrivia c cs := by
  have hex : (Mode.hex.read (c :: cs)).2.kind.isTrivia → StartsTrivia c cs := by
    intro trivia
    rw [read] at trivia
    cases found : Lexeme.hex? (c :: cs) with
    | some l =>
      rw [found] at trivia
      exact Lexeme.hex?_starts found trivia
    | none =>
      rw [found] at trivia
      exact Lexeme.normal_starts trivia
  cases mode with
  | normal => exact Lexeme.normal_starts trivia
  | hex => exact hex trivia
  | jump =>
    cases found : Lexeme.jump? (c :: cs) with
    | some l =>
      rw [read, found] at trivia
      exact Lexeme.jump?_starts found trivia
    | none =>
      rw [read, found] at trivia
      exact hex trivia

/-- Text that is passed before some other text. What is read from one mode is
left in another one. -/
inductive Gap (follow : List Char) : Mode → List Char → Mode → Prop
  | nothing (mode : Mode) : Gap follow mode [] mode
  | white {mode mode' : Mode} {c : Char} {rest : List Char} (h : isWhite c)
    (later : Gap follow mode rest mode') :
    Gap follow mode (c :: rest) mode'
  | line {mode mode' : Mode} {body rest : List Char} (single : '\n' ∉ body)
      (later : Gap follow mode.commenting ('\n' :: rest) mode') :
      Gap follow mode ('/' :: '/' :: (body ++ '\n' :: rest)) mode'
  | block {mode mode' : Mode} {body rest : List Char}
      (closed : Lexeme.closeComment? body = some body.length)
      (left : mode ≠ .normal → Lexeme.closeHexComment? (body ++ (rest ++ follow)) = none)
      (later : Gap follow .normal rest mode') : Gap follow mode ('/' :: '*' :: (body ++ rest)) mode'
  | hexBlock {mode mode' : Mode} {body rest : List Char} (inside : mode ≠ .normal)
      (closed : Lexeme.closeHexComment? body = some body.length)
      (later : Gap follow .hex rest mode') :
    Gap follow mode ('/' :: '*' :: (body ++ rest)) mode'

theorem Gap.whites {follow gap ws : List Char} {mode mode' : Mode} (h : Gap follow mode gap mode')
    (white : ws.all isWhite) :
    Gap follow mode (ws ++ gap) mode' := by
  induction ws with
  | nil => exact h
  | cons c ws ih =>
    obtain ⟨first, later⟩ := Bool.and_eq_true_iff.mp white
    exact .white first (ih later)

/-- The text of a comment that is left behind it. -/
theorem exists_body {cs gap follow : List Char} {n : Nat} (fits : n ≤ cs.length)
    (rest : ('/' :: '*' :: cs).drop (n + 2) = gap ++ follow) :
    ∃ body, cs = body ++ (gap ++ follow) ∧ body.length = n :=
  ⟨cs.take n, by rw [← rest]; exact (List.take_append_drop n cs).symm, List.length_take_of_le fits⟩

theorem runLength_split (p : Char → Bool) (cs : List Char) :
    ∃ front rest, cs = front ++ rest ∧ front.length = runLength p cs ∧
    front.all p ∧ rest.head?.any p = false := by
  induction cs with
  | nil => exact ⟨[], [], rfl, rfl, rfl, rfl⟩
  | cons c cs ih =>
    rw [runLength]
    split
    · rename_i taken
      obtain ⟨front, rest, rfl, size, all, head⟩ := ih
      exact ⟨c :: front, rest, rfl,
        congrArg (· + 1) size, by rw [List.all_cons, taken, all]; rfl, head⟩
    · rename_i refused
      exact ⟨[], c :: cs, rfl, rfl, rfl, Bool.eq_false_iff.mpr refused⟩

namespace Cursor

variable {mode mode' : Mode} {rest : List Char}

theorem nextSolid?_comment {front : List Char} (nonempty : front ≠ []) (offset : Nat)
    (h : mode.read (front ++ rest) = (mode', ⟨.comment, front.length⟩)) :
    (⟨mode, offset, front ++ rest⟩ : Cursor).nextSolid? =
    (⟨mode', offset + byteLength front, rest⟩ : Cursor).nextSolid? := by
  have first : (⟨mode, offset, front ++ rest⟩ : Cursor).next? = _ :=
    next?_of_read (List.append_ne_nil_of_left_ne_nil nonempty _) h
  rw [nextSolid?_of_trivia first rfl]
  simp only [List.take_left, List.drop_left]
  rfl

/-- What stands before a token is passed. -/
theorem nextSolid?_of_gap {follow gap : List Char} (h : Gap follow mode gap mode') (offset : Nat) :
    (⟨mode, offset, gap ++ follow⟩ : Cursor).nextSolid? =
    (⟨mode', offset + byteLength gap, follow⟩ : Cursor).nextSolid? := by
  induction h generalizing offset with
  | nothing => rfl
  | @white mode mode' c rest white _ ih =>
    have one : byteLength [c] = 1 :=
      byteLength_of_all_white (show [c].all isWhite by rw [List.all_cons, white]; rfl)
    rw [List.cons_append, nextSolid?_white mode offset white, ih, ← List.singleton_append,
      byteLength_append, one, Nat.add_assoc]
  | @line mode mode' body rest single _ ih =>
    have comment : mode.read (('/' :: '/' :: body) ++ '\n' :: (rest ++ follow)) =
        (mode.commenting, ⟨.comment, body.length + 2⟩) := by
      rw [List.cons_append, List.cons_append, Mode.read_line, Lexeme.runLength_line single]
    have passed := nextSolid?_comment (List.cons_ne_nil _ _) offset comment
    rw [← List.cons_append, ih, Nat.add_assoc, ← byteLength_append] at passed
    simpa only [List.cons_append, List.append_assoc] using passed
  | @block mode mode' body rest closed left _ ih =>
    have comment : mode.read (('/' :: '*' :: body) ++ (rest ++ follow)) =
        (.normal, ⟨.comment, body.length + 2⟩) := by
      have normal : Lexeme.normal ('/' :: '*' :: (body ++ (rest ++ follow))) =
          ⟨.comment, body.length + 2⟩ := by
        rw [Lexeme.normal_block, Lexeme.closeComment?_own.mpr closed]
      rw [List.cons_append, List.cons_append, Mode.read_block, normal]
      split
      · rfl
      · rw [left ‹_›]
    have passed := nextSolid?_comment (List.cons_ne_nil _ _) offset comment
    rw [ih, Nat.add_assoc, ← byteLength_append] at passed
    simpa only [List.cons_append, List.append_assoc] using passed
  | @hexBlock mode mode' body rest inside closed _ ih =>
    have comment : mode.read (('/' :: '*' :: body) ++ (rest ++ follow)) =
        (.hex, ⟨.comment, body.length + 2⟩) := by
      rw [List.cons_append, List.cons_append, Mode.read_block, if_neg inside,
        Lexeme.closeHexComment?_own.mpr closed]
    have passed := nextSolid?_comment (List.cons_ne_nil _ _) offset comment
    rw [ih, Nat.add_assoc, ← byteLength_append] at passed
    simpa only [List.cons_append, List.append_assoc] using passed

/-- No white space is at the front of a token with a meaning. -/
theorem next?_not_white {c after : Cursor} {t : Token} (h : c.next? = some (t, after))
    (meant : ¬ t.kind.isTrivia) :
    c.rest.head?.any isWhite = false := by
  obtain ⟨first, others, chars⟩ := List.exists_cons_of_ne_nil (rest_ne_nil h)
  rw [chars]
  refine Bool.eq_false_iff.mpr fun white => meant ?_
  obtain ⟨l, read, trivia, _⟩ := c.mode.read_white white others
  rw [next?_of_read (rest_ne_nil h) (chars ▸ read)] at h
  cases h
  exact trivia

end Cursor

/-- A comment before a gap. What follows the gap is no white space, so that the
end of a line is within it. -/
theorem Gap.comment {mode mode' mode'' : Mode} {cs gap follow : List Char} {l : Lexeme}
    (passed : Gap follow mode' gap mode'')
    (solid : follow ≠ [] ∧ follow.head?.any isWhite = false)
    (reading : mode.read ('/' :: cs) = (mode', l)) (trivia : l.kind.isTrivia)
    (starts : cs.head? = some '/' ∨ cs.head? = some '*')
    (rest : ('/' :: cs).drop l.size = gap ++ follow) :
    Gap follow mode (('/' :: cs).take l.size ++ gap) mode'' := by
  obtain ⟨second, cs, rfl⟩ : ∃ second more, cs = second :: more := by
    cases cs with
    | nil => simp at starts
    | cons second more => exact ⟨second, more, rfl⟩
  rcases starts with ⟨⟨⟩⟩ | ⟨⟨⟩⟩
  · rw [Mode.read_line] at reading
    cases reading
    obtain ⟨body, tail, rfl, size, all, head⟩ := runLength_split (· != '\n') cs
    dsimp only at rest ⊢
    rw [← size] at rest ⊢
    rw [List.drop_succ_cons, List.drop_succ_cons, List.drop_left] at rest
    rw [List.take_succ_cons, List.take_succ_cons, List.take_left]
    subst rest
    have single : '\n' ∉ body := fun member => absurd (List.all_eq_true.mp all _ member) (by decide)
    cases gap with
    | nil =>
      obtain ⟨d, follow, rfl⟩ := List.exists_cons_of_ne_nil solid.1
      have newline : d = '\n' := by simpa using head
      subst newline
      exact nomatch solid.2
    | cons d gap =>
      have newline : d = '\n' := by simpa using head
      subst newline
      exact .line single passed
  · rw [Mode.read_block] at reading
    have normal : mode' = .normal → l = Lexeme.normal ('/' :: '*' :: cs) →
        (mode ≠ .normal → Lexeme.closeHexComment? cs = none) →
          Gap follow mode (('/' :: '*' :: cs).take l.size ++ gap) mode'' := by
      rintro rfl rfl left
      rw [Lexeme.normal_block] at trivia rest ⊢
      cases closed : Lexeme.closeComment? cs with
      | none =>
        rw [closed] at trivia
        cases trivia
      | some n =>
        rw [closed] at rest
        obtain ⟨body, rfl, rfl⟩ := exists_body (Lexeme.closeComment?_le closed) rest
        rw [List.take_succ_cons, List.take_succ_cons, List.take_left]
        exact .block (Lexeme.closeComment?_own.mp closed) left passed
    split at reading
    · cases reading
      exact normal rfl rfl fun other => absurd ‹_› other
    cases closed : Lexeme.closeHexComment? cs with
    | none =>
      rw [closed] at reading
      cases reading
      exact normal rfl rfl fun _ => closed
    | some n =>
      rw [closed] at reading
      cases reading
      obtain ⟨body, rfl, rfl⟩ := exists_body (Lexeme.closeHexComment?_le closed) rest
      rw [List.take_succ_cons, List.take_succ_cons, List.take_left]
      exact .hexBlock ‹_› (Lexeme.closeHexComment?_own.mp closed) passed

namespace Cursor

/-- What stands before a token with a meaning is a gap. -/
theorem gap_of_nextSolid? {c after : Cursor} {t : Token} (h : c.nextSolid? = some (t, after)) :
    ∃ gap mode, c.rest = gap ++ (t.text ++ after.rest) ∧ t.start = c.offset + byteLength gap ∧
      Gap (t.text ++ after.rest) c.mode gap mode ∧ ¬ t.kind.isTrivia ∧
      (⟨mode, t.start, t.text ++ after.rest⟩ : Cursor).next? = some (t, after) := by
  revert h
  refine nextSolid?_induct (motive := fun c o => o = some (t, after) →
    ∃ gap mode, c.rest = gap ++ (t.text ++ after.rest) ∧
    t.start = c.offset + byteLength gap ∧ Gap (t.text ++ after.rest) c.mode gap mode ∧
      ¬ t.kind.isTrivia ∧
    (⟨mode, t.start, t.text ++ after.rest⟩ : Cursor).next? = some (t, after)) ?_ ?_ ?_ c
  · exact fun _ _ => nofun
  · intro c u mid read trivia ih found
    obtain ⟨gap, mode, rest, start, passed, meant, last⟩ := ih found
    obtain ⟨_, place, stop, text⟩ := next?_eq_some read
    suffices Gap (t.text ++ after.rest) c.mode (u.text ++ gap) mode from
      ⟨u.text ++ gap, mode, by rw [text, rest, List.append_assoc], by
        rw [start, stop, Token.stop, place, byteLength_append, Nat.add_assoc], this, meant, last⟩
    obtain ⟨first, others, chars⟩ := List.exists_cons_of_ne_nil (rest_ne_nil read)
    cases reading : c.mode.read c.rest with
    | mk mode' l =>
      rw [next?_of_read (rest_ne_nil read) reading] at read
      cases read
      dsimp only at rest passed trivia ⊢
      rw [chars] at reading rest ⊢
      rcases c.mode.read_starts (by rw [reading]; exact trivia) with white | ⟨rfl, comment⟩
      · obtain ⟨l', read', _, _, whites⟩ := c.mode.read_white white others
        rw [reading] at read'
        cases read'
        exact passed.whites whites
      · exact passed.comment ⟨rest_ne_nil last, next?_not_white last meant⟩ reading trivia
          comment rest
  · rintro c _ _ read meant ⟨⟩
    obtain ⟨_, place, _, text⟩ := next?_eq_some read
    refine ⟨[], c.mode, text, place, .nothing _, meant, ?_⟩
    rw [← text, place]
    exact read

end Cursor

/-! ### What a gap needs of the text behind it -/

namespace Gap

variable {follow follow' gap more : List Char} {mode mode' : Mode}

/-- The text behind a gap matters only if it closes a comment that a hex pattern
leaves open. -/
theorem refollow (h : Gap follow mode gap mode')
    (left : ∀ front body, gap = front ++ '/' :: '*' :: body →
      Lexeme.closeHexComment? (body ++ follow) = none →
      Lexeme.closeHexComment? (body ++ follow') = none) : Gap follow' mode gap mode' := by
  induction h with
  | nothing mode => exact .nothing mode
  | @white mode mode' c rest white _ ih =>
    exact .white white (ih fun front body split => left (c :: front) body (split ▸ rfl))
  | @line mode mode' body rest single _ ih =>
    refine .line single (ih fun front inner split => left ('/' :: '/' :: (body ++ front)) inner ?_)
    rw [split, List.cons_append, List.cons_append, List.append_assoc]
  | @block mode mode' body rest closed open_ _ ih =>
    refine .block closed (fun inside => ?_)
      (ih fun front inner split => left ('/' :: '*' :: (body ++ front)) inner ?_)
    · rw [← List.append_assoc]
      exact left [] (body ++ rest) rfl (by rw [List.append_assoc]; exact open_ inside)
    · rw [split, List.cons_append, List.cons_append, List.append_assoc]
  | @hexBlock mode mode' body rest inside closed _ ih =>
    refine .hexBlock inside closed
      (ih fun front inner split => left ('/' :: '*' :: (body ++ front)) inner ?_)
    rw [split, List.cons_append, List.cons_append, List.append_assoc]

end Gap

/-- Text without a meaning: white space, comments up to the end of their line and
comments that are closed. -/
inductive Trivia : List Char → Prop
  | nothing : Trivia []
  | white {c : Char} {rest : List Char} (h : isWhite c) (later : Trivia rest) : Trivia (c :: rest)
  | line {body rest : List Char} (single : '\n' ∉ body) (later : Trivia rest) :
      Trivia ('/' :: '/' :: (body ++ '\n' :: rest))
  | block {body rest : List Char} (closed : Lexeme.closeComment? body = some body.length)
    (later : Trivia rest) :
    Trivia ('/' :: '*' :: (body ++ rest))

theorem Trivia.loose {inserted : List Char} (h : Trivia inserted) (nonempty : inserted ≠ [])
    (more : List Char) :
    Loose (inserted ++ more) := by
  cases h with
  | nothing => exact (nonempty rfl).elim
  | white white => exact .white _ white
  | line => exact .line _
  | block => exact .block _

/-- Outside of a hex pattern such a text makes a gap longer. -/
theorem Trivia.gap {inserted gap follow : List Char} {mode : Mode} (h : Trivia inserted)
    (later : Gap follow .normal gap mode) :
    Gap follow .normal (inserted ++ gap) mode := by
  induction h with
  | nothing => exact later
  | white white _ ih => exact .white white ih
  | line single _ ih =>
    rw [List.cons_append, List.cons_append, List.append_assoc]
    exact .line single (.white rfl ih)
  | block closed _ ih =>
    rw [List.cons_append, List.cons_append, List.append_assoc]
    exact .block closed (fun inside => (inside rfl).elim) ih

/-- What is passed outside of a hex pattern is without a meaning wherever it stands. -/
theorem Gap.trivia {gap follow : List Char} {mode mode' : Mode} (h : Gap follow mode gap mode')
    (normal : mode = .normal) :
    Trivia gap ∧ mode' = .normal := by
  induction h with
  | nothing => exact ⟨.nothing, normal⟩
  | white white _ ih => exact ⟨.white white (ih normal).1, (ih normal).2⟩
  | line single _ ih =>
    subst normal
    obtain ⟨later, last⟩ := ih rfl
    cases later with
    | white _ later => exact ⟨.line single later, last⟩
  | block closed _ _ ih => exact ⟨.block closed (ih rfl).1, (ih rfl).2⟩
  | hexBlock inside => exact (inside normal).elim

namespace Cursor

/-- Outside of a hex pattern such a text is passed. -/
theorem nextSolid?_trivia {inserted : List Char} (h : Trivia inserted) (offset : Nat)
    (rest : List Char) :
    (⟨.normal, offset, inserted ++ rest⟩ : Cursor).nextSolid? =
    (⟨.normal, offset + byteLength inserted, rest⟩ : Cursor).nextSolid? := by
  have gap := h.gap (.nothing .normal : Gap rest .normal [] .normal)
  rw [List.append_nil] at gap
  exact nextSolid?_of_gap gap offset

/-- A whole token within a text is read where the text ends loosely. -/
theorem next?_loose {mode : Mode} {offset : Nat} {after : Cursor} {t : Token}
    {front last last' more : List Char}
    (h : (⟨mode, offset, front ++ last⟩ : Cursor).next? = some (t, after)) (whole : t.kind.isWhole)
    (fits : t.text <+: front) (loose : Loose last') (offset' : Nat)
    (rest : front ++ last' = t.text ++ more) :
    (⟨mode, offset', t.text ++ more⟩ : Cursor).next? =
      some (⟨t.kind, offset', t.text⟩, ⟨after.mode, offset' + byteLength t.text, more⟩) := by
  cases reading : mode.read (front ++ last) with
  | mk mode' l =>
    have size := (mode.read_fits (rest_ne_nil h)).2
    have nonempty := (next?_eq_some h).1
    rw [next?_of_read (rest_ne_nil h) reading] at h
    cases h
    rw [reading] at size
    have length : ((front ++ last).take l.size).length = l.size := List.length_take_of_le size
    have same := mode.read_loose loose (by rw [reading]; exact whole)
      (fun empty => nonempty (List.prefix_nil.mp (empty ▸ fits)))
        (by rw [reading, ← length]; exact fits.length_le)
    rw [rest, reading] at same
    have read := next?_of_read (c := ⟨mode, offset', (front ++ last).take l.size ++ more⟩)
      (List.append_ne_nil_of_left_ne_nil nonempty _) same
    rw [List.take_left' length, List.drop_left' length] at read
    exact read

/-- Behind another gap and before another text the next token is the same one. -/
theorem nextSolid?_relaid {c after : Cursor} {t : Token} {front last last' more : List Char}
    (gap' : List Char) (h : c.nextSolid? = some (t, after))
    (whole : t.kind.isWhole) (text : t.text ++ after.rest = front ++ last)
    (text' : front ++ last' = t.text ++ more) (fits : t.text <+: front) (loose : Loose last')
    (gaps : ∀ gap mode, c.rest = gap ++ (t.text ++ after.rest) →
      Gap (t.text ++ after.rest) c.mode gap mode →
      Gap (t.text ++ more) c.mode gap' mode) (offset' : Nat) :
    (⟨c.mode, offset', gap' ++ (t.text ++ more)⟩ : Cursor).nextSolid? =
      some (⟨t.kind, offset' + byteLength gap', t.text⟩,
        ⟨after.mode, offset' + byteLength gap' + byteLength t.text, more⟩) := by
  obtain ⟨gap, mode, rest, start, passed, meant, last⟩ := gap_of_nextSolid? h
  rw [nextSolid?_of_gap (gaps gap mode rest passed)]
  refine nextSolid?_of_solid ?_ meant
  rw [text] at last
  exact next?_loose last whole fits loose _ text'

end Cursor

end RuleDesk
