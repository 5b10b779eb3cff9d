import RuleDesk.Proofs.Parsing.HexGrammar
import RuleDesk.Proofs.Parsing.HexRecovery

namespace RuleDesk

/-! ## The hex patterns that are read without an error

A pattern is read in one mode, and its jumps in another one. As long as nothing is
reported, what is left of the text decides what may still follow. -/

namespace Lexeme

theorem hex?_mark {c : Char} {cs : List Char} {l : Lexeme} (mark : hexSymbol? (c :: cs) = some l) :
    hex? (c :: cs) = some l := by
  have no_byte : hexByte? (c :: cs) = none := by
    unfold hexSymbol? at mark
    split at mark <;> rename_i same <;>
      first
      | (cases same; rw [hexByte?_plain _ (by decide)]; rfl)
      | cases mark
  rw [hex?, no_byte, mark]
  rfl

/-- A base has a letter that hex patterns have not. -/
theorem prefixed?_hexText {cs : List Char} (among : cs.all isHexText) (tail : List Char) :
    prefixed? (cs ++ '}' :: tail) = none := by
  have plain : ∀ d, isHexText d = false → d ≠ '}' →
      ∀ more, cs ++ '}' :: tail ≠ '0' :: d :: more := by
    intro d other brace more same
    match cs with
    | [] => cases same
    | [c] =>
      cases same
      exact brace rfl
    | c :: d' :: cs =>
      cases same
      simp only [List.all_cons, other, Bool.false_and, Bool.and_false] at among
      cases among
  unfold prefixed?
  split
  · exact (plain 'x' rfl (by decide) _ ‹_›).elim
  · exact (plain 'o' rfl (by decide) _ ‹_›).elim
  · rfl

theorem jumpInteger?_hexText {digits cs : List Char} (number : digits.all Char.isDigit)
    (nonempty : digits ≠ [])
    (among : (digits ++ cs).all isHexText) (ends : cs.head?.any Char.isDigit = false)
    (tail : List Char) :
    jumpInteger? (digits ++ (cs ++ '}' :: tail)) = some ⟨.integer, digits.length⟩ := by
  have length : runLength Char.isDigit (digits ++ (cs ++ '}' :: tail)) = digits.length := by
    refine runLength_name number ?_
    cases cs with
    | nil => rfl
    | cons c cs => exact ends
  rw [jumpInteger?, ← List.append_assoc, prefixed?_hexText among, List.append_assoc]
  dsimp only
  rw [length, Option.none_or, if_neg]
  exact fun empty => nonempty (List.eq_nil_of_length_eq_zero (beq_iff_eq.mp empty))

end Lexeme

/-- A sign that is a token of its own leads out of a jump. -/
theorem Mode.read_mark {mode : Mode} (inside : mode ≠ .normal) {c : Char} {cs : List Char}
    {l : Lexeme}
    (mark : Lexeme.hexSymbol? (c :: cs) = some l) : mode.read (c :: cs) = (.hex, l) := by
  have no_jump : Lexeme.jump? (c :: cs) = none := by
    unfold Lexeme.hexSymbol? at mark
    split at mark <;> rename_i same <;> first
      | (cases same; rw [Lexeme.jump?, Lexeme.jumpInteger?_of_not_digit rfl]; rfl)
      | cases mark
  cases mode with
  | normal => exact (inside rfl).elim
  | hex => rw [read, Lexeme.hex?_mark mark]
  | jump => rw [read, no_jump, Lexeme.hex?_mark mark]

/-- A byte is an item of the text before the brace. -/
theorem hexByte?_front {cs tail : List Char} {l : Lexeme}
    (byte : Lexeme.hexByte? (cs ++ '}' :: tail) = some l) :
    ∃ front rest, cs = front ++ rest ∧ HexItem front ∧ front ≠ [] ∧
      l = ⟨.hexByte, front.length⟩ := by
  have no_brace : Lexeme.isHexByteChar '}' = false := rfl
  unfold Lexeme.hexByte? at byte
  split at byte
  · rename_i a b more same
    split at byte <;> cases byte
    rename_i bytes
    obtain ⟨first, second⟩ := Bool.and_eq_true_iff.mp bytes
    match cs with
    | [] => cases same
    | [c] =>
      cases same
      cases first
    | [c, d] =>
      cases same
      cases second
    | c :: d :: e :: rest =>
      cases same
      exact ⟨['~', _, _], rest, rfl, .negated first second, List.cons_ne_nil _ _, rfl⟩
  · rename_i a b more _ same
    split at byte <;> cases byte
    rename_i bytes
    obtain ⟨first, second⟩ := Bool.and_eq_true_iff.mp bytes
    match cs with
    | [] =>
      cases same
      cases first
    | [c] =>
      cases same
      cases second
    | c :: d :: rest =>
      cases same
      exact ⟨[_, _], rest, rfl, .byte first second, List.cons_ne_nil _ _, rfl⟩
  · cases byte

/-- What starts neither with white space nor with a byte nor with a sign does not follow. -/
theorem not_hexRest {n : Nat} {c : Char} {cs : List Char} (solid : isWhite c = false)
    {tail : List Char}
    (no_byte : Lexeme.hexByte? (c :: (cs ++ tail)) = none)
    (no_mark : Lexeme.hexSymbol? (c :: (cs ++ tail)) = none) : ¬ HexRest n (c :: cs) := by
  intro h
  cases h.front with
  | white white => cases solid.symm.trans white
  | byte first second =>
    have other : c ≠ '~' := by
      rintro rfl
      cases first
    rw [Lexeme.hexByte?_plain _ other, first] at no_byte
    simp [second] at no_byte
  | negated first second =>
    rw [Lexeme.hexByte?_tilde] at no_byte
    simp [first, second] at no_byte
  | _ => cases no_mark

namespace Parser

/-- In front of some text of a hex pattern, in a mode, with nothing reported. -/
structure Clean (back : List Char) (mode : Mode) (s : ParseState) (cs : List Char) : Prop where
  ahead : ∃ offset, s.input.ahead = (⟨mode, offset, cs ++ '}' :: ' ' :: back⟩ : Cursor).nextSolid?
  calm : s.panicking = false
  errors : s.errors = []
  among : cs.all isHexText

theorem isPatternChar_of_hexText {c : Char} (h : isHexText c) : isPatternChar c := by
  simp only [isHexText, isPatternChar, isHexDigit, isAsciiLetter, Bool.or_eq_true, Bool.and_eq_true,
    decide_eq_true_eq] at h ⊢
  rcases h with (((digit | lower) | upper) | white) | sign
  · exact .inl (.inl (.inr digit))
  · exact .inl (.inl (.inl (.inl ⟨lower.1, Char.le_trans lower.2 (by decide)⟩)))
  · exact .inl (.inl (.inl (.inr ⟨upper.1, Char.le_trans upper.2 (by decide)⟩)))
  · exact .inl (.inr white)
  · exact .inr sign

namespace Clean

variable {back : List Char} {mode mode' : Mode} {s : ParseState} {ws cs front : List Char}
    {k : Kind}

theorem white (h : Clean back mode s (ws ++ cs)) (white : ws.all isWhite) :
    Clean back mode s cs where
  ahead := by
    obtain ⟨offset, ahead⟩ := h.ahead
    rw [List.append_assoc, Cursor.nextSolid?_whites mode offset white] at ahead
    exact ⟨_, ahead⟩
  calm := h.calm
  errors := h.errors
  among := (Bool.and_eq_true_iff.mp (List.all_append ▸ h.among)).2

theorem dropWhite (h : Clean back mode s cs) : Clean back mode s (cs.dropWhile isWhite) := by
  rw [← List.takeWhile_append_dropWhile (p := isWhite) (l := cs)] at h
  exact h.white List.all_takeWhile

/-- A token that is read is passed, and another mode may be gone into. -/
theorem read (h : Clean back mode s (front ++ cs)) (nonempty : front ≠ [])
    (read : mode.read (front ++ (cs ++ '}' :: ' ' :: back)) = (mode', ⟨k, front.length⟩))
    (meant : ¬ k.isTrivia) :
    s.kindAhead? = some k ∧ ∀ new mode'',
      (∀ offset rest, (⟨mode', offset, rest⟩ : Cursor).enter new = ⟨mode'', offset, rest⟩) →
      Clean back mode'' (s.advanced new) cs := by
  obtain ⟨offset, ahead⟩ := h.ahead
  rw [List.append_assoc] at ahead
  have next := Cursor.nextSolid?_of_solid
    (Cursor.next?_of_read (c := ⟨mode, offset, _⟩) (by simp [nonempty]) read) meant
  rw [List.take_left, List.drop_left] at next
  rw [next] at ahead
  refine ⟨ParseState.kindAhead?_of_next (congrArg (Option.map Prod.fst) ahead),
    fun new mode'' entered => ⟨?_, ?_, ?_, ?_⟩⟩
  · rw [ParseState.advanced, ahead]
    dsimp only
    rw [entered]
    exact ⟨_, rfl⟩
  · rw [ParseState.advanced, ahead]
    exact h.calm
  · rw [ParseState.advanced_errors]
    exact h.errors
  · exact (Bool.and_eq_true_iff.mp (List.all_append ▸ h.among)).2

/-- A sign that is a token of its own is passed. -/
theorem mark {c : Char} {x : Symbol} (h : Clean back mode s (c :: cs)) (inside : mode ≠ .normal)
    (mark : Lexeme.hexSymbol? (c :: (cs ++ '}' :: ' ' :: back)) = some ⟨.symbol x, 1⟩) :
    s.kindAhead? = some (.symbol x) ∧
      ∀ new mode'',
        (∀ offset rest, (⟨.hex, offset, rest⟩ : Cursor).enter new = ⟨mode'', offset, rest⟩) →
        Clean back mode'' (s.advanced new) cs := by
  have h : Clean back mode s ([c] ++ cs) := h
  exact h.read (List.cons_ne_nil _ _) (Mode.read_mark inside mark) nofun

/-- Behind all the text is the brace. -/
theorem brace (h : Clean back mode s []) : s.kindAhead? = some (.symbol .rbrace) := by
  obtain ⟨offset, ahead⟩ := h.ahead
  have read : mode.read ('}' :: ' ' :: back) = (.normal, ⟨.symbol .rbrace, 1⟩) := by
    cases mode <;> rfl
  have next := Cursor.nextSolid?_of_solid (Cursor.next?_of_read
    (c := ⟨mode, offset, '}' :: ' ' :: back⟩) (List.cons_ne_nil _ _) read) nofun
  exact ParseState.kindAhead?_of_next (congrArg (Option.map Prod.fst) (ahead.trans next))

/-- What is ahead at the start of a token. -/
theorem reading {c : Char} (h : Clean back mode s (c :: cs)) (solid : isWhite c = false) :
    ∃ l, Lexeme.Reading c (cs ++ '}' :: ' ' :: back) l ∧ s.kindAhead? = some l.kind := by
  obtain ⟨offset, ahead⟩ := h.ahead
  have reading := mode.reading (cs ++ '}' :: ' ' :: back)
    (isPatternChar_of_hexText (List.all_eq_true.mp h.among c List.mem_cons_self)) solid
  refine ⟨_, reading, ?_⟩
  have next := Cursor.nextSolid?_of_solid (Cursor.next?_of_read
    (c := ⟨mode, offset, c :: (cs ++ '}' :: ' ' :: back)⟩) (List.cons_ne_nil _ _) rfl)
    reading.not_trivia
  exact ParseState.kindAhead?_of_next (congrArg (Option.map Prod.fst) (ahead.trans next))

/-- A sign that is not there is no token either. -/
theorem no_symbol (h : Clean back mode s cs) (solid : cs.head?.any isWhite = false) {x : Symbol}
    {d : Char} (other : x ≠ .rbrace)
    (spelled : ∀ entry ∈ Symbol.table, entry.1 = x → entry.2 = [d]) (absent : cs.head? ≠ some d) :
    s.kindAhead? ≠ some (.symbol x) := by
  intro ahead
  cases cs with
  | nil =>
    rw [h.brace] at ahead
    cases ahead
    exact other rfl
  | cons c cs =>
    obtain ⟨l, reading, kind⟩ := h.reading solid
    rw [ahead, Option.some.injEq] at kind
    cases reading with
    | @symbol s' same _ entry =>
      cases same.symm.trans kind.symm
      cases spelled _ entry rfl
      exact absent rfl
    | run run =>
      rw [← kind] at run
      cases run
    | unknown same =>
      rw [same] at kind
      cases kind

end Clean

/-! ### Jumps -/

namespace Clean

variable {back : List Char} {mode : Mode} {s : ParseState} {cs : List Char}

/-- A number in front of what is no digit. -/
theorem read_number {digits rest : List Char} (among : (digits ++ rest).all isHexText)
    (number : digits.all Char.isDigit) (nonempty : digits ≠ [])
    (ends : rest.head?.any Char.isDigit = false) (tail : List Char) :
    Mode.jump.read (digits ++ (rest ++ '}' :: tail)) = (.jump, ⟨.integer, digits.length⟩) := by
  have no_hyphen : Lexeme.jumpHyphen? (digits ++ (rest ++ '}' :: tail)) = none := by
    cases digits with
    | nil => exact (nonempty rfl).elim
    | cons d digits =>
      unfold Lexeme.jumpHyphen?
      split
      · rename_i same
        cases same
        cases number
      · rfl
  have jump : Lexeme.jump? (digits ++ (rest ++ '}' :: tail)) = some ⟨.integer, digits.length⟩ := by
    rw [Lexeme.jump?, no_hyphen, Lexeme.jumpInteger?_hexText number nonempty among ends]
    rfl
  rw [Mode.read, jump]

/-- An optional number is passed. -/
theorem number (h : Clean back .jump s cs) :
    Clean back .jump ((eat .integer).run s).2 (passNumber cs) := by
  rw [passNumber, run_eat]
  have solid := head_dropWhile isWhite cs
  have h := h.dropWhite
  generalize cs.dropWhile isWhite = text at h solid
  by_cases digit : text.head?.any Char.isDigit
  · have split : text.takeWhile Char.isDigit ++ text.dropWhile Char.isDigit = text :=
      List.takeWhile_append_dropWhile
    have number : (text.takeWhile Char.isDigit).all Char.isDigit := List.all_takeWhile
    have ends := head_dropWhile Char.isDigit text
    generalize text.takeWhile Char.isDigit = digits at split number
    generalize text.dropWhile Char.isDigit = rest at split ends ⊢
    subst split
    have nonempty : digits ≠ [] := by
      rintro rfl
      rw [List.nil_append, ends] at digit
      cases digit
    obtain ⟨ahead, behind⟩ :=
      h.read nonempty (read_number h.among number nonempty ends _) Bool.false_ne_true
    rw [if_pos ahead]
    exact (behind .normal .jump fun _ _ => rfl).dropWhite
  · have stays := dropWhile_stays (Bool.eq_false_iff.mpr digit)
    have other : s.kindAhead? ≠ some .integer := by
      intro ahead
      cases text with
      | nil =>
        rw [h.brace] at ahead
        cases ahead
      | cons c text =>
        obtain ⟨l, reading, kind⟩ := h.reading solid
        rw [ahead, Option.some.injEq] at kind
        cases reading with
        | symbol same => cases same.symm.trans kind.symm
        | run _ _ number => exact digit (number kind.symm)
        | unknown same => cases kind.trans (congrArg Lexeme.kind same)
    rw [if_neg other, stays]
    exact h.dropWhite

/-- So is a hyphen with the number behind it. -/
theorem upper (h : Clean back .jump s cs) (solid : cs.head?.any isWhite = false) :
    Clean back .jump (afterHigh ((eat (.symbol .hyphen)).run s)) (passUpper cs) := by
  by_cases hyphen : cs.head? = some '-'
  · obtain ⟨rest, rfl⟩ := List.head?_eq_some_iff.mp hyphen
    have h : Clean back .jump s (['-'] ++ rest) := h
    have read : Mode.jump.read (['-'] ++ (rest ++ '}' :: ' ' :: back)) =
        (.jump, ⟨.symbol .hyphen, 1⟩) := rfl
    obtain ⟨ahead, behind⟩ := h.read (List.cons_ne_nil _ _) read Bool.false_ne_true
    obtain ⟨t, next, _⟩ := ParseState.kindAhead?_eq_some ahead
    rw [run_eat, if_pos ahead, next]
    exact (behind .normal .jump fun _ _ => rfl).number
  · have stays : passUpper cs = cs := by
      unfold passUpper
      split
      · exact (hyphen rfl).elim
      · rfl
    have other : s.kindAhead? ≠ some (.symbol .hyphen) := h.no_symbol solid nofun (by decide) hyphen
    rw [run_eat, if_neg other, stays]
    exact h

/-- Then the bracket is passed, or reported. -/
theorem bracket (h : Clean back .jump s cs) (solid : cs.head?.any isWhite = false) :
    (∃ rest, cs = ']' :: rest ∧ Clean back .hex ((expect (.symbol .rbracket)).run s).2 rest) ∨
      (cs.head? ≠ some ']' ∧ ((expect (.symbol .rbracket)).run s).2.errors ≠ []) := by
  by_cases closed : cs.head? = some ']'
  · obtain ⟨rest, rfl⟩ := List.head?_eq_some_iff.mp closed
    obtain ⟨ahead, behind⟩ := h.mark nofun rfl
    rw [run_expect ahead]
    exact .inl ⟨rest, rfl, behind .normal .hex fun _ _ => rfl⟩
  · refine .inr ⟨closed, ?_⟩
    have other : s.kindAhead? ≠ some (.symbol .rbracket) :=
      h.no_symbol solid nofun (by decide) closed
    rw [expect, run_bind, run_eat, if_neg other]
    dsimp only
    rw [run_bind, run_unexpected, h.calm]
    exact List.append_ne_nil_of_right_ne_nil _ (List.cons_ne_nil _ _)

theorem passUpper_solid {cs : List Char} (solid : cs.head?.any isWhite = false) :
    (passUpper cs).head?.any isWhite = false := by
  unfold passUpper
  split
  · exact head_dropWhile isWhite _
  · exact solid

/-- A whole jump. -/
theorem jump (h : Clean back .jump s cs) :
    (∃ rest, passUpper (passNumber cs) = ']' :: rest ∧ Clean back .hex (hexJump.run s).2 rest) ∨
      ((passUpper (passNumber cs)).head? ≠ some ']' ∧ (hexJump.run s).2.errors ≠ []) := by
  have solid : (passNumber cs).head?.any isWhite = false := head_dropWhile isWhite _
  rw [run_hexJump]
  exact (h.number.upper solid).bracket (passUpper_solid solid)

end Clean

/-! ### The whole pattern -/

/-- What has no place in the pattern is reported. -/
theorem refused_reports {s : ParseState} {k : Kind} {n : Nat} (ahead : s.kindAhead? = some k)
    (calm : s.panicking = false)
    (refused : hexMove n k = none) (other : ¬ (k = .symbol .rbrace ∧ n = 0)) (lbrace : Span) :
    ((iterate (hexStep lbrace) (.within n)).run s).2.errors ≠ [] := by
  obtain ⟨t, next, rfl⟩ := ParseState.kindAhead?_eq_some ahead
  have reported : ∀ e, s.errors ++ [e] ≠ [] :=
    fun e => List.append_ne_nil_of_right_ne_nil _ (List.cons_ne_nil e [])
  intro clean
  have first := (iterate_first (hexStep lbrace) (.within n) s).no_errors clean
  rw [run_hexStep_refused next refused other] at first
  split at first
  · exact reported _ first
  · rw [hexRecover, run_bind, run_unexpected, calm] at first
    exact reported _ ((Parser.forward _ (s.panicked _)).no_errors first)

/-- A sign that starts neither a byte nor anything else of a pattern has no place in it. -/
theorem reading_refused {c : Char} {rest : List Char} {l : Lexeme}
    (reading : Lexeme.Reading c rest l) (among : isHexText c)
    (no_byte : Lexeme.hexByte? (c :: rest) = none) (no_mark : Lexeme.hexSymbol? (c :: rest) = none)
    (n : Nat) :
    hexMove n l.kind = none ∧ l.kind ≠ .symbol .rbrace := by
  cases reading with
  | @symbol x kind _ entry =>
    have signs : ∀ entry ∈ Symbol.table, entry.1 ∈ [.lbracket, .lparen, .pipe, .rparen, .rbrace] →
      entry.2 = ['['] ∨ entry.2 = ['('] ∨ entry.2 = ['|'] ∨ entry.2 = [')'] ∨
        entry.2 = ['}'] := by decide
    have other : x ∉ [Symbol.lbracket, .lparen, .pipe, .rparen, .rbrace] := by
      intro listed
      obtain sign | sign | sign | sign | sign := signs _ entry listed <;> cases sign
      · cases no_mark
      · cases no_mark
      · cases no_mark
      · cases no_mark
      · cases among
    rw [kind]
    cases x <;> first | exact (other (by decide)).elim | exact ⟨rfl, nofun⟩
  | run run _ _ byte =>
    have other : l.kind ≠ .hexByte := fun kind => nomatch no_byte.symm.trans (byte kind)
    cases kind : l.kind <;> rw [kind] at run other
      <;> first | exact (other rfl).elim | exact ⟨rfl, nofun⟩ | cases run
  | unknown same =>
    rw [same]
    exact ⟨rfl, nofun⟩

section Pattern

variable {back : List Char} {s : ParseState} {cs : List Char}

/-- Nothing is reported exactly if what is left may follow. -/
theorem Clean.pattern (h : Clean back .hex s cs) (n : Nat) (lbrace : Span) :
    ((iterate (hexStep lbrace) (.within n)).run s).2.errors = [] ↔ HexRest n cs := by
  induction size : cs.length using Nat.strongRecOn generalizing s cs n with
  | _ size ih =>
    subst size
    -- a token with a place in the pattern leads to less of the text
    have goes {k : Kind} {m : Nat} {rest : List Char} {s' : ParseState}
        (ahead : s.kindAhead? = some k) (move : hexMove n k = some m)
        (state : s' = if k = .symbol .lbracket then (hexJump.run (s.advanced .jump)).2
          else s.advanced .normal)
        (left : Clean back .hex s' rest) (shorter : rest.length < cs.length) :
        ((iterate (hexStep lbrace) (.within n)).run s).2.errors = [] ↔ HexRest m rest := by
      obtain ⟨t, next, rfl⟩ := ParseState.kindAhead?_eq_some ahead
      rw [run_iterate_yield (hexStep_progress lbrace) (run_hexStep_move next move), ← state]
      exact ih _ shorter left m rfl
    have stops {k : Kind} (ahead : s.kindAhead? = some k) (refused : hexMove n k = none)
        (other : k ≠ .symbol .rbrace) (ends : ¬ HexRest n cs) :
        ((iterate (hexStep lbrace) (.within n)).run s).2.errors = [] ↔ HexRest n cs :=
      iff_of_false (refused_reports ahead h.calm refused (fun brace => other brace.1) lbrace) ends
    cases cs with
    | nil =>
      obtain ⟨t, next, kind⟩ := ParseState.kindAhead?_eq_some h.brace
      cases n with
      | zero =>
        rw [run_iterate_done (run_hexStep_brace next kind rfl)]
        exact iff_of_true ((ParseState.advanced_errors _ _).trans h.errors) .done
      | succ n =>
        refine iff_of_false ?_ fun more => Nat.succ_ne_zero _ more.count
        exact refused_reports (n := n + 1) h.brace h.calm rfl
          (fun outside => Nat.succ_ne_zero n outside.2) lbrace
    | cons c cs =>
      by_cases white : isWhite c
      · have single : Clean back .hex s ([c] ++ cs) := h
        have same : HexRest n ([c] ++ cs) ↔ HexRest n cs := hexRest_item (.white white)
        exact (ih _ (Nat.lt_succ_self _) (single.white (by simp [white])) n rfl).trans same.symm
      have solid := Bool.eq_false_iff.mpr white
      cases byte : Lexeme.hexByte? (c :: cs ++ '}' :: ' ' :: back) with
      | some l =>
        obtain ⟨front, rest, split, item, nonempty, rfl⟩ := hexByte?_front byte
        rw [split] at h byte goes ⊢
        have read : Mode.hex.read (front ++ (rest ++ '}' :: ' ' :: back)) =
            (.hex, ⟨.hexByte, front.length⟩) := by
          rw [← List.append_assoc, Mode.read, Lexeme.hex?, byte]
          rfl
        obtain ⟨ahead, behind⟩ := h.read nonempty read Bool.false_ne_true
        have shorter : rest.length < (front ++ rest).length := by
          rw [List.length_append]
          exact Nat.lt_add_of_pos_left (List.length_pos_iff.mpr nonempty)
        exact (goes ahead rfl rfl (behind .normal .hex fun _ _ => rfl) shorter).trans
          (hexRest_item item).symm
      | none =>
        cases mark : Lexeme.hexSymbol? (c :: (cs ++ '}' :: ' ' :: back)) with
        | none =>
          obtain ⟨l, reading, ahead⟩ := h.reading solid
          obtain ⟨refused, other⟩ :=
            reading_refused reading (List.all_eq_true.mp h.among c List.mem_cons_self) byte mark n
          exact stops ahead refused other (not_hexRest solid byte mark)
        | some l =>
          unfold Lexeme.hexSymbol? at mark
          split at mark <;> rename_i same <;> cases mark <;> cases same
            <;> obtain ⟨ahead, behind⟩ := h.mark (by decide) rfl
          · by_cases inside : 0 < n
            · exact (goes ahead (if_pos inside) rfl (behind .normal .hex fun _ _ => rfl)
                (Nat.lt_succ_self _)).trans (hexRest_bar.trans (and_iff_right inside)).symm
            · exact stops ahead (if_neg inside) (by decide) fun more =>
                inside (hexRest_bar.mp more).1
          · exact (goes ahead rfl rfl (behind .normal .hex fun _ _ => rfl)
              (Nat.lt_succ_self _)).trans hexRest_opens.symm
          · by_cases inside : 0 < n
            · exact (goes ahead (if_pos inside) rfl (behind .normal .hex fun _ _ => rfl)
                (Nat.lt_succ_self _)).trans (hexRest_closes.trans (and_iff_right inside)).symm
            · exact stops ahead (if_neg inside) (by decide) fun more =>
                inside (hexRest_closes.mp more).1
          · rcases (behind .jump .jump fun _ _ => rfl).jump with ⟨rest, closed, left⟩
              | ⟨other, reported⟩
            · have shorter : rest.length < ('[' :: cs).length := by
                obtain ⟨inner, _, rfl⟩ := passUpper_iff.mp closed
                simp only [List.length_cons, List.length_append]
                omega
              rw [goes ahead rfl rfl left shorter, hexRest_jump, closed]
              simp
            · refine iff_of_false (fun clean => reported ?_) fun more => ?_
              · obtain ⟨t, next, kind⟩ := ParseState.kindAhead?_eq_some ahead
                have move : hexMove n t.kind = some n := by
                  rw [kind]
                  rfl
                have first := (iterate_first (hexStep lbrace) (.within n) s).no_errors clean
                rwa [run_hexStep_move next move, if_pos kind] at first
              · obtain ⟨rest, closed, _⟩ := hexRest_jump.mp more
                exact other (by rw [closed]; rfl)
          · refine stops ahead rfl (by decide) fun more => ?_
            cases more.front with
            | white white => cases white
            | byte first => cases first

end Pattern

/-- Each of the words where parsing resumes has a letter that is no hex digit. -/
theorem noRecovery_hexText {h : List Char} (among : h.all isHexText) : NoRecovery h := by
  intro w resumes inside
  have letter : w.text.toList.all isHexText = false := by
    revert resumes
    cases w <;> decide
  obtain ⟨c, member, other⟩ := List.all_eq_false.mp letter
  exact other (List.all_eq_true.mp among c (inside.subset member))

/-- Nothing is reported in a pattern exactly if it is a sequence. -/
theorem afterPattern_clean {h : List Char} (among : h.all isHexText) (body : List Char) :
    (afterPattern h body).2.errors = [] ↔ HexSequence h := by
  have start : Clean (conditionTail body) .hex (atPattern h body) h := ⟨⟨24, rfl⟩, rfl, rfl, among⟩
  have same : (afterPattern h body).2 =
      ((iterate (hexStep ⟨23, 24⟩) (.within 0)).run (atPattern h body)).2 := by
    rw [afterPattern, hexPattern, run_bind]
    split <;> rfl
  rw [same, start.pattern 0, hexSequence_iff]

end Parser

/-- A rule with a hex pattern is read without an error exactly if the pattern is a sequence
of bytes, jumps and alternatives. Then its value reaches from one brace to the other. -/
theorem parse_hexRule_sequence {h : List Char} (among : h.all isHexText) :
    ((parse (hexRule h "$a".toList)).errors = [] ↔ HexSequence h) ∧
      (HexSequence h → ∃ (r : Rule) (p : Pattern), (parse (hexRule h "$a".toList)).rules = [r] ∧
        r.patterns = [p] ∧ p.kind = .hex ∧ p.value = ⟨23, 25 + byteLength h⟩) := by
  have clean := Parser.afterPattern_clean among "$a".toList
  -- a sequence closes its parentheses, so the pattern ends at its own brace
  have whole (sequence : HexSequence h) : ∃ r : Rule, (parse (hexRule h "$a".toList)).rules = [r] ∧
      r.patterns = [Parser.hexDeclaration (24 + byteLength h + 1) (24 + byteLength h + 1)] ∧
        (parse (hexRule h "$a".toList)).errors = [] := by
    have counts := (hexSequence_iff.mp sequence).count
    rw [Nat.zero_add] at counts
    have plain : h.all isPatternChar := List.all_eq_true.mpr fun c member =>
      Parser.isPatternChar_of_hexText (List.all_eq_true.mp among c member)
    obtain ⟨u, ends, left⟩ :=
      Parser.afterPattern_leaves plain (Parser.noRecovery_hexText among) counts.le "$a".toList
    obtain ⟨r, rules, _, patterns, errors⟩ := Parser.parse_hexRule left Parser.readsAs_pattern ends
    rw [ends] at clean
    exact ⟨r, rules, patterns, errors.trans (clean.mpr sequence)⟩
  refine ⟨⟨fun none => ?_, fun sequence => (whole sequence).choose_spec.2.2⟩, fun sequence => ?_⟩
  · rw [(Parser.parse_items _).2] at none
    exact clean.mp ((Parser.afterPattern_before h "$a".toList).no_errors none)
  · obtain ⟨r, rules, patterns, _⟩ := whole sequence
    have stop : 24 + byteLength h + 1 = 25 + byteLength h := by omega
    refine ⟨r, _, rules, patterns, rfl, ?_⟩
    rw [stop]
    rfl

/-- A byte of which one half is open, a jump with an upper bound and two alternatives, one
of them empty. -/
def nestedPattern : List Char := "4? [-3](|A0)".toList

theorem nestedPattern_sequence : HexSequence nestedPattern := by
  have upper : JumpBound ([] ++ (['3'] ++ [])) := .intro rfl rfl rfl
  have lower : JumpBound ([] ++ ([] ++ [])) := .intro rfl rfl rfl
  have byte : HexSequence (['A', '0'] ++ []) := .item (.byte rfl rfl) .nothing
  have choices : ∀ choice ∈ [[], ['A', '0']], HexSequence choice :=
    List.forall_mem_cons.mpr ⟨.nothing, List.forall_mem_cons.mpr ⟨byte, List.forall_mem_nil _⟩⟩
  have group : HexSequence ('(' :: (['|'].intercalate [[], ['A', '0']] ++ ')' :: [])) :=
    .alternatives choices .nothing
  have jump : HexSequence (('[' :: ([] ++ '-' :: ['3'] ++ [']'])) ++ _) :=
    .item (.jump (.range lower upper)) group
  have spaced : HexSequence (['4', '?'] ++ ([' '] ++ _)) :=
    .item (.byte rfl rfl) (.item (.white rfl) jump)
  exact spaced

theorem parse_hexRule_sequence_nested :
    nestedPattern.all isHexText ∧ (parse (hexRule nestedPattern "$a".toList)).errors = [] ∧
    ∃ (r : Rule) (p : Pattern), (parse (hexRule nestedPattern "$a".toList)).rules = [r] ∧
      r.patterns = [p] ∧ p.kind = .hex ∧ p.value = ⟨23, 25 + byteLength nestedPattern⟩ :=
  ⟨by decide, (parse_hexRule_sequence (by decide)).1.mpr nestedPattern_sequence,
    (parse_hexRule_sequence (by decide)).2 nestedPattern_sequence⟩

end RuleDesk
