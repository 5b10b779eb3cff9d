import RuleDesk.Proofs.Lexing.Local

namespace RuleDesk

/-! ## Words that are spelled anew -/

/-- A text and what it becomes when some parts of words are spelled anew. -/
inductive Reworded : List Char → List Char → Prop
  | same (cs : List Char) : Reworded cs cs
  | char (c : Char) {cs cs' : List Char} (rest : Reworded cs cs') : Reworded (c :: cs) (c :: cs')
  | word {name name' cs cs' : List Char} (named : name ≠ []) (named' : name' ≠ [])
      (parts : name.all isWordPart)
      (parts' : name'.all isWordPart) (rest : Reworded cs cs') :
      Reworded (name ++ cs) (name' ++ cs')

theorem ne_of_isWordPart {c d : Char} (part : isWordPart c) (other : isWordPart d = false) :
    c ≠ d := by
  rintro rfl
  rw [part] at other
  cases other

/-- A part of a word starts with no character that means something else. -/
theorem head_ne_of_parts {name : List Char} (named : name ≠ []) (parts : name.all isWordPart)
    (cs : List Char) {c : Char} (other : isWordPart c = false) : (name ++ cs).head? ≠ some c := by
  cases name with
  | nil => exact (named rfl).elim
  | cons d name =>
    exact fun head =>
      ne_of_isWordPart (Bool.and_eq_true_iff.mp parts).1 other (Option.some.inj head)

theorem Reworded.head {cs cs' : List Char} (h : Reworded cs cs') {c : Char}
    (other : isWordPart c = false) :
    cs.head? = some c ↔ cs'.head? = some c := by
  cases h with
  | same => exact Iff.rfl
  | char => exact Iff.rfl
  | word named named' parts parts' =>
    exact ⟨fun head => (head_ne_of_parts named parts _ other head).elim,
      fun head => (head_ne_of_parts named' parts' _ other head).elim⟩

namespace Lexeme

theorem closeHexComment?_star (cs : List Char) : closeHexComment? ('*' :: cs) =
    if cs.head? = some '/' then some 2 else (closeHexComment? cs.tail).map (· + 2) := by
  cases cs with
  | nil => rfl
  | cons c cs =>
    by_cases slash : c = '/'
    · subst slash
      rfl
    · have other : ¬ (c :: cs).head? = some '/' := fun head => slash (Option.some.inj head)
      rw [if_neg other]
      exact closeHexComment?.eq_2 _ _ fun eq => slash eq

theorem closeHexComment?_parts {name : List Char} (parts : name.all isWordPart) (cs : List Char) :
    closeHexComment? (name ++ cs) = none ↔ closeHexComment? cs = none := by
  induction name with
  | nil => exact Iff.rfl
  | cons c name ih =>
    obtain ⟨part, parts⟩ := Bool.and_eq_true_iff.mp parts
    rw [List.cons_append, closeHexComment?_plain _ (ne_of_isWordPart part (by decide)),
      Option.map_eq_none_iff, ih parts]

/-- Whether a comment is closed does not depend on how words are spelled. An
asterisk takes the next character with it, and if this is one of a word then
what is left of the word does not matter either. -/
theorem closeHexComment?_reworded {cs cs' : List Char} (h : Reworded cs cs') :
    (closeHexComment? cs = none → closeHexComment? cs' = none) ∧
      (closeHexComment? cs.tail = none → closeHexComment? cs'.tail = none) := by
  induction h with
  | same cs => exact ⟨id, id⟩
  | @char c cs cs' rest ih =>
    refine ⟨?_, ih.1⟩
    by_cases star : c = '*'
    · subst star
      rw [closeHexComment?_star, closeHexComment?_star]
      simp only [rest.head (c := '/') (by decide)]
      split
      · exact id
      · rw [Option.map_eq_none_iff, Option.map_eq_none_iff]
        exact ih.2
    · rw [closeHexComment?_plain _ star, closeHexComment?_plain _ star, Option.map_eq_none_iff,
        Option.map_eq_none_iff]
      exact ih.1
  | @word name name' cs cs' named named' parts parts' rest ih =>
    constructor
    · rw [closeHexComment?_parts parts, closeHexComment?_parts parts']
      exact ih.1
    · rw [List.tail_append_of_ne_nil named, List.tail_append_of_ne_nil named',
        closeHexComment?_parts (List.all_eq_true.mpr fun c member =>
          List.all_eq_true.mp parts c (List.mem_of_mem_tail member)),
        closeHexComment?_parts (List.all_eq_true.mpr fun c member =>
          List.all_eq_true.mp parts' c (List.mem_of_mem_tail member))]
      exact ih.1

theorem hexComment?_eq (cs : List Char) : hexComment? ('/' :: cs) =
    if cs.head? = some '/' then some ⟨.comment, runLength (· != '\n') cs.tail + 2⟩
    else if cs.head? = some '*' then (closeHexComment? cs.tail).map fun n => ⟨.comment, n + 2⟩
    else none := by
  cases cs with
  | nil => rfl
  | cons c cs =>
    by_cases line : c = '/'
    · subst line
      rfl
    · by_cases block : c = '*'
      · subst block
        rfl
      · simp [hexComment?, line, block]

theorem hexComment?_other {c : Char} (cs : List Char) (other : c ≠ '/') :
    hexComment? (c :: cs) = none := by
  simp [hexComment?, other]

theorem hexComment?_reworded {cs cs' : List Char} (h : Reworded cs cs')
    (unread : hexComment? cs = none) :
    hexComment? cs' = none := by
  cases h with
  | same => exact unread
  | @char c cs cs' rest =>
    by_cases slash : c = '/'
    · subst slash
      rw [hexComment?_eq] at unread ⊢
      simp only [← rest.head (c := '/') (by decide), ← rest.head (c := '*') (by decide)]
      split
      · rename_i line
        rw [if_pos line] at unread
        cases unread
      · rename_i no_line
        rw [if_neg no_line] at unread
        split
        · rename_i block
          rw [if_pos block] at unread
          exact Option.map_eq_none_iff.mpr
            ((closeHexComment?_reworded rest).2 (Option.map_eq_none_iff.mp unread))
        · rfl
    · exact hexComment?_other _ slash
  | @word name name' cs cs' named named' parts parts' rest =>
    cases name' with
    | nil => exact (named' rfl).elim
    | cons c name' =>
      exact hexComment?_other _ (ne_of_isWordPart (Bool.and_eq_true_iff.mp parts').1 (by decide))

/-! ### Names -/

theorem runLength_name {p : Char → Bool} {name rest : List Char} (parts : name.all p)
    (ends : rest.head?.any p = false) :
    runLength p (name ++ rest) = name.length := by
  rw [runLength_of_all parts, runLength_eq_zero.mpr ends, Nat.add_zero]

theorem symbol?_sigil (s : Sigil) {d : Char} (part : isWordPart d) (rest : List Char) :
    symbol? (s.char :: d :: rest) = none := by
  have other : ('=' == d) = false :=
    beq_eq_false_iff_ne.mpr (ne_of_isWordPart part (by decide)).symm
  cases s <;> simp [symbol?, Symbol.table, Sigil.char, List.isPrefixOf, other]

theorem word?_none {c : Char} (cs : List Char) (other : isWordStart c = false) :
    word? (c :: cs) = none := by
  rw [word?, if_neg (by rw [other]; exact Bool.false_ne_true)]

theorem hex?_sigil (s : Sigil) (cs : List Char) : hex? (s.char :: cs) = none := by
  have byte : hexByte? (s.char :: cs) = none := by
    rw [hexByte?_plain _ (by cases s <;> decide),
      show isHexByteChar s.char = false by cases s <;> decide]
    rfl
  have comment : hexComment? (s.char :: cs) = none := hexComment?_other _ (by cases s <;> decide)
  rw [hex?, byte, comment]
  cases s <;> rfl

theorem jump?_sigil (s : Sigil) (cs : List Char) : jump? (s.char :: cs) = none := by
  have integer : jumpInteger? (s.char :: cs) = none := by
    have none : runLength Char.isDigit (s.char :: cs) = 0 :=
      runLength_eq_zero.mpr (by cases s <;> rfl)
    rw [jumpInteger?, prefixed?_other _ (by cases s <;> decide), none]
    rfl
  rw [jump?, integer]
  cases s <;> rfl

/-- The identifier of a pattern is read the same in all modes. -/
theorem read_sigil (mode : Mode) (s : Sigil) {name rest : List Char} (named : name ≠ [])
    (parts : name.all isWordPart) (ends : rest.head?.any isWordPart = false) :
    mode.read (s.char :: (name ++ rest)) = (.normal, ⟨.sigil s, name.length + 1⟩) := by
  have normal : normal (s.char :: (name ++ rest)) = ⟨.sigil s, name.length + 1⟩ := by
    have word : word? (s.char :: (name ++ rest)) = none := word?_none _ (by cases s <;> decide)
    have number : number? (s.char :: (name ++ rest)) = none :=
      number?_of_not_digit (by cases s <;> decide) _
    have symbol : symbol? (s.char :: (name ++ rest)) = none := by
      cases name with
      | nil => exact (named rfl).elim
      | cons d name => exact symbol?_sigil s (Bool.and_eq_true_iff.mp parts).1 _
    have sigil : sigil? (s.char :: (name ++ rest)) = some ⟨.sigil s, name.length + 1⟩ := by
      rw [sigil?, Sigil.ofChar?_char, runLength_name parts ends, Option.map_some]
    rw [Lexeme.normal, word, number, symbol, sigil]
    rfl
  cases mode with
  | normal => exact congrArg (Prod.mk Mode.normal) normal
  | hex => simp only [Mode.read, hex?_sigil, normal]
  | jump => simp only [Mode.read, jump?_sigil, hex?_sigil, normal]

end Lexeme

end RuleDesk
