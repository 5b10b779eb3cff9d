import RuleDesk.Proofs.Editing.Completion
import RuleDesk.Proofs.Editing.RenamePattern
import RuleDesk.Proofs.Lexing.Words

namespace RuleDesk

/-! ## Names that a rename accepts

The checks of a rename and the reader of tokens agree on what a name is. -/

/-- A text of ASCII characters that is not too long for a name. -/
structure IsShortAscii (s : String) : Prop where
  ascii : ∀ c ∈ s.toList, c.toNat < 128
  short : s.utf8ByteSize ≤ maxNameLength

/-- A text is one token if its first token goes up to its end. -/
theorem tokenize_eq_singleton {cs : List Char} {t : Token} :
    tokenize cs = [t] ↔ cs ≠ [] ∧ cs.length ≤ (Lexeme.normal cs).size ∧
      t = ⟨(Lexeme.normal cs).kind, 0, cs.take (Lexeme.normal cs).size⟩ := by
  by_cases empty : cs = []
  · subst empty
    exact iff_of_false (List.cons_ne_nil t []).symm fun h => h.1 rfl
  obtain ⟨after, behind, read⟩ : ∃ after, after.rest = cs.drop (Lexeme.normal cs).size ∧
      (Cursor.start cs).next? =
      some (⟨(Lexeme.normal cs).kind, 0, cs.take (Lexeme.normal cs).size⟩, after) :=
    ⟨_, rfl, Cursor.next?_of_read empty rfl⟩
  rw [tokenize, Cursor.tokens_of_next read, List.cons.injEq, ← List.drop_eq_nil_iff, ← behind,
    ← Cursor.next?_eq_none]
  have ends : after.tokens = [] ↔ after.next? = none := by
    refine ⟨fun none => ?_, Cursor.tokens_of_none⟩
    cases more : after.next? with
    | none => rfl
    | some next =>
      rw [Cursor.tokens_of_next more] at none
      cases none
  rw [ends]
  exact ⟨fun h => ⟨empty, h.2, h.1.symm⟩, fun h => ⟨h.2.2.symm, h.2.1⟩⟩

/-- The first token of a text is all of it, and of this kind. -/
theorem exists_token {cs : List Char} {kind : Kind} :
    (∃ t, tokenize cs = [t] ∧ t.kind = kind) ↔ cs ≠ [] ∧ cs.length ≤ (Lexeme.normal cs).size ∧
      (Lexeme.normal cs).kind = kind := by
  simp only [tokenize_eq_singleton]
  constructor
  · rintro ⟨_, ⟨nonempty, whole, rfl⟩, same⟩
    exact ⟨nonempty, whole, same⟩
  · rintro ⟨nonempty, whole, same⟩
    exact ⟨_, ⟨nonempty, whole, rfl⟩, same⟩

theorem isAsciiWordPart_iff {c : Char} : isAsciiWordPart c ↔ isWordPart c ∧ c.toNat < 128 := by
  constructor
  · intro h
    exact ⟨isWordPart_of_ascii h, Nat.lt_succ_of_le
      (UInt32.le_iff_toNat_le.mp (Char.utf8Size_eq_one_iff.mp (Completion.isWordChar_one_byte h)))⟩
  · rintro ⟨part, narrow⟩
    have low : decide (127 < c.toNat) = false := decide_eq_false (by omega)
    rwa [isWordPart, isDecimalDigit, low, Bool.false_and, Bool.or_false] at part

theorem all_isAsciiWordPart {cs : List Char} (parts : cs.all isWordPart)
    (ascii : ∀ c ∈ cs, c.toNat < 128) : cs.all isAsciiWordPart :=
  List.all_eq_true.mpr fun c inside =>
    isAsciiWordPart_iff.mpr ⟨List.all_eq_true.mp parts c inside, ascii c inside⟩

namespace Lexeme

theorem wordKind_eq_ident {cs : List Char} :
    wordKind cs = .ident ↔ isKeyword (String.ofList cs) = false := by
  rw [isKeyword_eq, wordKind]
  cases Keyword.ofText? (String.ofList cs) with
  | none => exact iff_of_true rfl rfl
  | some w => exact iff_of_false (fun same => by cases same) (fun same => by cases same)

/-- A text that is one identifier. -/
theorem normal_ident_iff {cs : List Char} :
    (cs ≠ [] ∧ cs.length ≤ (normal cs).size ∧ (normal cs).kind = .ident) ↔
      cs.head?.any isWordStart ∧ cs.all isWordPart ∧ isKeyword (String.ofList cs) = false := by
  cases cs with
  | nil => exact ⟨fun h => absurd rfl h.1, fun h => absurd h.1 Bool.false_ne_true⟩
  | cons c name =>
    have read : isWordStart c → name.all isWordPart →
        normal (c :: name) = ⟨wordKind (c :: name), name.length + 1⟩ := by
      intro start parts
      have read := @normal_whole c name [] start parts rfl
      rwa [List.append_nil] at read
    constructor
    · rintro ⟨-, whole, kind⟩
      have word := word?_of_normal (by rw [kind]; rfl)
      rw [word?] at word
      split at word
      next start =>
        have size : (normal (c :: name)).size = runLength isWordPart name + 1 := by
          dsimp only at word
          split at word <;> rw [← Option.some.inj word]
        have parts : name.all isWordPart := by
          refine @runLength_passes isWordPart name [] ?_
          rw [size, List.length_cons] at whole
          rw [List.append_nil]
          exact Nat.le_of_succ_le_succ whole
        rw [read start parts] at kind
        exact ⟨start, by rw [List.all_cons, isWordPart, start, parts]; rfl,
          wordKind_eq_ident.mp kind⟩
      next => cases word
    · rintro ⟨start, parts, free⟩
      rw [read start (Bool.and_eq_true_iff.mp parts).2]
      exact ⟨List.cons_ne_nil _ _, Nat.le_refl _, wordKind_eq_ident.mpr free⟩

theorem normal_dollar (name : List Char) :
    normal ('$' :: name) = ⟨.sigil .identity, runLength isWordPart name + 1⟩ := by
  have word : word? ('$' :: name) = none := word?_none _ rfl
  have number : number? ('$' :: name) = none := number?_of_not_digit rfl _
  have symbol : symbol? ('$' :: name) = none := by simp [symbol?, Symbol.table, List.isPrefixOf]
  have sigil : sigil? ('$' :: name) = some ⟨.sigil .identity, runLength isWordPart name + 1⟩ := rfl
  rw [normal, word, number, symbol, sigil]
  rfl

/-- A sigil and all that follows it are one token, whichever sigil it is. -/
theorem normal_sigil_iff {name : List Char} (named : name ≠ []) :
    (∀ s : Sigil, name.length + 1 ≤ (normal (s.char :: name)).size ∧
    (normal (s.char :: name)).kind = .sigil s) ↔ name.all isWordPart := by
  constructor
  · intro all
    have whole := (all .identity).1
    rw [Sigil.char, normal_dollar] at whole
    refine @runLength_passes isWordPart name [] ?_
    rw [List.append_nil]
    exact Nat.le_of_succ_le_succ whole
  · intro parts s
    have read : normal (s.char :: (name ++ [])) = ⟨.sigil s, name.length + 1⟩ :=
      congrArg Prod.snd (read_sigil .normal s named parts rfl)
    rw [List.append_nil] at read
    rw [read]
    exact ⟨Nat.le_refl _, rfl⟩

end Lexeme

theorem isValidIdentifier_iff {w : String} :
    isValidIdentifier w ↔ (w.toList.head?.any isWordStart ∧ w.toList.all isWordPart ∧
      isKeyword w = false) ∧ IsShortAscii w := by
  unfold isValidIdentifier
  cases chars : w.toList with
  | nil => exact ⟨nofun, fun h => absurd h.1.1 Bool.false_ne_true⟩
  | cons c rest =>
    rw [Bool.and_eq_true, Bool.and_eq_true, Bool.and_eq_true, Bool.not_eq_true', decide_eq_true_eq]
    constructor
    · rintro ⟨⟨⟨start, parts⟩, short⟩, free⟩
      have every : ∀ d ∈ c :: rest, isAsciiWordPart d :=
        List.forall_mem_cons.mpr ⟨Bool.or_eq_true_iff.mpr (.inl start), List.all_eq_true.mp parts⟩
      exact ⟨⟨start, List.all_eq_true.mpr fun d inside =>
        (isAsciiWordPart_iff.mp (every d inside)).1, free⟩,
        fun d inside => (isAsciiWordPart_iff.mp (every d (chars ▸ inside))).2, short⟩
    · rintro ⟨⟨start, parts, free⟩, ascii, short⟩
      have every := all_isAsciiWordPart parts (chars ▸ ascii)
      exact ⟨⟨⟨start, (Bool.and_eq_true_iff.mp every).2⟩, short⟩, free⟩

theorem isValidBareName_iff {w : String} :
    isValidBareName w ↔ w ≠ "" ∧ w.toList.all isWordPart ∧ IsShortAscii w := by
  rw [isValidBareName, Bool.and_eq_true, Bool.and_eq_true, bne_iff_ne, decide_eq_true_eq]
  constructor
  · rintro ⟨⟨named, short⟩, parts⟩
    have every := List.all_eq_true.mp parts
    exact ⟨named, List.all_eq_true.mpr fun d inside => (isAsciiWordPart_iff.mp (every d inside)).1,
      fun d inside => (isAsciiWordPart_iff.mp (every d inside)).2, short⟩
  · rintro ⟨named, parts, ascii, short⟩
    exact ⟨⟨named, short⟩, all_isAsciiWordPart parts ascii⟩

/-- The names that a rename accepts are the short ASCII ones that are read as
one token of their kind. None of them is reserved. -/
theorem valid_names_are_tokens (w : String) :
    (isValidIdentifier w ↔ IsShortAscii w ∧ ∃ t, tokenize w.toList = [t] ∧ t.kind = .ident) ∧
    (isValidBareName w ↔ w ≠ "" ∧ IsShortAscii w ∧ ∀ s :
    Sigil, ∃ t, tokenize (s.char :: w.toList) = [t] ∧ t.kind = .sigil s) ∧
    (isValidIdentifier w → ∀ k : Keyword, w ≠ k.text) := by
  refine ⟨?_, ?_, ?_⟩
  · rw [exists_token, Lexeme.normal_ident_iff, String.ofList_toList,
      isValidIdentifier_iff, and_comm]
  · have sigils : w ≠ "" → ((∀ s : Sigil, ∃ t, tokenize (s.char :: w.toList) = [t] ∧
        t.kind = .sigil s) ↔ w.toList.all isWordPart) := by
      intro named
      have nonempty : w.toList ≠ [] :=
        fun empty => named (String.toList_inj.mp (empty.trans String.toList_empty.symm))
      simp only [exists_token, List.length_cons, ne_eq, List.cons_ne_nil, not_false_eq_true,
        true_and, Lexeme.normal_sigil_iff nonempty]
    rw [isValidBareName_iff]
    constructor
    · rintro ⟨named, parts, short⟩
      exact ⟨named, short, (sigils named).mpr parts⟩
    · rintro ⟨named, short, tokens⟩
      exact ⟨named, (sigils named).mp tokens, short⟩
  · rintro valid k rfl
    have free := (isValidIdentifier_iff.mp valid).1.2.2
    rw [isKeyword_eq, Keyword.ofText?_text] at free
    cases free

end RuleDesk
