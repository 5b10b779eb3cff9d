import Mathlib.Data.List.TakeWhile
import RuleDesk.Number.Integer
import RuleDesk.Proofs.Lexing.Trivia

namespace RuleDesk

/-! ## Integer literals

A literal is read digit by digit within 63 bits. That gives its exact value,
or nothing when the value does not fit. -/

/-- A text that is an integer literal, with its value. -/
inductive IsLiteral : List Char → Nat → Prop
  | hex {digits : List Char} (nonempty : digits ≠ []) (all : digits.all isHexDigit) :
      IsLiteral ('0' :: 'x' :: digits) (digitsValue 16 digits)
  | octal {digits : List Char} (nonempty : digits ≠ []) (all : digits.all isOctalDigit) :
      IsLiteral ('0' :: 'o' :: digits) (digitsValue 8 digits)
  | decimal {digits : List Char} (nonempty : digits ≠ []) (all : digits.all Char.isDigit) :
      IsLiteral digits (digitsValue 10 digits)
  | kilobytes {digits : List Char} (nonempty : digits ≠ []) (all : digits.all Char.isDigit) :
      IsLiteral (digits ++ ['K', 'B']) (digitsValue 10 digits * 1024)
  | megabytes {digits : List Char} (nonempty : digits ≠ []) (all : digits.all Char.isDigit) :
      IsLiteral (digits ++ ['M', 'B']) (digitsValue 10 digits * (1024 * 1024))

theorem unsigned63?_eq_none {n : Nat} (h : 0x8000000000000000 ≤ n) : unsigned63? n = none :=
  if_neg (Nat.not_lt.mpr h)

theorem unsigned63?_eq_some {n : Nat} (h : n < 0x8000000000000000) :
    unsigned63? n = some n := if_pos h

theorem le_foldl_digits {base : Nat} (h : 1 ≤ base) (n : Nat) (cs : List Char) :
    n ≤ cs.foldl (fun n c => n * base + digitValue c) n := by
  induction cs generalizing n with
  | nil => exact Nat.le_refl n
  | cons c cs ih => calc
      n ≤ n * base := Nat.le_mul_of_pos_right n h
      _ ≤ n * base + digitValue c := Nat.le_add_right _ _
      _ ≤ _ := ih _

/-- A number that does not fit on the way only grows. -/
theorem foldlM_digits {base : Nat} (h : 1 ≤ base) {cs : List Char}
    (digits : ∀ c ∈ cs, digitIn? base c = some (digitValue c)) {n : Nat}
    (fits : n < 0x8000000000000000) :
    (cs.foldlM (fun n c => do
      let shifted ← unsigned63? (n * base)
      unsigned63? (shifted + (← digitIn? base c))) n : Option Nat) =
        unsigned63? (cs.foldl (fun n c => n * base + digitValue c) n) := by
  induction cs generalizing n with
  | nil => exact (unsigned63?_eq_some fits).symm
  | cons c cs ih =>
    obtain ⟨digit, later⟩ := List.forall_mem_cons.mp digits
    rw [List.foldlM_cons, List.foldl_cons]
    by_cases next : n * base + digitValue c < 0x8000000000000000
    · have shifted : n * base < 0x8000000000000000 := by omega
      simp only [unsigned63?_eq_some shifted, digit, unsigned63?_eq_some next, Option.bind_eq_bind,
        Option.bind_some]
      exact ih later next
    · have overflow : unsigned63?
        (cs.foldl (fun n c => n * base + digitValue c) (n * base + digitValue c)) = none :=
        unsigned63?_eq_none (Nat.le_trans (Nat.not_lt.mp next) (le_foldl_digits h _ cs))
      rw [overflow]
      by_cases shifted : n * base < 0x8000000000000000
      · simp only [unsigned63?_eq_some shifted, digit, unsigned63?_eq_none (Nat.not_lt.mp next),
          Option.bind_eq_bind, Option.bind_some, Option.bind_none]
      · simp only [unsigned63?_eq_none (Nat.not_lt.mp shifted), Option.bind_eq_bind,
          Option.bind_none]

theorem boundedValue?_eq {base : Nat} (h : 1 ≤ base) {cs : List Char} (nonempty : cs ≠ [])
    (digits : ∀ c ∈ cs, digitIn? base c = some (digitValue c)) :
    boundedValue? base cs = unsigned63? (digitsValue base cs) := by
  rw [boundedValue?, if_neg (by rwa [List.isEmpty_iff]), foldlM_digits h digits (by decide),
    digitsValue]

theorem digitIn?_eq {base : Nat} {c : Char} (low : digitValue c < base)
    (h : digitValue c ≠ 0 ∨ c = '0') : digitIn? base c = some (digitValue c) := by
  have counts : (decide (digitValue c < base) && (digitValue c != 0 || c == '0')) = true := by
    simpa [low] using h
  exact if_pos counts

theorem digitIn?_decimal {base : Nat} {c : Char} (h : '0' ≤ c) (low : c.toNat < '0'.toNat + base)
    (within : base ≤ 10) :
    digitIn? base c = some (digitValue c) := by
  have least : '0'.toNat ≤ c.toNat := h
  have zero : '0'.toNat = 48 := rfl
  have digit : c.isDigit := by
    simp only [Char.isDigit, Bool.and_eq_true, decide_eq_true_eq]
    exact ⟨h, UInt32.le_iff_toNat_le.mpr (show c.toNat ≤ 57 by omega)⟩
  have value : digitValue c = c.toNat - '0'.toNat := if_pos digit
  refine digitIn?_eq (by omega) ?_
  by_cases same : c.toNat = '0'.toNat
  · exact .inr (Char.toNat_inj.mp same)
  · exact .inl (by omega)

theorem digitIn?_ten {c : Char} (h : c.isDigit) : digitIn? 10 c = some (digitValue c) := by
  simp only [Char.isDigit, Bool.and_eq_true, decide_eq_true_eq] at h
  have high : c.toNat ≤ 57 := h.2
  exact digitIn?_decimal h.1 (Nat.lt_succ_of_le high) (Nat.le_refl 10)

theorem digitIn?_eight {c : Char} (h : isOctalDigit c) : digitIn? 8 c = some (digitValue c) := by
  simp only [isOctalDigit, Bool.and_eq_true, decide_eq_true_eq] at h
  have high : c.toNat ≤ 55 := h.2
  exact digitIn?_decimal h.1 (Nat.lt_succ_of_le high) (by decide)

theorem digitIn?_sixteen {c : Char} (h : isHexDigit c) : digitIn? 16 c = some (digitValue c) := by
  by_cases digit : c.isDigit
  · have small := digitIn?_ten digit
    unfold digitIn? at small ⊢
    dsimp only at small ⊢
    split at small
    next both =>
      obtain ⟨low, counts⟩ := Bool.and_eq_true_iff.mp both
      have low : digitValue c < 10 := of_decide_eq_true low
      rw [counts, decide_eq_true (show digitValue c < 16 by omega)]
      rfl
    next => cases small
  · have letter : ('a' ≤ c ∧ c ≤ 'f') ∨ ('A' ≤ c ∧ c ≤ 'F') := by
      simpa [isHexDigit, digit] using h
    rcases letter with ⟨first, last⟩ | ⟨first, last⟩
    · have value : digitValue c = c.toNat - 'a'.toNat + 10 := by
        simp [digitValue, digit, first, last]
      have last : c.toNat ≤ 'a'.toNat + 5 := last
      exact digitIn?_eq (by omega) (.inl (by omega))
    · have upper : ¬ 'a' ≤ c := fun lower => absurd (Char.le_trans lower last) (by decide)
      have value : digitValue c = c.toNat - 'A'.toNat + 10 := by
        simp [digitValue, digit, upper, first, last]
      have last : c.toNat ≤ 'A'.toNat + 5 := last
      exact digitIn?_eq (by omega) (.inl (by omega))

theorem bind_unsigned63? {n factor : Nat} (h : 1 ≤ factor) :
    ((unsigned63? n).bind fun n => unsigned63? (n * factor)) = unsigned63? (n * factor) := by
  by_cases fits : n < 0x8000000000000000
  · rw [unsigned63?_eq_some fits, Option.bind_some]
  · have grown : n ≤ n * factor := Nat.le_mul_of_pos_right n h
    rw [unsigned63?_eq_none (Nat.not_lt.mp fits), Option.bind_none, unsigned63?_eq_none (by omega)]

theorem literalValue?_plain {cs : List Char}
    (unprefixed : ∀ c rest, cs = '0' :: c :: rest → c ≠ 'x' ∧ c ≠ 'o') :
    literalValue? cs = match cs.reverse with
      | 'B' :: 'K' :: digits =>
        (boundedValue? 10 digits.reverse).bind fun n => unsigned63? (n * 1024)
      | 'B' :: 'M' :: digits =>
        (boundedValue? 10 digits.reverse).bind fun n => unsigned63? (n * (1024 * 1024))
      | _ => boundedValue? 10 cs := by
  unfold literalValue?
  split
  next rest => exact absurd rfl (unprefixed 'x' rest rfl).1
  next rest => exact absurd rfl (unprefixed 'o' rest rfl).2
  next => rfl

theorem unprefixed_digits {digits unit : List Char} (nonempty : digits ≠ [])
    (all : digits.all Char.isDigit)
    (other : ∀ c ∈ unit.head?, c ≠ 'x' ∧ c ≠ 'o') (c : Char) (rest : List Char)
    (h : digits ++ unit = '0' :: c :: rest) : c ≠ 'x' ∧ c ≠ 'o' := by
  match digits, nonempty, all, h with
  | [_], _, _, h =>
    have next : unit = c :: rest := (List.cons.inj h).2
    exact other c (next ▸ rfl)
  | _ :: d :: digits, _, all, h =>
    obtain rfl : d = c := (List.cons.inj (List.cons.inj h).2).1
    rw [List.all_cons, List.all_cons, Bool.and_eq_true, Bool.and_eq_true] at all
    constructor <;> rintro rfl <;> exact absurd all.2.1 (by decide)

/-- A literal means its exact value if 63 bits hold it, and nothing else. -/
theorem IsLiteral.value? {cs : List Char} {n : Nat} (h : IsLiteral cs n) :
    literalValue? cs = unsigned63? n := by
  cases h with
  | hex nonempty all =>
    exact boundedValue?_eq (by decide) nonempty fun c inside =>
      digitIn?_sixteen (List.all_eq_true.mp all c inside)
  | octal nonempty all =>
    exact boundedValue?_eq (by decide) nonempty fun c inside =>
      digitIn?_eight (List.all_eq_true.mp all c inside)
  | decimal nonempty all =>
    have bounded := boundedValue?_eq (by decide) nonempty fun c inside =>
      digitIn?_ten (List.all_eq_true.mp all c inside)
    have unitless : ∀ rest, cs.reverse ≠ 'B' :: rest := by
      intro rest same
      have inside : 'B' ∈ cs := List.mem_reverse.mp (same ▸ List.mem_cons_self)
      exact absurd (List.all_eq_true.mp all 'B' inside) (by decide)
    rw [literalValue?_plain fun c rest same =>
      unprefixed_digits nonempty all (by simp) c rest ((List.append_nil cs).trans same), ← bounded]
    split
    next same => exact absurd same (unitless _)
    next same => exact absurd same (unitless _)
    next => rfl
  | @kilobytes digits nonempty all =>
    have bounded := boundedValue?_eq (by decide) nonempty fun c inside =>
      digitIn?_ten (List.all_eq_true.mp all c inside)
    rw [literalValue?_plain (unprefixed_digits nonempty all (by rintro c ⟨⟩; decide))]
    simp only [List.reverse_append, List.reverse_cons, List.reverse_nil, List.nil_append,
      List.cons_append, List.reverse_reverse, bounded]
    exact bind_unsigned63? (by decide)
  | @megabytes digits nonempty all =>
    have bounded := boundedValue?_eq (by decide) nonempty fun c inside =>
      digitIn?_ten (List.all_eq_true.mp all c inside)
    rw [literalValue?_plain (unprefixed_digits nonempty all (by rintro c ⟨⟩; decide))]
    simp only [List.reverse_append, List.reverse_cons, List.reverse_nil, List.nil_append,
      List.cons_append, List.reverse_reverse, bounded]
    exact bind_unsigned63? (by decide)

/-! ### The literals of a text -/

namespace Lexeme

/-- What is read as an integer is read as a number. -/
theorem number?_of_normal {cs : List Char} (h : (normal cs).kind = .integer) :
    number? cs = some (normal cs) := by
  cases normal_readBy cs with
  | number read => exact read
  | word _ kind | symbol _ kind | sigil _ kind | string _ kind | slash _ kind | white _ kind
    | unknown kind => simp [h, Kind.isWord] at kind

theorem take_runLength_all (p : Char → Bool) (cs : List Char) :
    (cs.take (runLength p cs)).all p := by
  obtain ⟨front, rest, rfl, size, all, -⟩ := runLength_split p cs
  rwa [← size, List.take_left]

theorem take_runLength_ne_nil {p : Char → Bool} {cs : List Char}
    (h : (runLength p cs == 0) = false) : cs.take (runLength p cs) ≠ [] := by
  intro empty
  rcases List.take_eq_nil_iff.mp empty with zero | rfl
  · rw [zero] at h
    cases h
  · cases h

theorem prefixed?_literal {cs : List Char} {l : Lexeme} (h : prefixed? cs = some l) :
    ∃ n, IsLiteral (cs.take l.size) n := by
  unfold prefixed? at h
  dsimp only at h
  split at h
  next rest =>
    split at h
    next => cases h
    next some_digit =>
      cases h
      exact ⟨_, .hex (take_runLength_ne_nil (Bool.eq_false_iff.mpr some_digit))
        (take_runLength_all isHexDigit rest)⟩
  next rest =>
    split at h
    next => cases h
    next some_digit =>
      cases h
      exact ⟨_, .octal (take_runLength_ne_nil (Bool.eq_false_iff.mpr some_digit))
        (take_runLength_all isOctalDigit rest)⟩
  next => cases h

/-- Digits and what follows them, if that is no fraction. -/
theorem afterDigits_literal {digits : List Char} (nonempty : digits ≠ [])
    (all : digits.all Char.isDigit) (rest : List Char)
    (kind : (afterDigits digits.length rest).kind = .integer) :
    ∃ n, IsLiteral ((digits ++ rest).take (afterDigits digits.length rest).size) n := by
  unfold afterDigits at kind ⊢
  dsimp only at kind ⊢
  split at kind
  next rest =>
    split at kind
    next none =>
      rw [if_pos none, List.take_left]
      exact ⟨_, .decimal nonempty all⟩
    next => cases kind
  next rest =>
    rw [List.take_length_add_append]
    exact ⟨_, .kilobytes nonempty all⟩
  next rest =>
    rw [List.take_length_add_append]
    exact ⟨_, .megabytes nonempty all⟩
  next =>
    rw [List.take_left]
    exact ⟨_, .decimal nonempty all⟩

/-- A number that is an integer is spelled as a literal. -/
theorem number?_literal {cs : List Char} {l : Lexeme} (h : number? cs = some l)
    (kind : l.kind = .integer) : ∃ n, IsLiteral (cs.take l.size) n := by
  rcases Option.or_eq_some_iff.mp h with based | ⟨_, digits⟩
  · exact prefixed?_literal based
  · dsimp only at digits
    split at digits
    next => cases digits
    next some_digit =>
      have literal := afterDigits_literal (take_runLength_ne_nil (Bool.eq_false_iff.mpr some_digit))
        (take_runLength_all Char.isDigit cs) (cs.drop (runLength Char.isDigit cs))
      rw [List.length_take_of_le (runLength_le _ _), List.take_append_drop, Option.some.inj digits]
        at literal
      exact literal kind

theorem jumpInteger?_literal {cs : List Char} {l : Lexeme} (h : jumpInteger? cs = some l) :
    ∃ n, IsLiteral (cs.take l.size) n := by
  rcases Option.or_eq_some_iff.mp h with based | ⟨_, digits⟩
  · exact prefixed?_literal based
  · dsimp only at digits
    split at digits
    next => cases digits
    next some_digit =>
      cases digits
      exact ⟨_, .decimal (take_runLength_ne_nil (Bool.eq_false_iff.mpr some_digit))
        (take_runLength_all Char.isDigit cs)⟩

end Lexeme

/-- An integer is a literal in whatever mode it is read. -/
theorem Mode.read_literal {mode : Mode} {cs : List Char} (kind : (mode.read cs).2.kind = .integer) :
    ∃ n, IsLiteral (cs.take (mode.read cs).2.size) n := by
  have normal : (Lexeme.normal cs).kind = .integer →
    ∃ n, IsLiteral (cs.take (Lexeme.normal cs).size) n :=
    fun kind => Lexeme.number?_literal (Lexeme.number?_of_normal kind) kind
  have hex : ∀ l, Lexeme.hex? cs = some l → l.kind = .integer → ∃ n, IsLiteral (cs.take l.size) n :=
    fun l found kind => absurd kind (Lexeme.hex?_kind found).2
  cases mode with
  | normal => exact normal kind
  | hex =>
    simp only [read] at kind ⊢
    cases found : Lexeme.hex? cs with
    | some l =>
      rw [found] at kind
      exact hex l found kind
    | none =>
      rw [found] at kind
      exact normal kind
  | jump =>
    simp only [read] at kind ⊢
    cases found : Lexeme.jump? cs with
    | some l =>
      rw [found] at kind
      rcases Option.or_eq_some_iff.mp found with hyphen | ⟨_, other⟩
      · unfold Lexeme.jumpHyphen? at hyphen
        split at hyphen <;> cases hyphen
        cases kind
      rcases Option.or_eq_some_iff.mp other with integer | ⟨_, other⟩
      · exact Lexeme.jumpInteger?_literal integer
      rcases Option.or_eq_some_iff.mp other with newline | ⟨_, blank⟩
      · rw [Lexeme.newline?_kind newline] at kind
        cases kind
      · rw [Lexeme.blank?_kind blank] at kind
        cases kind
    | none =>
      rw [found] at kind
      cases found : Lexeme.hex? cs with
      | some l =>
        rw [found] at kind
        exact hex l found kind
      | none =>
        rw [found] at kind
        exact normal kind

theorem Cursor.next?_literal {c after : Cursor} {t : Token} (h : c.next? = some (t, after))
    (kind : t.kind = .integer) :
    ∃ n, IsLiteral t.text n := by
  rw [next?_of_read (rest_ne_nil h) rfl] at h
  cases h
  exact Mode.read_literal kind

end RuleDesk
