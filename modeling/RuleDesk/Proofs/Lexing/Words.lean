import Mathlib.Data.List.TakeWhile
import RuleDesk.Number.Integer
import RuleDesk.Proofs.Lexing.Literals
import RuleDesk.Proofs.Lexing.Reserved
import RuleDesk.Proofs.Lexing.Respell

namespace RuleDesk

/-! ## Words

A word is read as one token when a blank follows it. -/

/-- A word is a token of a kind, whatever comes behind the blank that ends it. -/
structure Spelled (kind : Kind) (word : List Char) : Prop where
  nonempty : word ≠ []
  meant : ¬ kind.isTrivia
  read : ∀ rest, Lexeme.normal (word ++ ' ' :: rest) = ⟨kind, word.length⟩

/-- How a keyword or a symbol is spelled. -/
def Kind.word : Kind → List Char
  | keyword w => w.text.toList
  | symbol s => s.text.toList
  | _ => []

/-- A name that is not reserved. -/
structure IsName (word : List Char) : Prop where
  start : word.head?.any isWordStart
  parts : word.all isWordPart
  free : isKeyword (String.ofList word) = false

/-- A number without prefix and unit. -/
structure IsDecimal (word : List Char) : Prop where
  nonempty : word ≠ []
  digits : word.all Char.isDigit

namespace Lexeme

/-- The kind of a word of letters. -/
def wordKind (word : List Char) : Kind :=
  (Keyword.ofText? (String.ofList word)).elim .ident .keyword

theorem word?_whole {c : Char} {name rest : List Char} (start : isWordStart c)
    (parts : name.all isWordPart)
    (ends : rest.head?.any isWordPart = false) :
    word? (c :: (name ++ rest)) = some ⟨wordKind (c :: name), name.length + 1⟩ := by
  simp only [word?, start, if_true, runLength_name parts ends, List.take_left', wordKind]
  cases Keyword.ofText? (String.ofList (c :: name)) <;> rfl

theorem normal_whole {c : Char} {name rest : List Char} (start : isWordStart c)
    (parts : name.all isWordPart)
    (ends : rest.head?.any isWordPart = false) :
    normal (c :: (name ++ rest)) = ⟨wordKind (c :: name), name.length + 1⟩ := by
  rw [normal, word?_whole start parts ends, Option.some_or, Option.getD_some]

theorem number?_digits_blank {c : Char} {digits : List Char} (first : c.isDigit)
    (others : digits.all Char.isDigit) (rest : List Char) :
    number? (c :: (digits ++ ' ' :: rest)) = some ⟨.integer, digits.length + 1⟩ := by
  have run : runLength Char.isDigit (c :: (digits ++ ' ' :: rest)) = digits.length + 1 :=
    @runLength_name Char.isDigit (c :: digits) (' ' :: rest)
      (by rw [List.all_cons, first, others]; rfl) rfl
  have unprefixed : prefixed? (c :: (digits ++ ' ' :: rest)) = none := by
    cases digits with
    | nil =>
      unfold prefixed?
      split
      · rename_i same
        cases same
      · rename_i same
        cases same
      · rfl
    | cons d digits =>
      have second : d.isDigit = true := (Bool.and_eq_true_iff.mp others).1
      unfold prefixed?
      split
      · rename_i same
        cases same
        cases second
      · rename_i same
        cases same
        cases second
      · rfl
  have behind : (c :: (digits ++ ' ' :: rest)).drop (digits.length + 1) = ' ' :: rest := by
    rw [List.drop_succ_cons, List.drop_left]
  rw [number?, unprefixed, Option.none_or, run]
  dsimp only
  rw [behind]
  rfl

end Lexeme

theorem spelled_letters {word : List Char} (start : word.head?.any isWordStart)
    (parts : word.all isWordPart) :
    Spelled (Lexeme.wordKind word) word := by
  cases word with
  | nil => cases start
  | cons c name =>
    refine ⟨List.cons_ne_nil _ _, ?_,
      fun rest => Lexeme.normal_whole start (Bool.and_eq_true_iff.mp parts).2 rfl⟩
    unfold Lexeme.wordKind
    cases Keyword.ofText? (String.ofList (c :: name)) <;> exact Bool.false_ne_true

theorem IsName.spelled {word : List Char} (named : IsName word) : Spelled .ident word := by
  have unreserved : Keyword.ofText? (String.ofList word) = none := by
    have free := named.free
    rwa [isKeyword_eq, Option.isSome_eq_false_iff, Option.isNone_iff_eq_none] at free
  have kind : Lexeme.wordKind word = .ident := by
    rw [Lexeme.wordKind, unreserved]
    rfl
  exact kind ▸ spelled_letters named.start named.parts

theorem spelled_keyword (w : Keyword) : Spelled (.keyword w) w.text.toList := by
  have kind : Lexeme.wordKind w.text.toList = .keyword w := by
    rw [Lexeme.wordKind, String.ofList_toList, Keyword.ofText?_text]
    rfl
  have start : w.text.toList.head?.any isWordStart := by cases w <;> decide
  have parts : w.text.toList.all isWordPart := by cases w <;> decide
  exact kind ▸ spelled_letters start parts

theorem spelled_symbol (s : Symbol) : Spelled (.symbol s) s.text.toList where
  nonempty := by cases s <;> decide
  meant := Bool.false_ne_true
  read rest := by cases s <;> rfl

namespace IsDecimal

variable {word : List Char} (decimal : IsDecimal word)

include decimal

theorem spelled : Spelled .integer word where
  nonempty := decimal.nonempty
  meant := Bool.false_ne_true
  read rest := by
    have digits := decimal.digits
    cases word with
    | nil => exact (decimal.nonempty rfl).elim
    | cons c digits' =>
      obtain ⟨first, others⟩ := Bool.and_eq_true_iff.mp digits
      have other : isWordStart c = false := by
        cases start : isWordStart c with
        | false => rfl
        | true => rw [isDigit_of_isWordStart start] at first; cases first
      rw [List.cons_append, Lexeme.normal, Lexeme.word?_none _ other, Option.none_or,
        Lexeme.number?_digits_blank first others, Option.some_or, Option.getD_some]
      rfl

theorem literalValue? (small : digitsValue 10 word < 0x8000000000000000) :
    literalValue? word = some (digitsValue 10 word) := by
  rw [(IsLiteral.decimal decimal.nonempty decimal.digits).value?, unsigned63?_eq_some small]

end IsDecimal

end RuleDesk
