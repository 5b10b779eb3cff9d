import Mathlib.Data.List.Chain
import Mathlib.Data.String.Basic
import RuleDesk.Token

namespace RuleDesk

/-! ## Reserved words

The words that are no identifiers are found by halving their list. Those are
the words that the tokens know. -/

theorem bisect_iff {words : List String} (sorted : words.Pairwise (· < ·)) {fuel : Nat}
    (enough : words.length ≤ fuel) (s : String) :
    bisect fuel words s ↔ s ∈ words := by
  induction fuel generalizing words with
  | zero =>
    obtain rfl := List.length_eq_zero_iff.mp (Nat.le_zero.mp enough)
    exact ⟨nofun, nofun⟩
  | succ fuel ih =>
    have halves : words = words.take (words.length / 2) ++ words.drop (words.length / 2) :=
      (List.take_append_drop _ _).symm
    have short : (words.take (words.length / 2)).length = words.length / 2 :=
      List.length_take_of_le (Nat.div_le_self _ _)
    rw [bisect]
    split
    next none =>
      have empty : words.length ≤ words.length / 2 := List.drop_eq_nil_iff.mp none
      obtain rfl : words = [] := List.length_eq_zero_iff.mp (by omega)
      exact ⟨nofun, nofun⟩
    next middle above split =>
      rw [split] at halves
      have lengths : words.length = words.length / 2 + (above.length + 1) := by
        conv_lhs => rw [halves, List.length_append, short, List.length_cons]
      obtain ⟨low, high, across⟩ := List.pairwise_append.mp (halves ▸ sorted)
      obtain ⟨greater, high⟩ := List.pairwise_cons.mp high
      have inBelow := ih low (by omega)
      have inAbove := ih high (by omega)
      have parts : s ∈ words ↔ s ∈ words.take (words.length / 2) ∨ s = middle ∨ s ∈ above := by
        conv_lhs => rw [halves, List.mem_append, List.mem_cons]
      by_cases here : s = middle
      · rw [if_pos (beq_iff_eq.mpr here)]
        exact ⟨fun _ => parts.mpr (.inr (.inl here)), fun _ => rfl⟩
      rw [if_neg (by rwa [beq_iff_eq]), parts]
      -- What is behind the middle is greater than it, and what is before it is less.
      by_cases before : s < middle
      · have notAbove : s ∉ above := fun inside => String.lt_asymm before (greater s inside)
        rw [if_pos before, inBelow]
        exact ⟨.inl, fun found => found.resolve_right fun other => other.elim here notAbove⟩
      · have notBelow : s ∉ words.take (words.length / 2) :=
          fun inside => before (across s inside middle List.mem_cons_self)
        rw [if_neg before, inAbove]
        exact ⟨fun found => .inr (.inr found), fun found =>
          (found.resolve_left notBelow).resolve_left here⟩

theorem reservedWords_sorted : reservedWords.Pairwise (· < ·) := by
  have chain : reservedWords.IsChain (· < ·) := by decide
  exact List.isChain_iff_pairwise.mp chain

theorem reservedWords_eq : reservedWords = Keyword.table.map (·.2) := rfl

/-- The reserved words are those that are read as keywords. -/
theorem isKeyword_eq (s : String) : isKeyword s = (Keyword.ofText? s).isSome := by
  rw [Bool.eq_iff_iff, isKeyword, bisect_iff reservedWords_sorted (Nat.le_refl _), reservedWords_eq,
    Keyword.ofText?, Option.isSome_map, List.find?_isSome, List.mem_map]
  simp only [beq_iff_eq]

end RuleDesk
