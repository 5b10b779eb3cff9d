import RuleDesk.Proofs.Compiler.MessageLines
import RuleDesk.Proofs.Editing.LinePositions
import RuleDesk.Proofs.Lexing.Boundaries

namespace RuleDesk

/-! ## Where the messages of the compiler are shown -/

namespace Lines

variable {text before content tail : List Char} {n : Nat}

/-- What counts up to the end of a line is its content. -/
theorem restLength_content (h : IsContent content tail) :
    restLength (content ++ tail) = byteLength content := by
  induction content with
  | nil =>
    cases tail with
    | nil => rfl
    | cons c rest => rw [List.nil_append, restLength, if_pos h.past, byteLength]
  | cons c content ih =>
    rw [List.cons_append, restLength, h.goes_on, if_neg Bool.false_ne_true, ih h.later, byteLength]

theorem IsLine.span (h : IsLine text n before content tail) :
    span? text n = some ⟨byteLength before, byteLength before + byteLength content⟩ := by
  rw [span?, h.start, Option.map_some]
  dsimp only
  rw [restLength_content h.toIsContent]

theorem IsLine.standsAt (h : IsLine text n before content tail) :
    StandsAt text (byteLength before) content :=
  ⟨before, tail, h.split, rfl⟩

end Lines

/-- A part of a piece of a text stands behind the part before it. -/
theorem StandsAt.later {text first second : List Char} {start : Nat}
    (h : StandsAt text start (first ++ second)) :
    StandsAt text (start + byteLength first) second := by
  obtain ⟨front, back, split, rfl⟩ := h
  refine ⟨front ++ first, back, ?_, byteLength_append front first⟩
  rw [split, List.append_assoc, List.append_assoc]

namespace CompilerMessage

/-- Which line of a text a message is about, of so many and counted from zero: the first
one if the message has the number zero, the last one if its number is past the end. -/
inductive Means (m : CompilerMessage) (count : Nat) : Nat → Prop
  | first (zero : m.line = 0) : Means m count 0
  | counted {n : Nat} (number : m.line = n + 1) (within : n < count) : Means m count n
  | last {n : Nat} (past : count < m.line) (final : count = n + 1) : Means m count n

theorem lineIn_means (m : CompilerMessage) (d : Document) :
    m.Means (Lines.count d.text) (m.lineIn d) := by
  unfold lineIn
  have some_line : 0 < Lines.count d.text := Nat.succ_pos _
  rcases Nat.eq_zero_or_pos m.line with zero | positive
  · rw [zero, Nat.max_eq_right (Nat.zero_le 1), Nat.sub_self, Nat.zero_min]
    exact .first zero
  · rw [Nat.max_eq_left positive]
    rcases Nat.lt_or_ge (Lines.count d.text) m.line with past | within
    · rw [Nat.min_eq_right (by omega)]
      exact .last past (by omega)
    · rw [Nat.min_eq_left (by omega)]
      exact .counted (by omega) (by omega)

theorem lineIn_lt (m : CompilerMessage) (d : Document) : m.lineIn d < Lines.count d.text :=
  Nat.lt_of_le_of_lt (Nat.min_le_right _ _) (Nat.sub_lt (Nat.succ_pos _) Nat.one_pos)

/-- A message is shown in its line from the first character that is no white space up to
the end of what the line holds. The line is there, it can be cut out of the text, and
what is left of it without the blanks at its start is no longer than all of it. -/
theorem diagnostic_place (m : CompilerMessage) (d : Document) :
    ∃ n before content tail indent body,
      m.Means (Lines.count d.text) n ∧ Lines.IsLine d.text n before content tail ∧
      content = indent ++ body ∧ indent.all isBlank ∧ body.head?.any isBlank = false ∧
      Lines.span? d.text (m.lineIn d) = some ⟨byteLength before, byteLength (before ++ content)⟩ ∧
      sliceBytes? d.text (byteLength before) (byteLength (before ++ content)) = some content ∧
      byteLength (trimStart content) ≤ byteLength content ∧
      (m.diagnostic d).span = ⟨byteLength (before ++ indent), byteLength (before ++ content)⟩ ∧
      sliceBytes? d.text (byteLength (before ++ indent)) (byteLength (before ++ content)) =
        some body ∧
      ((m.diagnostic d).span.isEmpty ↔ content.all isBlank) := by
  obtain ⟨before, content, tail, line⟩ := Lines.exists_line.mpr (m.lineIn_lt d)
  have split : content.takeWhile isBlank ++ trimStart content = content :=
    List.takeWhile_append_dropWhile
  have whole := congrArg byteLength split
  rw [byteLength_append] at whole
  have span := line.span
  have cut := line.standsAt.slice
  have rest : StandsAt d.text (byteLength before + byteLength (content.takeWhile isBlank))
    (trimStart content) :=
    StandsAt.later (split.symm ▸ line.standsAt)
  have shown : (m.diagnostic d).span =
      ⟨byteLength before + byteLength (content.takeWhile isBlank),
        byteLength before + byteLength content⟩ := by
    show m.spanIn d = _
    rw [spanIn, span, Option.getD_some]
    dsimp only
    rw [Document.textAt, cut, Option.getD_some, ← whole, Nat.add_sub_cancel]
  refine ⟨_, before, content, tail, content.takeWhile isBlank, trimStart content, m.lineIn_means d,
    line, split.symm, List.all_takeWhile, ?_, ?_, ?_, ?_, ?_, ?_, ?_⟩
  · cases starts : (trimStart content).head? with
    | none => rfl
    | some c =>
      show isBlank c = false
      exact head?_dropWhile starts
  · rw [span, byteLength_append]
  · rw [byteLength_append, cut]
  · omega
  · rw [shown, byteLength_append, byteLength_append]
  · rw [byteLength_append, byteLength_append, ← whole, ← Nat.add_assoc]
    exact rest.slice
  · rw [shown, Span.isEmpty, beq_iff_eq, List.all_eq_true, ← List.dropWhile_eq_nil_iff]
    dsimp only
    constructor
    · intro same
      have short := length_le_byteLength (trimStart content)
      exact List.eq_nil_of_length_eq_zero (show (trimStart content).length = 0 by omega)
    · intro blank
      have none : byteLength (trimStart content) = 0 := congrArg byteLength blank
      omega

/-- The first line has a blank of three bytes in front and two characters at its end that
are no content. The last one is blank. -/
example :
    let d := Document.ofText "a.yar" none ['\u3000', 'x', '\r', '\n', '\t', ' ']
    ((⟨"a.yar", 0, .error, "bad"⟩ : CompilerMessage).diagnostic d).span = ⟨3, 4⟩ ∧
    ((⟨"a.yar", 4294967295, .error, "bad"⟩ : CompilerMessage).diagnostic d).span = ⟨8, 8⟩ := by
  exact ⟨rfl, rfl⟩

end CompilerMessage

end RuleDesk
