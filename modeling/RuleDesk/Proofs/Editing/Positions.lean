import Mathlib.Data.List.Induction
import RuleDesk.Lines

namespace RuleDesk

/-! ## Offsets and the positions that editors give -/

namespace Position

/-- The position behind a character. -/
def after (p : Position) (c : Char) : Position :=
  if c == '\n' then ⟨p.line + 1, 0⟩ else ⟨p.line, p.column + utf16Size c⟩

/-- The position behind some text. -/
def behind (p : Position) (front : List Char) : Position := front.foldl after p

theorem behind_lines (p : Position) {front : List Char} (h : front.getLast? = some '\n') :
    p.behind front = ⟨p.line + front.count '\n', 0⟩ := by
  obtain ⟨most, rfl⟩ := List.getLast?_eq_some_iff.mp h
  have lines : ∀ (cs : List Char) (p : Position), (p.behind cs).line = p.line + cs.count '\n' := by
    intro cs
    induction cs with
    | nil => exact fun _ => rfl
    | cons c rest ih =>
      intro p
      show ((p.after c).behind rest).line = _
      rw [ih, List.count_cons, after]
      split
      · show p.line + 1 + _ = _
        omega
      · rfl
  rw [behind, List.foldl_append, List.foldl_cons, List.foldl_nil]
  show (p.behind most).after '\n' = _
  rw [after, if_pos (beq_self_eq_true _), lines, List.count_append]
  rfl

theorem behind_line (p : Position) {line : List Char} (h : '\n' ∉ line) :
    p.behind line = ⟨p.line, p.column + utf16Length line⟩ := by
  induction line generalizing p with
  | nil => rfl
  | cons c rest ih =>
    have other : (c == '\n') = false :=
      beq_eq_false_iff_ne.mpr fun same => h (same ▸ List.mem_cons_self ..)
    show (p.after c).behind rest = _
    rw [ih _ fun member => h (List.mem_cons_of_mem _ member), after, other,
      if_neg Bool.false_ne_true]
    show (⟨p.line, p.column + utf16Size c + utf16Length rest⟩ : Position) =
      ⟨p.line, p.column + (utf16Size c + utf16Length rest)⟩
    rw [Nat.add_assoc]

/-- Positions in the order of a text. -/
def notAfter (p q : Position) : Bool := p.line < q.line || (p.line == q.line && p.column ≤ q.column)

theorem notAfter_iff {p q : Position} :
    p.notAfter q ↔ p.line < q.line ∨ p.line = q.line ∧ p.column ≤ q.column := by
  simp only [notAfter, Bool.or_eq_true, decide_eq_true_eq, Bool.and_eq_true, beq_iff_eq]

theorem after_notAfter (p : Position) (c : Char) :
    p.notAfter (p.after c) ∧ ¬ (p.after c).notAfter p := by
  rw [notAfter_iff, notAfter_iff, after]
  split
  · dsimp only
    omega
  · have positive : 0 < utf16Size c := by
      unfold utf16Size
      split <;> decide
    dsimp only
    omega

theorem notAfter_trans {p q r : Position} (h : p.notAfter q) (h' : q.notAfter r) :
    p.notAfter r := by
  rw [notAfter_iff] at *
  omega

/-- Behind some text the position is a later one. -/
theorem behind_notAfter (p : Position) (front : List Char) :
    p.notAfter (p.behind front) ∧ (front ≠ [] → ¬ (p.behind front).notAfter p) := by
  induction front generalizing p with
  | nil =>
    exact ⟨notAfter_iff.mpr (.inr ⟨rfl, Nat.le_refl _⟩), fun some_text => (some_text rfl).elim⟩
  | cons c rest ih =>
    obtain ⟨later, _⟩ := ih (p.after c)
    obtain ⟨first, back⟩ := p.after_notAfter c
    exact ⟨notAfter_trans first later, fun _ before => back (notAfter_trans later before)⟩

end Position

/-- What stands before the later one of two places of a text. -/
theorem append_split {front rest before tail : List Char} (same : front ++ rest = before ++ tail)
    (le : byteLength front ≤ byteLength before) : ∃ between, before = front ++ between ∧
    rest = between ++ tail := by
  rcases List.append_eq_append_iff.mp same with ⟨between, first, second⟩ | ⟨more, first, second⟩
  · exact ⟨between, first, second⟩
  · rw [first, byteLength_append] at le
    have few := length_le_byteLength more
    obtain rfl := List.eq_nil_of_length_eq_zero (l := more) (by omega)
    exact ⟨[], by rw [first, List.append_nil, List.append_nil], second.symm⟩

namespace Lines

theorem positionFrom_behind (p : Position) (front back : List Char) :
    positionFrom p (front ++ back) (byteLength front) = p.behind front := by
  induction front generalizing p with
  | nil =>
    cases back with
    | nil => rfl
    | cons c rest =>
      rw [List.nil_append, positionFrom, byteLength, if_pos c.utf8Size_pos]
      rfl
  | cons c rest ih =>
    rw [List.cons_append, positionFrom, byteLength, if_neg (Nat.not_lt.mpr (Nat.le_add_right _ _)),
      Nat.add_sub_cancel_left]
    exact ih (p.after c)

/-- The positions of a text are in the order of their offsets. -/
theorem position_order {text front back front' back' : List Char} (split : text = front ++ back)
    (split' : text = front' ++ back') :
    (position text (byteLength front)).notAfter (position text (byteLength front')) =
      decide (byteLength front ≤ byteLength front') := by
  have place : position text (byteLength front) = Position.behind ⟨0, 0⟩ front :=
    split ▸ positionFrom_behind _ front back
  have place' : position text (byteLength front') = Position.behind ⟨0, 0⟩ front' :=
    split' ▸ positionFrom_behind _ front' back'
  rw [place, place']
  rcases Nat.lt_or_ge (byteLength front') (byteLength front) with less | le
  · obtain ⟨between, rfl, _⟩ := append_split (split'.symm.trans split) (Nat.le_of_lt less)
    have more : between ≠ [] := by
      rintro rfl
      rw [List.append_nil] at less
      exact Nat.lt_irrefl _ less
    rw [decide_eq_false (Nat.not_le.mpr less), Position.behind, List.foldl_append]
    exact Bool.eq_false_iff.mpr ((Position.behind_notAfter _ between).2 more)
  · obtain ⟨between, rfl, _⟩ := append_split (split.symm.trans split') le
    rw [decide_eq_true le, Position.behind, Position.behind, List.foldl_append]
    exact (Position.behind_notAfter _ between).1

theorem start?_lines {lines : List Char} (ended : lines = [] ∨ lines.getLast? = some '\n')
    (cs : List Char) :
    start? (lines ++ cs) (lines.count '\n') = some (byteLength lines, cs) := by
  induction lines with
  | nil => cases cs <;> rfl
  | cons c rest ih =>
    have last : (c :: rest).getLast? = some '\n' := ended.resolve_left (List.cons_ne_nil _ _)
    have ended : rest = [] ∨ rest.getLast? = some '\n' := by
      cases rest with
      | nil => exact .inl rfl
      | cons d more => exact .inr last
    have found := ih ended
    obtain ⟨n, count⟩ : ∃ n, (c :: rest).count '\n' = n + 1 := by
      refine Nat.exists_eq_add_one.mpr (List.count_pos_iff.mpr ?_)
      exact List.mem_of_getLast? last
    rw [count, List.cons_append, start?]
    rw [List.count_cons] at count
    have sum : byteLength rest + c.utf8Size = byteLength (c :: rest) := Nat.add_comm ..
    split
    · rename_i newline
      rw [if_pos newline] at count
      rw [← Nat.add_right_cancel count, found, Option.map_some]
      exact congrArg (fun n => some (n, cs)) sum
    · rename_i other
      rw [if_neg other] at count
      rw [← count, Nat.add_zero, found, Option.map_some]
      exact congrArg (fun n => some (n, cs)) sum

/-- Where a carriage return is not the last character, a line goes on behind it. -/
theorem columnLength_line {line : List Char} (one : '\n' ∉ line)
    (inside : line.getLast? ≠ some '\r') (back : List Char) :
    columnLength (line ++ back) (utf16Length line) = byteLength line := by
  induction line with
  | nil =>
    cases back with
    | nil => rfl
    | cons c rest => rw [List.nil_append, columnLength]; rfl
  | cons c rest ih =>
    have positive : 0 < utf16Size c := by
      unfold utf16Size
      split <;> decide
    have goes : atEnd (c :: (rest ++ back)) = false := by
      have newline : c ≠ '\n' := fun same => one (same ▸ List.mem_cons_self ..)
      unfold atEnd
      split
      · rename_i none
        cases none
      · rename_i same
        exact (newline (List.cons.inj same).1).elim
      · rename_i same
        obtain ⟨rfl, ended⟩ := List.cons.inj same
        obtain rfl : rest = [] := (List.append_eq_nil_iff.mp ended).1
        exact (inside rfl).elim
      · rename_i same
        obtain ⟨rfl, next⟩ := List.cons.inj same
        cases rest with
        | nil => exact (inside rfl).elim
        | cons d more =>
          obtain ⟨rfl, _⟩ := List.cons.inj next
          exact (one (List.mem_cons_of_mem _ (List.mem_cons_self ..))).elim
      · rfl
    have more : utf16Length (c :: rest) ≠ 0 := by
      rw [utf16Length]
      omega
    rw [List.cons_append, columnLength, goes, Bool.or_false,
      if_neg (fun zero => more (beq_iff_eq.mp zero)), utf16Length,
      Nat.add_sub_cancel_left, ih (fun member => one (List.mem_cons_of_mem _ member)), byteLength]
    intro last
    refine inside ?_
    cases rest with
    | nil => cases last
    | cons d more => exact last

/-- A text is whole lines and the start of another one. -/
theorem split_lines (front : List Char) : ∃ lines line, front = lines ++ line ∧
    (lines = [] ∨ lines.getLast? = some '\n') ∧ '\n' ∉ line := by
  induction front using List.reverseRecOn with
  | nil => exact ⟨[], [], rfl, .inl rfl, List.not_mem_nil⟩
  | append_singleton most c ih =>
    by_cases newline : c = '\n'
    · exact ⟨most ++ [c], [], (List.append_nil _).symm,
        .inr (by rw [List.getLast?_concat, newline]), List.not_mem_nil⟩
    · obtain ⟨lines, line, rfl, ended, one⟩ := ih
      refine ⟨lines, line ++ [c], List.append_assoc .., ended, fun member => ?_⟩
      rcases List.mem_append.mp member with old | last
      · exact one old
      · exact newline (List.mem_singleton.mp last).symm

/-- The position of an offset leads back to it, unless the offset is between a
carriage return and the end of its line. -/
theorem offset?_position {front : List Char} (inside : front.getLast? ≠ some '\r')
    (back : List Char) :
    offset? (front ++ back) (position (front ++ back) (byteLength front)) =
      some (byteLength front) := by
  obtain ⟨lines, line, rfl, ended, one⟩ := split_lines front
  have place : position (lines ++ line ++ back) (byteLength (lines ++ line)) =
      ⟨lines.count '\n', utf16Length line⟩ := by
    rw [position, positionFrom_behind, Position.behind, List.foldl_append]
    show (Position.behind _ lines).behind line = _
    rw [Position.behind_line _ one]
    rcases ended with rfl | last
    · exact congrArg (Position.mk 0) (Nat.zero_add _)
    · rw [Position.behind_lines _ last]
      exact congrArg₂ Position.mk (Nat.zero_add _) (Nat.zero_add _)
  have last : line.getLast? ≠ some '\r' :=
    fun same => inside (by rw [List.getLast?_append, same, Option.some_or])
  rw [place, offset?, List.append_assoc, start?_lines ended, Option.map_some]
  dsimp only
  rw [columnLength_line one last, byteLength_append]

end Lines

end RuleDesk
