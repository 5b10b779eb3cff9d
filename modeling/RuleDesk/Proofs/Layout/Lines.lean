import Mathlib.Data.List.DropRight
import RuleDesk.Format
import RuleDesk.Proofs.Compiler.MessageLines

namespace RuleDesk

/-! ## Lines that are laid out stay as they are

A text is cut into lines, and the lines of a block or of a gap are put together anew. Where this
is done a second time they come out as they went in. -/

theorem trim_blank_append {ws : List Char} (blank : ws.all isBlank) (cs : List Char) :
    trim (ws ++ cs) = trim cs := by
  rw [trim, trim, trimStart, List.dropWhile_append_of_pos (List.all_eq_true.mp blank), trimStart]

theorem trim_append_blank (cs : List Char) {ws : List Char} (blank : ws.all isBlank) :
    trim (trim cs ++ ws) = trim cs := by
  obtain ⟨_, starts, ends⟩ := trim_trimmed cs
  exact Trimmed.trim_eq ⟨⟨[], ws, rfl, rfl, blank⟩, starts, ends⟩

theorem trim_trim (cs : List Char) : trim (trim cs) = trim cs := by
  have same := @trim_append_blank cs [] rfl
  rwa [List.append_nil] at same

theorem trim_of_blank {ws : List Char} (blank : ws.all isBlank) : trim ws = [] := by
  have whole := trim_blank_append blank []
  rwa [List.append_nil] at whole

theorem head?_trim {cs : List Char} {c : Char} (starts : cs.head? = some c)
    (solid : isBlank c = false) : (trim cs).head? = some c := by
  obtain ⟨front, back, whole, blank, blank'⟩ := (trim_trimmed cs).around
  have refuse : ∀ {ws : List Char}, ws.all isBlank → ws.head? ≠ some c := fun all head =>
    Bool.eq_false_iff.mp solid (List.all_eq_true.mp all c (List.mem_of_head? head))
  rw [whole, List.head?_append, List.head?_append] at starts
  cases first : front.head? with
  | some d => exact (refuse blank (first.trans (by rw [first] at starts; exact starts))).elim
  | none =>
    cases inner : (trim cs).head? with
    | some d => rw [first, inner] at starts; exact starts
    | none => exact (refuse blank' (by rw [first, inner] at starts; exact starts)).elim

namespace Format

variable {o : FormatOptions}

/-- The text of some lines, each behind a newline. -/
def emit (lines : Lines) : List Char := lines.flatMap ('\n' :: ·)

theorem emit_append (a b : Lines) : emit (a ++ b) = emit a ++ emit b := List.flatMap_append

@[simp] theorem emit_nil : emit [] = [] := rfl

@[simp] theorem emit_cons (line : List Char) (lines : Lines) :
    emit (line :: lines) = '\n' :: (line ++ emit lines) := rfl

theorem emit_replicate (n : Nat) : emit (List.replicate n []) = List.replicate n '\n' := by
  induction n with
  | zero => rfl
  | succ n ih => exact congrArg ('\n' :: ·) ih

/-- A text is its lines with a newline between each two of them. -/
theorem splitOn_lines (text : List Char) :
    ∃ first later, text.splitOn '\n' = first :: later ∧ text = first ++ emit later ∧
      ∀ line ∈ first :: later, '\n' ∉ line := by
  induction text with
  | nil => exact ⟨[], [], rfl, rfl, List.forall_mem_singleton.mpr List.not_mem_nil⟩
  | cons c text ih =>
    obtain ⟨first, later, split, rfl, plain⟩ := ih
    by_cases newline : c = '\n'
    · subst newline
      refine ⟨[], first :: later, ?_, rfl, List.forall_mem_cons.mpr ⟨List.not_mem_nil, plain⟩⟩
      rw [List.splitOn_cons_eq_if_modifyHead, if_pos (by rfl)]
      exact congrArg ([] :: ·) split
    · obtain ⟨here, others⟩ := List.forall_mem_cons.mp plain
      refine ⟨c :: first, later, ?_, rfl, List.forall_mem_cons.mpr
        ⟨List.not_mem_cons_of_ne_of_not_mem (Ne.symm newline) here, others⟩⟩
      rw [List.splitOn_cons_eq_if_modifyHead, if_neg (by simpa using newline)]
      exact congrArg (List.modifyHead (c :: ·)) split

/-- A text that is put together of lines is cut into these. -/
theorem splitOn_emit {first : List Char} {later : Lines}
    (plain : ∀ line ∈ first :: later, '\n' ∉ line) :
    (first ++ emit later).splitOn '\n' = first :: later := by
  induction later generalizing first with
  | nil =>
    rw [emit_nil, List.append_nil]
    exact List.splitOn_eq_singleton (plain _ (List.mem_cons_self ..))
  | cons line later ih =>
    obtain ⟨here, others⟩ := List.forall_mem_cons.mp plain
    rw [emit_cons, List.splitOn_append_cons_self_of_not_mem here, ih others]

/-! ### Blocks -/

theorem leadingColumns_append {ws : List Char} (blank : ws.all isBlank) (cs : List Char) :
    leadingColumns o (ws ++ cs) = leadingColumns o ws + leadingColumns o cs := by
  induction ws with
  | nil => exact (Nat.zero_add _).symm
  | cons c ws ih =>
    obtain ⟨first, later⟩ := Bool.and_eq_true_iff.mp blank
    rw [List.cons_append, leadingColumns, leadingColumns, if_pos first, if_pos first, ih later,
      Nat.add_assoc]

theorem leadingColumns_replicate (n : Nat) : leadingColumns o (List.replicate n ' ') = n := by
  induction n with
  | zero => rfl
  | succ n ih =>
    rw [List.replicate_succ, leadingColumns, ih]
    exact Nat.add_comm 1 n

theorem leadingColumns_trim (cs : List Char) : leadingColumns o (trim cs) = 0 := by
  have starts := (trim_trimmed cs).starts
  cases inner : trim cs with
  | nil => rfl
  | cons c rest =>
    rw [leadingColumns, if_neg]
    exact Bool.not_eq_true _ ▸ starts c (inner ▸ rfl)

theorem indent_blank (level : Nat) : (indent o level).all isBlank := by
  unfold indent
  split <;> exact List.all_eq_true.mpr fun c member => by rw [List.eq_of_mem_replicate member]; rfl

theorem replicate_blank (n : Nat) : (List.replicate n ' ').all isBlank :=
  List.all_eq_true.mpr fun c member => by rw [List.eq_of_mem_replicate member]; rfl

/-- A line that is not blank, without white space at its ends. -/
structure Tight (line : List Char) : Prop where
  trimmed : trim line = line
  some_text : line ≠ []
  plain : '\n' ∉ line

theorem Tight.trim {line : List Char} (plain : '\n' ∉ line) (some_text : trim line ≠ []) :
    Tight (trim line) := by
  refine ⟨trim_trim line, some_text, fun newline => plain ?_⟩
  obtain ⟨front, back, whole, _⟩ := (trim_trimmed line).around
  rw [whole]
  exact List.mem_append_left _ (List.mem_append_right _ newline)

/-- A line at a level: the columns that it has more than the level, and its text. -/
def placed (o : FormatOptions) (level : Nat) (line : Nat × List Char) : List Char :=
  indent o level ++ List.replicate line.1 ' ' ++ line.2

section Placed

variable {level : Nat} {line : Nat × List Char} (tight : Tight line.2)

theorem placed_lead (o : FormatOptions) (level n : Nat) :
    (indent o level ++ List.replicate n ' ').all isBlank := by
  rw [List.all_append, indent_blank, replicate_blank]
  rfl

include tight

theorem trim_placed : trim (placed o level line) = line.2 :=
  (trim_blank_append (placed_lead o level line.1) _).trans tight.trimmed

theorem leadingColumns_placed :
    leadingColumns o (placed o level line) = leadingColumns o (indent o level) + line.1 := by
  rw [placed, leadingColumns_append (placed_lead o level line.1), ← tight.trimmed,
    leadingColumns_trim, leadingColumns_append (indent_blank level), leadingColumns_replicate,
    Nat.add_zero]

theorem placed_plain : '\n' ∉ placed o level line := by
  intro newline
  rcases List.mem_append.mp newline with lead | text
  · rcases List.mem_append.mp lead with indented | more
    · unfold indent at indented
      split at indented <;> cases List.eq_of_mem_replicate indented
    · cases List.eq_of_mem_replicate more
  · exact tight.plain text

end Placed

/-- The lines of a block. One of them has no more columns than the level. -/
theorem block_placed (o : FormatOptions) (text : List Char) (level : Nat) :
    ∃ lines : List (Nat × List Char), block o text level = lines.map (placed o level) ∧
      (∀ line ∈ lines, Tight line.2) ∧ (lines ≠ [] → ∃ line ∈ lines, line.1 = 0) := by
  obtain ⟨first, later, split, _, plain⟩ := splitOn_lines text
  obtain ⟨plain_first, plain_later⟩ := List.forall_mem_cons.mp plain
  rw [block, laterLines, split, List.head?_cons, Option.getD_some, List.drop_succ_cons,
    List.drop_zero]
  have solid : ∀ line ∈ later.filter fun line => !(trim line).isEmpty, Tight (trim line) := by
    intro line member
    obtain ⟨inside, solid⟩ := List.mem_filter.mp member
    exact .trim (plain_later line inside) (by simpa using solid)
  generalize (later.filter fun line => !(trim line).isEmpty) = rest at solid ⊢
  generalize least_eq : ((rest.map (leadingColumns o)).min?).getD 0 = least
  refine ⟨(if (trim first).isEmpty then [] else [(0, trim first)]) ++
    rest.map fun line => (leadingColumns o line - least, trim line), ?_, ?_, ?_⟩
  · rw [List.map_append, List.map_map]
    split
    · rfl
    · rw [List.map_singleton, placed, List.replicate_zero, List.append_nil]
      rfl
  · intro line member
    rcases List.mem_append.mp member with here | there
    · split at here
      · cases here
      · rename_i some_text
        rw [List.mem_singleton.mp here]
        exact .trim plain_first (by simpa using some_text)
    · obtain ⟨line, inside, rfl⟩ := List.mem_map.mp there
      exact solid line inside
  · intro some_line
    by_cases empty : (trim first).isEmpty
    · rw [if_pos empty] at some_line ⊢
      cases rest with
      | nil => exact (some_line rfl).elim
      | cons line rest =>
        have attained : least ∈ (line :: rest).map (leadingColumns o) := by
          obtain ⟨m, found⟩ : ∃ m, ((line :: rest).map (leadingColumns o)).min? = some m :=
            ⟨_, rfl⟩
          rw [found, Option.getD_some] at least_eq
          exact least_eq ▸ List.min?_mem found
        obtain ⟨shortest, inside, same⟩ := List.mem_map.mp attained
        exact ⟨_, List.mem_map_of_mem inside, by rw [same]; exact Nat.sub_self _⟩
    · rw [if_neg empty]
      exact ⟨_, List.mem_append_left _ (List.mem_singleton_self _), rfl⟩

/-- The text of a block is laid out as its lines again, up to where a word follows. -/
theorem block_again (o : FormatOptions) (text : List Char) (level : Nat) {w : List Char}
    (blank : w.all isBlank) (plain : '\n' ∉ w) :
    block o (emit (block o text level) ++ '\n' :: w) level = block o text level := by
  obtain ⟨lines, same, tight, flush⟩ := block_placed o text level
  rw [same]
  have split : (emit (lines.map (placed o level)) ++ '\n' :: w).splitOn '\n' =
      [] :: (lines.map (placed o level) ++ [w]) := by
    have whole : emit (lines.map (placed o level)) ++ '\n' :: w =
        [] ++ emit (lines.map (placed o level) ++ [w]) := by
      rw [emit_append, emit_cons, emit_nil, List.append_nil, List.nil_append]
    rw [whole]
    refine splitOn_emit (List.forall_mem_cons.mpr ⟨List.not_mem_nil, fun line member => ?_⟩)
    rcases List.mem_append.mp member with here | last
    · obtain ⟨line, inside, rfl⟩ := List.mem_map.mp here
      exact placed_plain (tight line inside)
    · rw [List.mem_singleton.mp last]
      exact plain
  have kept : laterLines (emit (lines.map (placed o level)) ++ '\n' :: w) =
      lines.map (placed o level) := by
    rw [laterLines, split, List.drop_succ_cons, List.drop_zero, List.filter_append,
      List.filter_eq_self.mpr, List.filter_cons_of_neg, List.filter_nil, List.append_nil]
    · rw [trim_of_blank blank]
      decide
    · intro line member
      obtain ⟨line, inside, rfl⟩ := List.mem_map.mp member
      rw [trim_placed (tight line inside)]
      simpa using (tight line inside).some_text
  rw [block, kept, split, List.head?_cons, Option.getD_some, if_pos (by rfl), List.nil_append]
  cases lines with
  | nil => rfl
  | cons line lines =>
    have least : ((((line :: lines).map (placed o level)).map (leadingColumns o)).min?).getD 0 =
        leadingColumns o (indent o level) := by
      have found : (((line :: lines).map (placed o level)).map (leadingColumns o)).min? =
          some (leadingColumns o (indent o level)) := by
        rw [List.min?_eq_some_iff, List.map_map]
        constructor
        · obtain ⟨shortest, inside, none_more⟩ := flush (List.cons_ne_nil _ _)
          refine List.mem_map.mpr ⟨shortest, inside, ?_⟩
          rw [Function.comp_apply, leadingColumns_placed (tight shortest inside), none_more,
            Nat.add_zero]
        · intro n member
          obtain ⟨other, inside, rfl⟩ := List.mem_map.mp member
          rw [Function.comp_apply, leadingColumns_placed (tight other inside)]
          exact Nat.le_add_right _ _
      rw [found, Option.getD_some]
    rw [least, List.map_map]
    refine List.map_congr_left fun other inside => ?_
    rw [Function.comp_apply, leadingColumns_placed (tight other inside),
      trim_placed (tight other inside), Nat.add_sub_cancel_left]
    rfl

/-! ### Gaps -/

/-- Lines without blank ones at the end. -/
theorem rdropWhile_blank (lines : Lines) :
    ∃ n, lines = lines.rdropWhile (·.isEmpty) ++ List.replicate n [] := by
  induction lines using List.reverseRecOn with
  | nil => exact ⟨0, rfl⟩
  | append_singleton front last ih =>
    by_cases blank : last.isEmpty
    · obtain ⟨n, same⟩ := ih
      rw [List.rdropWhile_concat_pos _ _ _ blank]
      refine ⟨n + 1, ?_⟩
      rw [List.replicate_succ', ← List.append_assoc, ← same, List.isEmpty_iff.mp blank]
    · rw [List.rdropWhile_concat_neg _ _ _ blank]
      exact ⟨0, (List.append_nil _).symm⟩

theorem rdropWhile_replicate (lines : Lines) (n : Nat) :
    (lines ++ List.replicate n []).rdropWhile (·.isEmpty) = lines.rdropWhile (·.isEmpty) := by
  induction n with
  | zero => rw [List.replicate_zero, List.append_nil]
  | succ n ih =>
    rw [List.replicate_succ', ← List.append_assoc, List.rdropWhile_concat_pos _ _ _ (by rfl), ih]

theorem rdropWhile_append (front : Lines) {a b : Lines}
    (same : a.rdropWhile (·.isEmpty) = b.rdropWhile (·.isEmpty)) :
    (front ++ a).rdropWhile (·.isEmpty) = (front ++ b).rdropWhile (·.isEmpty) := by
  obtain ⟨n, a_eq⟩ := rdropWhile_blank a
  obtain ⟨m, b_eq⟩ := rdropWhile_blank b
  rw [a_eq, b_eq, same, ← List.append_assoc, ← List.append_assoc, rdropWhile_replicate,
    rdropWhile_replicate]

/-- Lines of which the first and the last one are not blank, with at most one blank line between
two others. -/
inductive Collapsed : Lines → Prop
  | nil : Collapsed []
  | line {content : Lines} {line : List Char} (before : Collapsed content)
      (some_text : line ≠ []) : Collapsed (content ++ [line])
  | apart {content : Lines} {line : List Char} (before : Collapsed content)
      (some_line : content ≠ []) (some_text : line ≠ []) : Collapsed (content ++ [[]] ++ [line])

theorem Collapsed.rdropWhile_eq {content : Lines} (h : Collapsed content) :
    content.rdropWhile (·.isEmpty) = content := by
  cases h with
  | nil => rfl
  | line _ some_text | apart _ _ some_text =>
    exact List.rdropWhile_concat_neg _ _ _ (by simpa using some_text)

/-- Collapsed lines are kept as they are. -/
theorem Collapsed.collapse_append {content : Lines} (h : Collapsed content) (rest : Lines) :
    collapse (content ++ rest) [] false = collapse rest content false := by
  induction h generalizing rest with
  | nil => rfl
  | @line content line _ some_text ih =>
    obtain ⟨c, cs, rfl⟩ := List.exists_cons_of_ne_nil some_text
    rw [List.append_assoc, ih]
    exact congrArg (collapse rest · false) (by simp)
  | @apart content line _ some_line some_text ih =>
    obtain ⟨c, cs, rfl⟩ := List.exists_cons_of_ne_nil some_text
    obtain ⟨d, ds, rfl⟩ := List.exists_cons_of_ne_nil some_line
    rw [List.append_assoc, List.append_assoc, ih]
    exact congrArg (collapse rest · false) (by simp)

theorem collapse_collapsed (parts : Lines) {content : Lines} {pending : Bool}
    (h : Collapsed content) (waits : pending → content ≠ []) :
    Collapsed (collapse parts content pending).1 ∧
      ((collapse parts content pending).2 → (collapse parts content pending).1 ≠ []) := by
  induction parts generalizing content pending with
  | nil => exact ⟨h, waits⟩
  | cons part parts ih =>
    cases part with
    | nil => exact ih h fun some_line none => by simp [none] at some_line
    | cons c cs =>
      refine ih ?_ nofun
      cases pending with
      | false => exact (List.append_nil content).symm ▸ .line h (List.cons_ne_nil _ _)
      | true => exact .apart h (waits rfl) (List.cons_ne_nil _ _)

theorem collapse_fresh (parts : Lines) : Collapsed (collapse parts [] false).1 ∧
    ((collapse parts [] false).2 → (collapse parts [] false).1 ≠ []) :=
  collapse_collapsed parts .nil fun waits => (Bool.false_ne_true waits).elim

/-- Blank lines behind the others add none. -/
theorem collapse_replicate (parts content : Lines) (pending : Bool) (n : Nat) :
    (collapse (parts ++ List.replicate n []) content pending).1 =
      (collapse parts content pending).1 := by
  induction parts generalizing content pending with
  | nil =>
    induction n generalizing pending with
    | zero => rfl
    | succ n ih => exact ih _
  | cons part parts ih =>
    cases part with
    | nil => exact ih ..
    | cons c cs => exact ih ..

theorem mem_collapse {parts content : Lines} {pending : Bool} {line : List Char}
    (h : line ∈ (collapse parts content pending).1) :
    line ∈ content ∨ line = [] ∨ line ∈ parts := by
  induction parts generalizing content pending with
  | nil => exact .inl h
  | cons part parts ih =>
    cases part with
    | nil => exact (ih h).imp_right (Or.imp_right (List.mem_cons_of_mem _))
    | cons c cs =>
      rcases ih h with inside | blank | later
      · rcases List.mem_append.mp inside with front | last
        · rcases List.mem_append.mp front with before | blank
          · exact .inl before
          · refine .inr (.inl ?_)
            split at blank
            · exact List.mem_singleton.mp blank
            · cases blank
        · exact .inr (.inr (List.mem_singleton.mp last ▸ List.mem_cons_self ..))
      · exact .inr (.inl blank)
      · exact .inr (.inr (List.mem_cons_of_mem _ later))

/-- The parts of a gap, but for the last one if it is blank. It stands before the next rule. -/
def fullParts (parts : Lines) : Lines :=
  if parts.getLast? == some [] then parts.dropLast else parts

theorem fullParts_concat (parts : Lines) : fullParts (parts ++ [[]]) = parts := by
  rw [fullParts, if_pos (by rw [List.getLast?_concat]; rfl), List.dropLast_concat]

theorem fullParts_replicate (parts : Lines) :
    ∃ n, parts = fullParts parts ++ List.replicate n [] := by
  rw [fullParts]
  split
  · rename_i blank
    obtain ⟨front, rfl⟩ := List.getLast?_eq_some_iff.mp (beq_iff_eq.mp blank)
    exact ⟨1, by rw [List.dropLast_concat]; rfl⟩
  · exact ⟨0, (List.append_nil _).symm⟩

/-- The lines that a gap adds to those before it. -/
def gapLines (parts : Lines) : Lines :=
  (collapse (fullParts (parts.map trim)) [] false).1 ++
    if (collapse (fullParts (parts.map trim)) [] false).2 then [[]] else []

section GapLines

variable (parts : Lines)

theorem gapLines_append (lines : Lines) :
    (if (collapse (fullParts (parts.map trim)) [] false).1.isEmpty then lines
      else lines ++ (collapse (fullParts (parts.map trim)) [] false).1 ++
        if (collapse (fullParts (parts.map trim)) [] false).2 then [[]] else []) =
      lines ++ gapLines parts := by
  obtain ⟨_, waits⟩ := collapse_fresh (fullParts (parts.map trim))
  rw [gapLines]
  generalize collapse (fullParts (parts.map trim)) [] false = found at waits ⊢
  obtain ⟨content, pending⟩ := found
  cases content with
  | nil =>
    cases pending with
    | false => exact (List.append_nil _).symm
    | true => exact (waits rfl rfl).elim
  | cons line content => exact List.append_assoc ..

/-- What a gap at the front of a text adds. -/
theorem gap_front (lines : Lines) (text : List Char) :
    gap lines text false = lines ++ gapLines (text.splitOn '\n') := gapLines_append _ lines

/-- What a gap behind a rule adds. -/
theorem gap_behind (lines : Lines) {text first : List Char} {later : Lines}
    (split : text.splitOn '\n' = first :: later) :
    gap lines text true = pushBlank (extendLast lines (trim first)) ++ gapLines later := by
  rw [← gapLines_append, gap, split]
  rfl

theorem mem_gapLines {line : List Char} (h : line ∈ gapLines parts) :
    line = [] ∨ ∃ part ∈ parts, line = trim part := by
  rcases List.mem_append.mp h with content | blank
  · rcases mem_collapse content with none | blank | inside
    · cases none
    · exact .inl blank
    · obtain ⟨n, whole⟩ := fullParts_replicate (parts.map trim)
      have member : line ∈ parts.map trim := whole ▸ List.mem_append_left _ inside
      obtain ⟨part, inside, same⟩ := List.mem_map.mp member
      exact .inr ⟨part, inside, same.symm⟩
  · refine .inl ?_
    split at blank
    · exact List.mem_singleton.mp blank
    · cases blank

theorem gapLines_trim : (gapLines parts).map trim = gapLines parts := by
  have same : ∀ line ∈ gapLines parts, trim line = line := fun line member => by
    rcases mem_gapLines parts member with rfl | ⟨part, _, rfl⟩
    · rfl
    · exact trim_trim part
  exact (List.map_congr_left same).trans (List.map_id _)

theorem gapLines_plain (plain : ∀ part ∈ parts, '\n' ∉ part) :
    ∀ line ∈ gapLines parts, '\n' ∉ line := by
  intro line member
  rcases mem_gapLines parts member with rfl | ⟨part, inside, rfl⟩
  · exact List.not_mem_nil
  · by_cases blank : trim part = []
    · rw [blank]
      exact List.not_mem_nil
    · exact (Tight.trim (plain part inside) blank).plain

/-- The lines of a gap, in front of the next rule, come out as they are. -/
theorem gapLines_again : gapLines (gapLines parts ++ [[]]) = gapLines parts := by
  obtain ⟨collapsed, waits⟩ := collapse_fresh (fullParts (parts.map trim))
  have whole : (gapLines parts ++ [[]]).map trim = gapLines parts ++ [[]] := by
    rw [List.map_append, gapLines_trim]
    rfl
  have again : collapse (gapLines parts) [] false =
      collapse (fullParts (parts.map trim)) [] false := by
    rw [gapLines]
    generalize collapse (fullParts (parts.map trim)) [] false = found at collapsed waits ⊢
    obtain ⟨content, pending⟩ := found
    rw [collapsed.collapse_append]
    cases pending with
    | false => rfl
    | true =>
      obtain ⟨line, lines, rfl⟩ := List.exists_cons_of_ne_nil (waits rfl)
      rfl
  rw [gapLines, whole, fullParts_concat, again]
  rfl

/-- A blank line in front adds none. -/
theorem gapLines_blank : gapLines ([] :: parts) = gapLines parts := by
  cases parts with
  | nil => rfl
  | cons part parts =>
    have full : fullParts (([] :: part :: parts).map trim) =
        [] :: fullParts ((part :: parts).map trim) := by
      rw [fullParts, fullParts, List.map_cons, List.map_cons, List.getLast?_cons_cons]
      split <;> rfl
    rw [gapLines, full]
    rfl

/-- What a gap adds that is not blank at its end. -/
theorem gapLines_content :
    (gapLines parts).rdropWhile (·.isEmpty) = (collapse (parts.map trim) [] false).1 := by
  obtain ⟨n, whole⟩ := fullParts_replicate (parts.map trim)
  obtain ⟨collapsed, _⟩ := collapse_fresh (fullParts (parts.map trim))
  have front : (gapLines parts).rdropWhile (·.isEmpty) =
      (collapse (fullParts (parts.map trim)) [] false).1 := by
    rw [gapLines]
    split
    · exact (rdropWhile_replicate _ 1).trans collapsed.rdropWhile_eq
    · rw [List.append_nil, collapsed.rdropWhile_eq]
  rw [front, ← collapse_replicate _ _ _ n, ← whole]

/-- Blank lines at the end add none but at the end. -/
theorem gapLines_replicate (n : Nat) : (gapLines (parts ++ List.replicate n [])).rdropWhile
    (·.isEmpty) = (gapLines parts).rdropWhile (·.isEmpty) := by
  have blank : (List.replicate n ([] : List Char)).map trim = List.replicate n [] :=
    List.map_replicate
  rw [gapLines_content, gapLines_content, List.map_append, blank, collapse_replicate]

/-- Parts that make a gap add the same lines. At the end of a text those that are blank at the end
do not count. -/
def PartsAlike (last : Prop) (parts parts' : Lines) : Prop :=
  gapLines parts' = gapLines parts ∨ last ∧
    (gapLines parts').rdropWhile (·.isEmpty) = (gapLines parts).rdropWhile (·.isEmpty)

/-- The lines of a gap, maybe behind a blank one, make it add the same. At the end of a text some
blank ones may be left out. -/
theorem gapLines_alike {last : Prop} {kept : Lines} {n m k : Nat}
    (lines : List.replicate n [] ++ gapLines parts = kept ++ List.replicate m [])
    (ends : m = 0 ∧ k = 1 ∨ last) : PartsAlike last parts (kept ++ List.replicate k []) := by
  have again : gapLines (kept ++ List.replicate m [] ++ [[]]) = gapLines parts := by
    rw [← lines]
    clear lines
    induction n with
    | zero => exact gapLines_again parts
    | succ n ih => exact (gapLines_blank _).trans ih
  rcases ends with ⟨rfl, rfl⟩ | last
  · rw [List.replicate_zero, List.append_nil] at again
    exact .inl again
  · refine .inr ⟨last, ?_⟩
    have blanks := gapLines_replicate kept (m + 1)
    rw [List.replicate_succ', ← List.append_assoc, again] at blanks
    exact (gapLines_replicate kept k).trans blanks.symm

end GapLines

/-- A text that a gap adds the same lines for as for another one, behind whatever lines. At the
end of a text those that are blank at the end do not count. -/
def GapAlike (last : Prop) (afterRule : Bool) (text text' : List Char) : Prop :=
  ∀ lines, gap lines text' afterRule = gap lines text afterRule ∨ last ∧
    (gap lines text' afterRule).rdropWhile (·.isEmpty) =
      (gap lines text afterRule).rdropWhile (·.isEmpty)

theorem PartsAlike.front {last : Prop} {text text' : List Char}
    (h : PartsAlike last (text.splitOn '\n') (text'.splitOn '\n')) :
    GapAlike last false text text' := by
  intro lines
  rw [gap_front, gap_front]
  exact h.imp (congrArg (lines ++ ·)) (And.imp_right (rdropWhile_append lines))

theorem PartsAlike.behind {last : Prop} {later later' : Lines} (h : PartsAlike last later later')
    {text text' first first' : List Char} (split : text.splitOn '\n' = first :: later)
    (split' : text'.splitOn '\n' = first' :: later') (same : trim first' = trim first) :
    GapAlike last true text text' := by
  intro lines
  rw [gap_behind lines split, gap_behind lines split', same]
  exact h.imp (congrArg (_ ++ ·)) (And.imp_right (rdropWhile_append _))

/-! ### Rules -/

section Rules

variable {source : List Char} {r : Rule}

/-- One rule behind the text before it. -/
theorem rules_cons {lbrace rbrace : Span} (opens : r.lbrace = some lbrace)
    (closes : r.rbrace = some rbrace) (rest : List Rule) (lines : Lines) (done : Nat) :
    rules o source (r :: rest) lines done =
      (rule o source r lbrace rbrace).bind fun inner =>
        rules o source rest
          (gap lines (slice source ⟨done, r.span.start⟩) (0 < done) ++ inner) rbrace.stop := by
  rw [rules, opens, closes]
  rfl

theorem rules_step {rest : List Rule} {lines : Lines} {done : Nat} {laid : Lines × Nat}
    (h : rules o source (r :: rest) lines done = .ok laid) :
    ∃ lbrace rbrace inner, r.lbrace = some lbrace ∧ r.rbrace = some rbrace ∧
      rule o source r lbrace rbrace = .ok inner ∧
      rules o source rest
        (gap lines (slice source ⟨done, r.span.start⟩) (0 < done) ++ inner) rbrace.stop =
        .ok laid := by
  cases opens : r.lbrace with
  | none =>
    rw [rules, opens] at h
    cases h
  | some lbrace =>
    cases closes : r.rbrace with
    | none =>
      rw [rules, opens, closes] at h
      cases h
    | some rbrace =>
      rw [rules_cons opens closes] at h
      cases inner : rule o source r lbrace rbrace with
      | error e =>
        rw [inner] at h
        cases h
      | ok inner_lines =>
        rw [inner] at h
        exact ⟨lbrace, rbrace, inner_lines, rfl, rfl, inner, h⟩

end Rules

end Format

end RuleDesk
