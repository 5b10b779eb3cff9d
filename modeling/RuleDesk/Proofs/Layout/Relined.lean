import RuleDesk.Proofs.Layout.Lines
import RuleDesk.Proofs.Lexing.Reflow

namespace RuleDesk

/-! ## Lines that are laid out anew

A text is cut into lines, and these are trimmed, dropped if they are blank, and put together
again with other white space around them. -/

namespace Reflowed

variable {ended : Prop} {cs cs' : List Char}

/-- What stays in front, with its newlines. -/
theorem append (h : Reflowed ended cs cs') (front : List Char) :
    Reflowed ended (front ++ cs) (front ++ cs') := by
  induction front with
  | nil => exact h
  | cons c front ih =>
    by_cases newline : c = '\n'
    · subst newline
      exact .edge (w := ['\n']) (v := ['\n']) rfl (List.mem_singleton_self _) rfl rfl ih
    · exact .same newline ih

/-- A text that ends in blanks, which a newline takes the place of. -/
theorem closed {w : List Char} (front : List Char) (blank : w.all isBlank) :
    Reflowed ended (front ++ w) (front ++ ['\n']) :=
  Reflowed.append (.last blank rfl (.inl rfl)) front

end Reflowed

/-- Something is left of a text that does not end all. -/
theorem Respaced.ne_nil {ended : Prop} {cs cs' : List Char} (h : Respaced ended cs cs')
    (alive : ¬ ended) : cs' ≠ [] := by
  rintro rfl
  obtain ⟨w, v, rest, rest', rfl, none, _, _, later⟩ := h
  obtain ⟨rfl, rfl⟩ := List.append_eq_nil_iff.mp none.symm
  generalize text : ([] : List Char) = cs' at later
  cases later with
  | last _ _ starts =>
    subst text
    rcases starts with none | ⟨_, done⟩
    · cases none
    · exact alive done
  | same => cases text
  | edge _ _ _ starts =>
    rw [(List.append_eq_nil_iff.mp text.symm).1] at starts
    cases starts

theorem all_blank_cons {w a : List Char} (blank : w.all isBlank) (blank' : a.all isBlank) :
    (w ++ '\n' :: a).all isBlank := by
  rw [List.all_append, List.all_cons, blank, blank']
  rfl

theorem trim_eq_nil {cs : List Char} (h : trim cs = []) : cs.all isBlank := by
  obtain ⟨front, back, whole, blank, blank'⟩ := (trim_trimmed cs).around
  rw [whole, h, List.append_nil, List.all_append, blank, blank']
  rfl

namespace Format

/-- Lines that others come of: blank ones may be dropped and put in, and the others lose the
white space at their ends and get some in front. -/
inductive Relined : Lines → Lines → Prop
  | none : Relined [] []
  | drop {part : List Char} {parts lines : Lines} (blank : trim part = [])
      (later : Relined parts lines) : Relined (part :: parts) lines
  | add {parts lines : Lines} (later : Relined parts lines) : Relined parts ([] :: lines)
  | keep {ws : List Char} (part : List Char) {parts lines : Lines} (white : ws.all isWhite)
    (later : Relined parts lines) :
    Relined (part :: parts) ((ws ++ trim part) :: lines)

namespace Relined

variable {parts lines : Lines}

/-- The text of the lines is laid out anew. -/
theorem reflowed {ended : Prop} (h : Relined parts lines) {w v e v' : List Char}
    (blank : w.all isBlank) (white : v.all isWhite)
    (starts : v = [] ∨ v.head? = some '\n') (blank' : e.all isBlank) (white' : v'.all isWhite)
    (starts' : v'.head? = some '\n' ∨ v' = [] ∧ ended) :
    Reflowed ended (w ++ (emit parts ++ e)) (v ++ (emit lines ++ v')) := by
  have newline : ∀ a, (v = [] ∨ v.head? = some '\n') → (v ++ '\n' :: a).head? = some '\n' := by
    rintro a (rfl | head)
    · rfl
    · rw [List.head?_append, head]
      rfl
  induction h generalizing w v with
  | none =>
    refine .last ?_ ?_ ?_
    · rw [emit_nil, List.nil_append, List.all_append, blank, blank']
      rfl
    · rw [emit_nil, List.nil_append, List.all_append, white, white']
      rfl
    · rcases starts with rfl | head
      · exact starts'
      · exact .inl (by rw [List.head?_append, head]; rfl)
  | @drop part parts lines empty later ih =>
    have whole := ih (all_blank_cons blank (trim_eq_nil empty)) white starts newline
    simpa only [emit_cons, List.append_assoc, List.cons_append] using whole
  | @add parts lines later ih =>
    have more : (v ++ ['\n']).all isWhite := by
      rw [List.all_append, white]
      rfl
    have first := newline [] starts
    have whole := ih blank more (.inr first) fun a _ => by
      rw [List.head?_append, first]
      rfl
    simpa only [emit_cons, List.append_assoc, List.cons_append, List.nil_append] using whole
  | @keep ws part parts lines lead later ih =>
    obtain ⟨front, back, whole, front_blank, back_blank⟩ := (trim_trimmed part).around
    have rest := ih (w := back) (v := []) back_blank rfl (.inl rfl) fun a _ => rfl
    have more : (v ++ '\n' :: ws).all isWhite := by
      rw [List.all_append, List.all_cons, white, lead]
      rfl
    have edge := Reflowed.edge (all_blank_cons blank front_blank)
      (List.mem_append_right _ (List.mem_cons_self ..)) more
      (newline ws starts) (rest.append (trim part))
    generalize trim part = inner at whole edge ⊢
    rw [whole]
    simpa only [emit_cons, List.append_assoc, List.cons_append, List.nil_append] using edge

theorem drop_last (h : Relined parts lines) {part : List Char} (blank : trim part = []) :
    Relined (parts ++ [part]) lines := by
  induction h with
  | none => exact .drop blank .none
  | drop empty _ ih => exact .drop empty ih
  | add _ ih => exact .add ih
  | keep part white _ ih => exact .keep part white ih

theorem add_last (h : Relined parts lines) : Relined parts (lines ++ [[]]) := by
  induction h with
  | none => exact .add .none
  | drop empty _ ih => exact .drop empty ih
  | add _ ih => exact .add ih
  | keep part white _ ih => exact .keep part white ih

theorem leave_last {front : Lines} (h : Relined parts (front ++ [[]])) : Relined parts front := by
  generalize whole : front ++ [[]] = lines at h
  induction h generalizing front with
  | none => simp at whole
  | drop empty _ ih => exact .drop empty (ih whole)
  | @add parts lines later ih =>
    cases front with
    | nil =>
      cases whole
      exact later
    | cons line front =>
      cases whole
      exact .add (ih rfl)
  | @keep ws part parts lines white later ih =>
    cases front with
    | nil =>
      obtain ⟨empty, rfl⟩ := List.cons.inj whole
      exact .drop (List.append_eq_nil_iff.mp empty.symm).2 later
    | cons line front =>
      cases whole
      exact .keep part white (ih rfl)

/-- Blank lines at the end may be left out. -/
theorem shorten {kept : Lines} (n : Nat) (h : Relined parts (kept ++ List.replicate n [])) :
    Relined parts kept := by
  induction n with
  | zero => simpa using h
  | succ n ih =>
    rw [List.replicate_succ', ← List.append_assoc] at h
    exact ih h.leave_last

/-- The lines that are not blank, each with some white space in front. -/
theorem filtered (parts : Lines) {f : List Char → List Char}
    (spaced : ∀ line, ∃ ws, f line = ws ++ trim line ∧ ws.all isWhite) :
    Relined parts ((parts.filter fun line => !(trim line).isEmpty).map f) := by
  induction parts with
  | nil => exact .none
  | cons part parts ih =>
    by_cases blank : trim part = []
    · rw [List.filter_cons_of_neg (by rw [blank]; decide)]
      exact .drop blank ih
    · rw [List.filter_cons_of_pos (by simpa using blank), List.map_cons]
      obtain ⟨ws, same, white⟩ := spaced part
      rw [same]
      exact .keep part white ih

end Relined

/-! ### Blocks and gaps -/

theorem indent_white (o : FormatOptions) (level : Nat) : (indent o level).all isWhite := by
  unfold indent
  split <;> exact List.all_eq_true.mpr fun c member => by rw [List.eq_of_mem_replicate member]; rfl

/-- The lines of a text that starts inside of a line, where this line goes on with what it is
laid out as. -/
theorem respaced_lines {ended : Prop} {lead v' : List Char} (first : List Char)
    {later lines : Lines} (h : Relined later lines) (white : lead.all isWhite)
    (white' : v'.all isWhite) (starts : v'.head? = some '\n' ∨ v' = [] ∧ ended) :
    Respaced ended (first ++ emit later)
      ((if trim first = [] then [] else lead ++ trim first) ++ (emit lines ++ v')) := by
  split
  · rename_i blank
    have whole :=
      h.reflowed (v := []) (e := []) (trim_eq_nil blank) rfl (.inl rfl) rfl white' starts
    rw [List.append_nil] at whole
    exact whole.respaced
  · obtain ⟨front, back, whole, front_blank, back_blank⟩ := (trim_trimmed first).around
    have rest := h.reflowed (v := []) (e := []) back_blank rfl (.inl rfl) rfl white' starts
    refine ⟨front, lead, trim first ++ (back ++ emit later), trim first ++ (emit lines ++ v'), ?_,
      ?_, front_blank, white, ?_⟩
    · generalize trim first = inner at whole ⊢
      rw [whole]
      simp only [List.append_assoc]
    · exact List.append_assoc ..
    · rw [List.append_nil] at rest
      exact rest.append (trim first)

/-- The text of a block, which goes on in white space. -/
theorem block_respaced {ended : Prop} (o : FormatOptions) (text : List Char) (level : Nat)
    {v' : List Char} (white : v'.all isWhite)
    (starts : v'.head? = some '\n' ∨ v' = [] ∧ ended) :
    Respaced ended text (emit (block o text level) ++ v') := by
  obtain ⟨first, later, split, whole, _⟩ := splitOn_lines text
  rw [block, laterLines, split, List.head?_cons, Option.getD_some, List.drop_succ_cons,
    List.drop_zero, emit_append, List.append_assoc]
  generalize (((later.filter fun line => !(trim line).isEmpty).map (leadingColumns o)).min?).getD
    0 = least
  have relined : Relined later ((later.filter fun line => !(trim line).isEmpty).map fun line =>
      indent o level ++ List.replicate (leadingColumns o line - least) ' ' ++ trim line) :=
    .filtered later fun line => ⟨_, rfl, by
      rw [List.all_append, indent_white]
      exact List.all_eq_true.mpr fun c member => by rw [List.eq_of_mem_replicate member]; rfl⟩
  have lead : ('\n' :: indent o level).all isWhite := by
    rw [List.all_cons, indent_white]
    rfl
  have spaced := respaced_lines first relined lead white starts
  rw [← whole] at spaced
  by_cases blank : trim first = []
  · rw [if_pos blank] at spaced
    rw [if_pos (by rw [blank]; rfl)]
    exact spaced
  · rw [if_neg blank] at spaced
    rw [if_neg (by simpa using blank), emit_cons, emit_nil, List.append_nil]
    exact spaced

theorem collapse_relined (parts : Lines) (content : Lines) (pending : Bool) :
    ∃ more, (collapse (parts.map trim) content pending).1 = content ++ more ∧
      Relined parts more := by
  induction parts generalizing content pending with
  | nil => exact ⟨[], (List.append_nil _).symm, .none⟩
  | cons part parts ih =>
    cases inner : trim part with
    | nil =>
      obtain ⟨more, same, relined⟩ := ih content (!content.isEmpty)
      refine ⟨more, ?_, .drop inner relined⟩
      rw [List.map_cons, inner, collapse, same]
    | cons c cs =>
      obtain ⟨more, same, relined⟩ :=
        ih (content ++ (if pending then [[]] else []) ++ [c :: cs]) false
      have kept : Relined (part :: parts) ((c :: cs) :: more) :=
        inner ▸ Relined.keep part (show ([] : List Char).all isWhite from rfl) relined
      refine ⟨(if pending then [[]] else []) ++ (c :: cs) :: more, ?_, ?_⟩
      · rw [List.map_cons, inner, collapse, same]
        · simp only [List.append_assoc, List.cons_append, List.nil_append]
        · exact nofun
      · cases pending with
        | false => exact kept
        | true => exact .add kept

/-- The lines that a gap adds come of its parts. -/
theorem gapLines_relined (parts : Lines) : Relined parts (gapLines parts) := by
  have relined : ∀ parts : Lines, Relined parts ((collapse (parts.map trim) [] false).1 ++
      if (collapse (parts.map trim) [] false).2 then [[]] else []) := by
    intro parts
    obtain ⟨more, same, relined⟩ := collapse_relined parts [] false
    rw [same, List.nil_append]
    split
    · exact relined.add_last
    · rwa [List.append_nil]
  rcases List.eq_nil_or_concat parts with rfl | ⟨front, last, rfl⟩
  · exact relined []
  · rw [gapLines, List.concat_eq_append, List.map_append, List.map_singleton]
    by_cases blank : trim last = []
    · rw [blank, fullParts_concat]
      exact (relined front).drop_last blank
    · have full : fullParts (front.map trim ++ [trim last]) = (front ++ [last]).map trim := by
        rw [fullParts, List.getLast?_concat, if_neg (by simpa using blank), List.map_append,
          List.map_singleton]
      rw [full]
      exact relined _

theorem Relined.behind_blanks {parts lines : Lines} (h : Relined parts lines) (n : Nat) :
    Relined parts (List.replicate n [] ++ lines) := by
  induction n with
  | zero => exact h
  | succ n ih => exact .add ih

/-- The lines of a gap behind those before it. -/
theorem gap_lines (lines : Lines) (text first : List Char) (later : Lines)
    (split : text.splitOn '\n' = first :: later) (afterRule : Bool) :
    ∃ n, gap lines text afterRule =
      (if afterRule then extendLast lines (trim first) else lines) ++
        (List.replicate n [] ++ gapLines (if afterRule then later else first :: later)) := by
  cases afterRule with
  | false => exact ⟨0, split ▸ gap_front lines text⟩
  | true =>
    have pushed : ∀ lines : Lines, ∃ n, pushBlank lines = lines ++ List.replicate n [] := by
      intro lines
      unfold pushBlank
      split
      · exact ⟨1, rfl⟩
      · exact ⟨0, (List.append_nil _).symm⟩
    obtain ⟨n, same⟩ := pushed (extendLast lines (trim first))
    exact ⟨n, by rw [gap_behind lines split, same, List.append_assoc]; rfl⟩

end Format

end RuleDesk
