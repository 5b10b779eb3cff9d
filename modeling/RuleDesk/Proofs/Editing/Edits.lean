import RuleDesk.Feature.Rename
import RuleDesk.Proofs.Editing.Positions
import RuleDesk.Proofs.Lexing.Spelling

namespace RuleDesk

/-! ## Texts after edits -/

/-- The span that an edit of a text replaces. -/
def TextEdit.span? (text : List Char) (e : TextEdit) : Option Span :=
  (Lines.offset? text e.range.start).bind fun start => (Lines.offset? text e.range.stop).map
    fun stop => ⟨start, stop⟩

/-- A text after some edits. All their places are those of the text as it was,
and they come in the order of their places, so the last one is made first. -/
def applyEdits (text : List Char) : List TextEdit → Option (List Char)
  | [] => some text
  | e :: rest =>
    (applyEdits text rest).bind fun later =>
      (e.span? text).bind fun span =>
        (takeBytes? later span.start).bind fun front =>
          (dropBytes? later span.stop).map fun back => front ++ (e.newText.toList ++ back)

/-! ### Names behind sigils -/

/-- How many bytes come of the byte at an offset when the names at some spans,
all but their sigils, become names of so many bytes: the first byte behind a
sigil becomes the whole name. -/
def renamedWidth (names : List Span) (width n : Nat) : Nat :=
  if names.any fun a => a.start + 1 == n then width
  else if names.any fun a => a.start + 1 < n && n < a.stop then 0
  else 1

/-- Where an offset of the text is then. -/
def renamedOffset (names : List Span) (width : Nat) : Nat → Nat
  | 0 => 0
  | n + 1 => renamedOffset names width n + renamedWidth names width n

section

variable {names : List Span} {width : Nat}

theorem renamedOffset_mono {a b : Nat} (h : a ≤ b) :
    renamedOffset names width a ≤ renamedOffset names width b := by
  induction h with
  | refl => exact Nat.le_refl _
  | step _ ih => exact Nat.le_trans ih (Nat.le_add_right _ _)

theorem renamedWidth_other {n : Nat} (wide : ∀ a ∈ names, a.start + 1 < a.stop)
    (clear : ∀ a ∈ names, n ≤ a.start ∨ a.stop ≤ n) :
    renamedWidth names width n = 1 := by
  unfold renamedWidth
  rw [if_neg, if_neg]
  · intro inside
    obtain ⟨a, member, within⟩ := List.any_eq_true.mp inside
    have outside := clear a member
    simp only [Bool.and_eq_true, decide_eq_true_eq] at within
    omega
  · intro first
    obtain ⟨a, member, here⟩ := List.any_eq_true.mp first
    have outside := clear a member
    have more := wide a member
    have here := beq_iff_eq.mp here
    omega

/-- Where no name is, the offsets stay apart as they are. -/
theorem renamedOffset_pass {n : Nat} (wide : ∀ a ∈ names, a.start + 1 < a.stop) (k : Nat)
    (clear : ∀ a ∈ names, n + k ≤ a.start + 1 ∨ a.stop ≤ n) :
    renamedOffset names width (n + k) = renamedOffset names width n + k := by
  induction k with
  | zero => rfl
  | succ k ih =>
    have one : renamedWidth names width (n + k) = 1 := by
      refine renamedWidth_other wide fun a member => ?_
      have := clear a member
      omega
    have before := ih fun a member => (clear a member).imp_left fun le => Nat.le_of_succ_le le
    rw [← Nat.add_assoc, renamedOffset, before, one, Nat.add_assoc]

/-- Across a name the offsets are apart by the sigil and the new name. -/
theorem renamedOffset_name (wide : ∀ a ∈ names, a.start + 1 < a.stop)
    (ordered : names.Pairwise fun a b => a.stop ≤ b.start) {a : Span} (member : a ∈ names) :
    renamedOffset names width a.stop = renamedOffset names width a.start + (1 + width) := by
  have apart : ∀ b ∈ names, b = a ∨ a.stop ≤ b.start ∨ b.stop ≤ a.start := by
    obtain ⟨before, later, split⟩ := List.append_of_mem member
    rw [split] at ordered
    obtain ⟨_, behind, across⟩ := List.pairwise_append.mp ordered
    intro b inside
    rw [split] at inside
    rcases List.mem_append.mp inside with earlier | inside
    · exact .inr (.inr (across b earlier a (List.mem_cons_self ..)))
    rcases List.mem_cons.mp inside with rfl | further
    · exact .inl rfl
    · exact .inr (.inl ((List.pairwise_cons.mp behind).1 b further))
  have long := wide a member
  have sigil : renamedOffset names width (a.start + 1) = renamedOffset names width a.start + 1 := by
    refine renamedOffset_pass wide 1 fun b inside => ?_
    have := wide b inside
    rcases apart b inside with rfl | other | other <;> omega
  have first : renamedWidth names width (a.start + 1) = width :=
    if_pos (List.any_eq_true.mpr ⟨a, member, beq_self_eq_true (a.start + 1)⟩)
  have nothing : ∀ k, a.start + 2 + k ≤ a.stop →
      renamedOffset names width (a.start + 2 + k) = renamedOffset names width (a.start + 2) := by
    intro k
    induction k with
    | zero => exact fun _ => rfl
    | succ k ih =>
      intro le
      have inside : renamedWidth names width (a.start + 2 + k) = 0 := by
        unfold renamedWidth
        rw [if_neg, if_pos]
        · refine List.any_eq_true.mpr ⟨a, member, ?_⟩
          simp only [Bool.and_eq_true, decide_eq_true_eq]
          omega
        · intro first
          obtain ⟨b, inside, here⟩ := List.any_eq_true.mp first
          have here := beq_iff_eq.mp here
          have := wide b inside
          rcases apart b inside with rfl | other | other <;> omega
      rw [← Nat.add_assoc, renamedOffset, inside, Nat.add_zero]
      exact ih (Nat.le_of_succ_le le)
  have last := nothing (a.stop - (a.start + 2)) (by omega)
  rw [Nat.add_sub_cancel' long] at last
  rw [last]
  show renamedOffset names width (a.start + 1) + renamedWidth names width (a.start + 1) = _
  rw [sigil, first, Nat.add_assoc]

end

/-- Names of a text that are a sigil and the same name each, one behind the other. -/
structure NamesIn (text : List Char) (old : List Char) (names : List Span) : Prop where
  ordered : names.Pairwise fun a b => a.stop ≤ b.start
  stands : ∀ a ∈ names, ∃ (s : Sigil) (front back : List Char),
    text = front ++ (s.char :: (old ++ back)) ∧
    byteLength front = a.start ∧ a.stop = a.start + (1 + byteLength old)

/-- How these names are spelled anew. -/
def Spelling.ofNames (names : List Span) {old new : List Char} (old_named : old ≠ [])
    (new_named : new ≠ [])
    (old_parts : old.all isWordPart) (new_parts : new.all isWordPart) : Spelling where
  places := names.map (·.start)
  old := old
  new := new
  offset := renamedOffset names (byteLength new)
  ordered := renamedOffset_mono
  old_named := old_named
  new_named := new_named
  old_parts := old_parts
  new_parts := new_parts

/-- The edit that gives a name another one behind its sigil. -/
def nameEdit (text : List Char) (new : String) (a : Span) : TextEdit :=
  ⟨Lines.range text ⟨a.start + 1, a.stop⟩, new⟩

theorem ne_return_of_part {c : Char} (part : isWordPart c) : c ≠ '\r' := by
  rintro rfl
  cases part

namespace NamesIn

variable {text old new : List Char} {names : List Span} (h : NamesIn text old names)
  (old_named : old ≠ []) (old_parts : old.all isWordPart)

include h old_named

theorem wide : ∀ a ∈ names, a.start + 1 < a.stop := by
  intro a member
  obtain ⟨_, _, _, _, _, stop⟩ := h.stands a member
  have some_name := List.length_pos_iff.mpr old_named
  have width := length_le_byteLength old
  omega

include old_parts

/-- The ends of an edit are in the text where they are meant to be. -/
theorem ends {a : Span} (member : a ∈ names) :
    Lines.offset? text (Lines.position text (a.start + 1)) = some (a.start + 1) ∧
    Lines.offset? text (Lines.position text a.stop) = some a.stop := by
  obtain ⟨s, front, back, rfl, start, stop⟩ := h.stands a member
  have behind_sigil : byteLength (front ++ [s.char]) = a.start + 1 := by
    rw [byteLength_append, start, byteLength, s.char_utf8Size]
    rfl
  have behind_name : byteLength (front ++ s.char :: old) = a.stop := by
    rw [byteLength_append, start, byteLength, s.char_utf8Size, stop]
  constructor
  · have split : front ++ s.char :: (old ++ back) = front ++ [s.char] ++ (old ++ back) := by simp
    rw [split, ← behind_sigil]
    refine Lines.offset?_position ?_ _
    rw [List.getLast?_concat]
    cases s <;> decide
  · have split : front ++ s.char :: (old ++ back) = front ++ s.char :: old ++ back := by simp
    rw [split, ← behind_name]
    refine Lines.offset?_position ?_ _
    obtain ⟨most, c, rfl⟩ := List.eq_nil_or_concat old |>.resolve_left old_named
    rw [List.concat_eq_append] at old_parts
    rw [List.concat_eq_append, ← List.cons_append, ← List.append_assoc, List.getLast?_concat]
    intro same
    refine ne_return_of_part (List.all_eq_true.mp old_parts c ?_) (Option.some.inj same)
    exact List.mem_append_right _ (List.mem_singleton_self c)

theorem span?_nameEdit {a : Span} (member : a ∈ names) :
    (nameEdit text (String.ofList new) a).span? text = some ⟨a.start + 1, a.stop⟩ := by
  obtain ⟨start, stop⟩ := h.ends old_named old_parts member
  show (Lines.offset? text (Lines.position text (a.start + 1))).bind _ = _
  rw [start, Option.bind_some]
  show (Lines.offset? text (Lines.position text a.stop)).map _ = _
  rw [stop]
  rfl

/-- With one more edit one more name is replaced. -/
theorem applyEdits_cons {a : Span} (member : a ∈ names) {s : Sigil} {before back : List Char}
    (start : byteLength before = a.start)
    (stop : a.stop = a.start + (1 + byteLength old)) {later : List TextEdit}
    (applied : applyEdits text later = some (before ++ s.char :: (old ++ back))) :
    applyEdits text (nameEdit text (String.ofList new) a :: later) =
      some (before ++ s.char :: (new ++ back)) := by
  have taken :
      takeBytes? (before ++ s.char :: (old ++ back)) (a.start + 1) = some (before ++ [s.char]) := by
    have whole : before ++ s.char :: (old ++ back) = before ++ [s.char] ++ (old ++ back) := by simp
    have width : byteLength (before ++ [s.char]) = a.start + 1 := by
      rw [byteLength_append, start, byteLength, s.char_utf8Size]
      rfl
    rw [whole, ← width, takeBytes?_byteLength_append]
  have dropped : dropBytes? (before ++ s.char :: (old ++ back)) a.stop = some back := by
    have whole : before ++ s.char :: (old ++ back) = before ++ s.char :: old ++ back := by simp
    have width : byteLength (before ++ s.char :: old) = a.stop := by
      rw [byteLength_append, start, byteLength, s.char_utf8Size, stop]
    rw [whole, ← width, dropBytes?_byteLength_append]
  rw [applyEdits, applied, Option.bind_some, h.span?_nameEdit old_named old_parts member,
    Option.bind_some, taken, Option.bind_some, dropped, Option.map_some]
  show some (_ ++ ((String.ofList new).toList ++ _)) = _
  rw [String.toList_ofList, List.append_assoc]
  rfl

variable (new_named : new ≠ []) (new_parts : new.all isWordPart)

/-- What stands before the next name stays. -/
theorem respelled_chars {n : Nat} {front rest rest' : List Char}
    (clear : ∀ a ∈ names, n + byteLength front ≤ a.start ∨ a.stop ≤ n)
    (later : Respelled (.ofNames names old_named new_named old_parts new_parts)
    (n + byteLength front) rest rest') :
    Respelled (.ofNames names old_named new_named old_parts new_parts) n (front ++ rest)
      (front ++ rest') := by
  have wide := h.wide old_named
  induction front generalizing n with
  | nil => exact later
  | cons c front ih =>
    have size : n + byteLength (c :: front) = n + c.utf8Size + byteLength front :=
      (Nat.add_assoc ..).symm
    rw [size] at clear later
    have positive := c.utf8Size_pos
    refine .char ?_ ?_ (ih ?_ later)
    · intro here
      obtain ⟨a, member, start⟩ := List.mem_map.mp here
      have := clear a member
      have := wide a member
      omega
    · refine renamedOffset_pass wide _ fun a member => ?_
      have := clear a member
      omega
    · intro a member
      have := clear a member
      omega

/-- Each name is replaced behind its sigil, and nothing else. -/
theorem applyEdits_nameEdits :
    ∃ text', applyEdits text (names.map (nameEdit text (String.ofList new))) = some text' ∧
    Respelled (.ofNames names old_named new_named old_parts new_parts) 0 text text' := by
  -- the names that are left, where all others end before the offset that was reached
  have from_here : ∀ (left done : List Span) (front rest : List Char), names = done ++ left →
      text = front ++ rest →
      (∀ a ∈ done, a.stop ≤ byteLength front) → (∀ a ∈ left, byteLength front ≤ a.start) →
      ∃ rest', applyEdits text (left.map (nameEdit text (String.ofList new))) =
        some (front ++ rest') ∧
        Respelled (.ofNames names old_named new_named old_parts new_parts)
          (byteLength front) rest rest' := by
    intro left
    induction left with
    | nil =>
      intro done front rest all split earlier _
      refine ⟨rest, congrArg some split, ?_⟩
      rw [List.append_nil] at all
      have clear : ∀ a ∈ names, byteLength front + byteLength rest ≤ a.start ∨
        a.stop ≤ byteLength front :=
        fun a member => .inr (earlier a (all ▸ member))
      have same := h.respelled_chars old_named old_parts new_named new_parts clear (.ended _)
      rwa [List.append_nil] at same
    | cons a left ih =>
      intro done front rest all split earlier later
      have member : a ∈ names := all ▸ List.mem_append_right _ (List.mem_cons_self ..)
      have first := later a (List.mem_cons_self ..)
      have behind : ∀ b ∈ left, a.stop ≤ b.start := by
        have ordered := h.ordered
        rw [all] at ordered
        exact (List.pairwise_cons.mp (List.pairwise_append.mp ordered).2.1).1
      obtain ⟨s, before, back, stands, start, stop⟩ := h.stands a member
      obtain ⟨between, rfl, rfl⟩ := append_split (split.symm.trans stands) (start ▸ first)
      have size : byteLength (front ++ between ++ s.char :: old) = a.stop := by
        rw [byteLength_append, start, byteLength, s.char_utf8Size, stop]
      obtain ⟨back', applied, respelled⟩ :=
        ih (done ++ [a]) (front ++ between ++ s.char :: old) back
        (by rw [all, List.append_assoc, List.singleton_append])
          (by rw [stands, List.append_assoc _ _ back]; rfl)
        (fun b inside => size ▸ (List.mem_append.mp inside).elim
          (fun old => Nat.le_trans (earlier b old) (by omega)) fun last =>
            Nat.le_of_eq (congrArg Span.stop (List.mem_singleton.mp last)))
        (fun b inside => size ▸ behind b inside)
      rw [size] at respelled
      rw [List.append_assoc _ _ back'] at applied
      refine ⟨between ++ s.char :: (new ++ back'), ?_, ?_⟩
      · rw [← List.append_assoc]
        exact h.applyEdits_cons old_named old_parts member start stop applied
      rw [byteLength_append] at start
      refine h.respelled_chars old_named old_parts new_named new_parts (fun b inside => ?_)
        (.name s ?_ ?_ ?_)
      · rw [start]
        rw [all] at inside
        rcases List.mem_append.mp inside with old | inside
        · exact .inr (earlier b old)
        rcases List.mem_cons.mp inside with rfl | further
        · exact .inl (Nat.le_refl _)
        · exact .inl (Nat.le_trans (stop ▸ Nat.le_add_right _ _) (behind b further))
      · exact start ▸ List.mem_map_of_mem member
      · have moved := @renamedOffset_name _ (byteLength new) (h.wide old_named) h.ordered _ member
        rw [stop] at moved
        rw [start]
        exact moved
      · rw [start]
        exact stop ▸ respelled
  obtain ⟨text', applied, respelled⟩ :=
    from_here names [] [] text rfl rfl (fun _ none => (List.not_mem_nil none).elim)
    fun _ _ => Nat.zero_le _
  exact ⟨text', applied, respelled⟩

end NamesIn

end RuleDesk
