import RuleDesk.Proofs.Lexing.HexText

namespace RuleDesk

/-! ## Whole tokens within their lines

A token with a meaning that is whole has no newline in it, and no blank at its ends. -/

theorem isBlank_of_isWhite {c : Char} (h : isWhite c) : isBlank c := by
  rcases isWhite_cases h with rfl | rfl | rfl | rfl <;> rfl

/-- The code points of the blanks. -/
def blankPoints : List Nat :=
  [9, 10, 11, 12, 13, 0x20, 0x85, 0xA0, 0x1680, 0x2000, 0x2001, 0x2002, 0x2003, 0x2004, 0x2005,
    0x2006, 0x2007, 0x2008, 0x2009, 0x200A, 0x2028, 0x2029, 0x202F, 0x205F, 0x3000]

theorem toNat_mem_blankPoints {c : Char} (h : isBlank c) : c.toNat ∈ blankPoints := by
  simp only [isBlank, Bool.or_eq_true, Bool.and_eq_true, decide_eq_true_eq, beq_iff_eq] at h
  simp only [blankPoints, List.mem_cons, List.not_mem_nil, or_false]
  omega

/-- What refuses all blanks refuses a blank. -/
theorem not_of_isBlank {p : Char → Bool} (others : blankPoints.all fun n => !p (Char.ofNat n))
    {c : Char} (h : isBlank c) : p c = false := by
  have refused := List.all_eq_true.mp others c.toNat (toNat_mem_blankPoints h)
  rwa [Char.ofNat_toNat, Bool.not_eq_true'] at refused

theorem isBlank_of_isPart {c : Char} (h : isPart c) : isBlank c = false :=
  Bool.eq_false_iff.mpr fun blank => by
    rw [not_of_isBlank (p := isPart) (by decide) blank] at h
    cases h

/-- A text within a line with no blanks at its ends. -/
structure Compact (cs : List Char) : Prop where
  single : '\n' ∉ cs
  head : ∀ c ∈ cs.head?, isBlank c = false
  last : ∀ c ∈ cs.getLast?, isBlank c = false

theorem Compact.ofAll {cs : List Char} (solid : ∀ c ∈ cs, isBlank c = false) : Compact cs where
  single member := by
    have := solid _ member
    cases this
  head c head := solid c (List.mem_of_head? head)
  last c last := solid c (List.mem_of_getLast? last)

theorem Compact.ofParts {cs : List Char} (parts : cs.all isPart) : Compact cs :=
  .ofAll fun c member => isBlank_of_isPart (List.all_eq_true.mp parts c member)

/-- A text between two delimiters. -/
theorem Compact.between {first last : Char} {body : List Char} (first_solid : isBlank first = false)
    (last_solid : isBlank last = false)
    (single : '\n' ∉ body) : Compact (first :: (body ++ [last])) where
  single member := by
    have newline : isBlank '\n' = true := rfl
    rcases List.mem_cons.mp member with rfl | member
    · rw [first_solid] at newline
      cases newline
    rcases List.mem_append.mp member with member | member
    · exact single member
    · rw [List.mem_singleton.mp member, last_solid] at newline
      cases newline
  head := by
    rintro c ⟨⟩
    exact first_solid
  last := by
    rw [← List.cons_append, List.getLast?_concat]
    rintro c ⟨⟩
    exact last_solid

/-- More characters that are no blanks. -/
theorem Compact.append {cs more : List Char} (h : Compact cs)
    (solid : ∀ c ∈ more, isBlank c = false) (nonempty : cs ≠ []) : Compact (cs ++ more) where
  single member := (List.mem_append.mp member).elim h.single fun inside =>
    (Compact.ofAll solid).single inside
  head c head := by
    obtain ⟨d, rest, rfl⟩ := List.exists_cons_of_ne_nil nonempty
    exact h.head c head
  last c last := by
    rw [List.getLast?_append] at last
    cases own : more.getLast? with
    | none =>
      rw [own] at last
      exact h.last c last
    | some d =>
      rw [own] at last
      cases last
      exact solid _ (List.mem_of_getLast? own)

namespace Lexeme

variable {cs : List Char} {l : Lexeme}

theorem escapedRunLength_single {p : Char → Bool} (stops : p '\n' = false) (cs : List Char) :
    '\n' ∉ cs.take (escapedRunLength p cs) := by
  fun_induction escapedRunLength p cs with
  | case1 => exact List.not_mem_nil
  | case2 c rest inside ih =>
    rw [List.take_succ_cons, List.take_succ_cons]
    intro member
    rcases List.mem_cons.mp member with newline | member
    · cases newline
    rcases List.mem_cons.mp member with newline | member
    · exact inside (beq_iff_eq.mpr newline.symm)
    · exact ih member
  | case3 c rest _ plain ih =>
    rw [List.take_succ_cons]
    intro member
    rcases List.mem_cons.mp member with rfl | member
    · rw [stops, Bool.and_false] at plain
      cases plain
    · exact ih member
  | case4 => exact List.not_mem_nil
  | case5 => exact List.not_mem_nil

theorem symbol?_compact (h : symbol? cs = some l) : Compact (cs.take l.size) := by
  obtain ⟨entry, found, rfl⟩ := Option.map_eq_some_iff.mp h
  obtain ⟨rest, rfl⟩ := List.isPrefixOf_iff_prefix.mp
    (List.find?_some (p := fun entry : Symbol × List Char => entry.2.isPrefixOf cs) found)
  have solid : Symbol.table.all fun entry => entry.2.all (!isBlank ·) := by decide
  have chars := List.all_eq_true.mp solid entry (List.mem_of_find?_eq_some found)
  dsimp only
  rw [List.take_left]
  exact .ofAll fun c member => by simpa using List.all_eq_true.mp chars c member

theorem sigil?_compact (h : sigil? cs = some l) : Compact (cs.take l.size) := by
  unfold sigil? at h
  split at h
  · cases h
  rename_i c rest
  obtain ⟨s, found, rfl⟩ := Option.map_eq_some_iff.mp h
  have sign : isBlank c = false := by
    unfold Sigil.ofChar? at found
    split at found <;> first | rfl | cases found
  dsimp only
  rw [List.take_succ_cons]
  refine .ofAll fun d member => ?_
  rcases List.mem_cons.mp member with rfl | member
  · exact sign
  · have parts : (rest.take (runLength isWordPart rest)).all isPart :=
      all_take_runLength (fun _ => isPart_of_wordPart) rest
    exact isBlank_of_isPart (List.all_eq_true.mp parts d member)

/-- A run with the character behind it. -/
theorem take_delimited {cs more : List Char} {n : Nat} {d : Char} (drop : cs.drop n = d :: more) :
    cs.take (n + 1) = cs.take n ++ [d] := by
  rw [List.take_add_one, ← List.head?_drop, drop]
  rfl

theorem string?_compact (h : string? cs = some l) (whole : l.kind.isWhole) :
    Compact (cs.take l.size) := by
  unfold string? at h
  dsimp only at h
  split at h
  · rename_i rest
    split at h
    · rename_i more drop
      cases h
      dsimp only
      rw [List.take_succ_cons, take_delimited drop]
      exact .between rfl rfl (escapedRunLength_single (by decide) rest)
    · cases h
      cases whole
  · cases h

theorem regexp?_compact (h : regexp? cs = some l) (whole : l.kind.isWhole) :
    Compact (('/' :: cs).take l.size) := by
  rw [regexp?_eq] at h
  dsimp only at h
  split at h
  · cases h
  split at h
  · rename_i slash
    cases h
    obtain ⟨more, drop⟩ := List.head?_eq_some_iff.mp slash
    dsimp only
    rw [Nat.add_right_comm, List.take_succ_cons, Nat.add_right_comm, List.take_add,
      take_delimited drop, ← List.cons_append]
    refine (Compact.between rfl rfl (escapedRunLength_single (by decide) cs)).append
      (fun c member => ?_) (List.cons_ne_nil _ _)
    have letter : isAsciiLetter c := by
      rw [← List.take_take] at member
      exact List.all_eq_true.mp (all_take_runLength (fun _ => id) _) c (List.mem_of_mem_take member)
    exact isBlank_of_isPart (isPart_of_wordStart (Bool.or_eq_true_iff.mpr (.inl letter)))
  · cases h
    cases whole

theorem slash?_compact (h : slash? cs = some l) (whole : l.kind.isWhole) :
    Compact (cs.take l.size) := by
  unfold slash? at h
  split at h
  · cases h
    cases whole
  · split at h <;> cases h <;> cases whole
  · exact regexp?_compact h whole
  · cases h

theorem normal_compact (whole : (normal cs).kind.isWhole) : Compact (cs.take (normal cs).size) := by
  cases normal_readBy cs with
  | word read => exact .ofParts (word?_parts read)
  | number read => exact .ofParts (number?_parts read)
  | symbol read => exact symbol?_compact read
  | sigil read => exact sigil?_compact read
  | string read => exact string?_compact read whole
  | slash read => exact slash?_compact read whole
  | white _ kind => rcases kind with kind | kind <;> rw [kind] at whole <;> cases whole
  | unknown kind =>
    rw [kind] at whole
    cases whole

/-- A single character that is no blank. -/
theorem Compact.one {c : Char} (solid : isBlank c = false) (rest : List Char) :
    Compact ((c :: rest).take 1) :=
  .ofAll fun d member => by
    rw [List.take_succ_cons, List.take_zero] at member
    rw [List.mem_singleton.mp member, solid]

theorem hex?_compact (h : hex? cs = some l) (whole : l.kind.isWhole) :
    Compact (cs.take l.size) := by
  rcases Option.or_eq_some_iff.mp h with byte | ⟨_, h⟩
  · exact .ofParts (hexByte?_parts byte)
  rcases Option.or_eq_some_iff.mp h with symbol | ⟨_, h⟩
  · unfold hexSymbol? at symbol
    split at symbol <;> cases symbol <;> exact Compact.one rfl _
  rcases Option.or_eq_some_iff.mp h with comment | ⟨_, h⟩
  · rw [hexComment?_kind comment] at whole
    cases whole
  rcases Option.or_eq_some_iff.mp h with newline | ⟨_, blank⟩
  · rw [newline?_kind newline] at whole
    cases whole
  · rw [blank?_kind blank] at whole
    cases whole

theorem jump?_compact (h : jump? cs = some l) (whole : l.kind.isWhole) :
    Compact (cs.take l.size) := by
  rcases Option.or_eq_some_iff.mp h with hyphen | ⟨_, h⟩
  · unfold jumpHyphen? at hyphen
    split at hyphen <;> cases hyphen
    exact Compact.one rfl _
  rcases Option.or_eq_some_iff.mp h with integer | ⟨_, h⟩
  · exact .ofParts (jumpInteger?_parts integer)
  rcases Option.or_eq_some_iff.mp h with newline | ⟨_, blank⟩
  · rw [newline?_kind newline] at whole
    cases whole
  · rw [blank?_kind blank] at whole
    cases whole

end Lexeme

theorem Mode.read_compact {mode : Mode} {cs : List Char} (whole : (mode.read cs).2.kind.isWhole) :
    Compact (cs.take (mode.read cs).2.size) := by
  have hex : (Mode.hex.read cs).2.kind.isWhole → Compact (cs.take (Mode.hex.read cs).2.size) := by
    intro whole
    rw [read] at whole ⊢
    cases found : Lexeme.hex? cs with
    | some l =>
      rw [found] at whole
      exact Lexeme.hex?_compact found whole
    | none =>
      rw [found] at whole
      exact Lexeme.normal_compact whole
  cases mode with
  | normal => exact Lexeme.normal_compact whole
  | hex => exact hex whole
  | jump =>
    cases found : Lexeme.jump? cs with
    | some l =>
      rw [read, found] at whole ⊢
      exact Lexeme.jump?_compact found whole
    | none =>
      rw [read, found] at whole ⊢
      exact hex whole

theorem Cursor.next?_compact {c after : Cursor} {t : Token} (h : c.next? = some (t, after))
    (whole : t.kind.isWhole) : Compact t.text := by
  cases reading : c.mode.read c.rest with
  | mk mode l =>
    rw [next?_of_read (rest_ne_nil h) reading] at h
    cases h
    have compact := @Mode.read_compact c.mode c.rest
    rw [reading] at compact
    exact compact whole

end RuleDesk
