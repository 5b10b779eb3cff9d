import RuleDesk.Token.Cursor

namespace RuleDesk

theorem runLength_le (p : Char → Bool) (cs : List Char) : runLength p cs ≤ cs.length := by
  induction cs with
  | nil => exact Nat.le_refl _
  | cons c rest ih =>
    unfold runLength
    split
    · exact Nat.succ_le_succ ih
    · exact Nat.zero_le _

theorem escapedRunLength_le (p : Char → Bool) (cs : List Char) :
    escapedRunLength p cs ≤ cs.length := by
  fun_induction escapedRunLength p cs with
  | case1 => exact Nat.zero_le _
  | case2 c rest _ ih => simp only [List.length_cons]; omega
  | case3 c rest _ _ ih => simp only [List.length_cons]; omega
  | case4 => exact Nat.zero_le _
  | case5 => exact Nat.le_refl _

namespace Lexeme

/-- A lexeme fits a text if it takes at least one character of it and no more
than there are. -/
def Fits (cs : List Char) (l : Lexeme) : Prop := 0 < l.size ∧ l.size ≤ cs.length

theorem word?_fits {cs : List Char} {l : Lexeme} (h : word? cs = some l) : l.Fits cs := by
  unfold word? at h
  split at h
  · cases h
  · rename_i c rest
    have tail := runLength_le isWordPart rest
    split at h
    · dsimp only at h
      split at h <;> cases h <;> exact ⟨Nat.succ_pos _, Nat.succ_le_succ tail⟩
    · cases h

theorem prefixed?_fits {cs : List Char} {l : Lexeme} (h : prefixed? cs = some l) : l.Fits cs := by
  unfold prefixed? at h
  split at h
  · rename_i rest
    have digits := runLength_le isHexDigit rest
    dsimp only at h
    split at h
    · cases h
    · cases h
      exact ⟨Nat.succ_pos _, Nat.add_le_add_right digits 2⟩
  · rename_i rest
    have digits := runLength_le isOctalDigit rest
    dsimp only at h
    split at h
    · cases h
    · cases h
      exact ⟨Nat.succ_pos _, Nat.add_le_add_right digits 2⟩
  · cases h

theorem afterDigits_fits (digits : Nat) (rest : List Char) :
    digits ≤ (afterDigits digits rest).size ∧
      (afterDigits digits rest).size ≤ digits + rest.length := by
  unfold afterDigits
  split
  · rename_i rest
    have fraction := runLength_le Char.isDigit rest
    dsimp only
    split
    · exact ⟨Nat.le_refl _, Nat.le_add_right _ _⟩
    · simp only [List.length_cons]; omega
  · simp only [List.length_cons]; omega
  · simp only [List.length_cons]; omega
  · exact ⟨Nat.le_refl _, Nat.le_add_right _ _⟩

theorem number?_fits {cs : List Char} {l : Lexeme} (h : number? cs = some l) : l.Fits cs := by
  unfold number? at h
  rcases Option.or_eq_some_iff.mp h with h | ⟨_, h⟩
  · exact prefixed?_fits h
  · have digits := runLength_le Char.isDigit cs
    dsimp only at h
    split at h
    · cases h
    · rename_i some_digit
      cases h
      have sizes :=
        afterDigits_fits (runLength Char.isDigit cs) (cs.drop (runLength Char.isDigit cs))
      rw [List.length_drop] at sizes
      rw [beq_iff_eq] at some_digit
      exact ⟨by omega, by omega⟩

theorem symbol?_fits {cs : List Char} {l : Lexeme} (h : symbol? cs = some l) : l.Fits cs := by
  obtain ⟨entry, found, rfl⟩ := Option.map_eq_some_iff.mp h
  have starts := List.find?_some found
  have spelled := List.isPrefixOf_iff_prefix.mp starts
  have nonempty : ∀ entry ∈ Symbol.table, 0 < entry.2.length := by decide
  exact ⟨nonempty entry (List.mem_of_find?_eq_some found), spelled.length_le⟩

theorem sigil?_fits {cs : List Char} {l : Lexeme} (h : sigil? cs = some l) : l.Fits cs := by
  unfold sigil? at h
  split at h
  · cases h
  · rename_i c rest
    obtain ⟨s, _, rfl⟩ := Option.map_eq_some_iff.mp h
    exact ⟨Nat.succ_pos _, Nat.succ_le_succ (runLength_le isWordPart rest)⟩

theorem string?_fits {cs : List Char} {l : Lexeme} (h : string? cs = some l) : l.Fits cs := by
  unfold string? at h
  split at h
  · rename_i rest
    have body := escapedRunLength_le (fun c => c != '"' && c != '\n') rest
    dsimp only at h
    split at h
    · rename_i quoted
      have room := congrArg List.length quoted
      simp only [List.length_drop, List.length_cons] at room
      cases h
      exact ⟨Nat.succ_pos _, by simp only [List.length_cons]; omega⟩
    · cases h
      exact ⟨Nat.succ_pos _, Nat.succ_le_succ body⟩
  · cases h

theorem closeComment?_le {cs : List Char} {n : Nat} (h : closeComment? cs = some n) :
    n ≤ cs.length := by
  fun_induction closeComment? cs generalizing n with
  | case1 rest => cases h; simp only [List.length_cons]; omega
  | case2 c rest _ ih =>
    obtain ⟨m, found, rfl⟩ := Option.map_eq_some_iff.mp h
    exact Nat.succ_le_succ (ih found)
  | case3 => cases h

theorem regexp?_fits {rest : List Char} {l : Lexeme} (h : regexp? rest = some l) :
    l.Fits ('/' :: rest) := by
  unfold regexp? at h
  have body := escapedRunLength_le (fun c => c != '/' && c != '\n') rest
  dsimp only at h
  split at h
  · cases h
  · split at h
    · rename_i flags closed
      have room := congrArg List.length closed
      have letters := runLength_le isAsciiLetter flags
      simp only [List.length_drop, List.length_cons] at room
      cases h
      exact ⟨by simp only; omega, by simp only [List.length_cons]; omega⟩
    · cases h
      exact ⟨Nat.succ_pos _, Nat.succ_le_succ body⟩

theorem slash?_fits {cs : List Char} {l : Lexeme} (h : slash? cs = some l) : l.Fits cs := by
  unfold slash? at h
  split at h
  · rename_i rest
    cases h
    exact ⟨Nat.succ_pos _, Nat.add_le_add_right (runLength_le (· != '\n') rest) 2⟩
  · rename_i rest
    split at h
    · rename_i n closed
      cases h
      exact ⟨Nat.succ_pos _, Nat.add_le_add_right (closeComment?_le closed) 2⟩
    · cases h
      exact ⟨Nat.succ_pos _, Nat.le_refl _⟩
  · exact regexp?_fits h
  · cases h

theorem newline?_fits {cs : List Char} {l : Lexeme} (h : newline? cs = some l) : l.Fits cs := by
  unfold newline? at h
  split at h
  all_goals cases h
  all_goals exact ⟨Nat.succ_pos _, by simp only [List.length_cons]; omega⟩

theorem blank?_fits {cs : List Char} {l : Lexeme} (h : blank? cs = some l) : l.Fits cs := by
  unfold blank? at h
  dsimp only at h
  split at h
  · cases h
  · rename_i some_blank
    cases h
    exact ⟨Nat.pos_of_ne_zero fun none => some_blank (beq_iff_eq.mpr none), runLength_le _ cs⟩

theorem unknown_fits {cs : List Char} (nonempty : cs ≠ []) : (unknown cs).Fits cs := by
  have room := List.length_pos_iff.mpr nonempty
  have run := runLength_le (fun c => !isBlank c) cs
  exact ⟨by unfold unknown; simp only; omega, by unfold unknown; simp only; omega⟩

theorem normal_fits {cs : List Char} (nonempty : cs ≠ []) : (normal cs).Fits cs := by
  unfold normal
  generalize found : (word? cs).or _ = lexeme
  cases lexeme with
  | none => exact unknown_fits nonempty
  | some l =>
    simp only [Option.or_eq_some_iff] at found
    rcases found with h | ⟨_, h | ⟨_, h | ⟨_, h | ⟨_, h | ⟨_, h | ⟨_, h | ⟨_, h⟩⟩⟩⟩⟩⟩⟩
    · exact word?_fits h
    · exact number?_fits h
    · exact symbol?_fits h
    · exact sigil?_fits h
    · exact string?_fits h
    · exact slash?_fits h
    · exact newline?_fits h
    · exact blank?_fits h

theorem hexByte?_fits {cs : List Char} {l : Lexeme} (h : hexByte? cs = some l) : l.Fits cs := by
  unfold hexByte? at h
  split at h
  · split at h <;> cases h
    exact ⟨Nat.succ_pos _, by simp only [List.length_cons]; omega⟩
  · split at h <;> cases h
    exact ⟨Nat.succ_pos _, by simp only [List.length_cons]; omega⟩
  · cases h

theorem hexSymbol?_fits {cs : List Char} {l : Lexeme} (h : hexSymbol? cs = some l) : l.Fits cs := by
  unfold hexSymbol? at h
  split at h
  all_goals cases h
  all_goals exact ⟨Nat.succ_pos _, Nat.succ_le_succ (Nat.zero_le _)⟩

theorem closeHexComment?_le {cs : List Char} {n : Nat} (h : closeHexComment? cs = some n) :
    n ≤ cs.length := by
  fun_induction closeHexComment? cs generalizing n with
  | case1 rest => cases h; simp only [List.length_cons]; omega
  | case2 c rest _ ih =>
    obtain ⟨m, found, rfl⟩ := Option.map_eq_some_iff.mp h
    exact Nat.add_le_add_right (ih found) 2
  | case3 => cases h
  | case4 c rest _ _ _ ih =>
    obtain ⟨m, found, rfl⟩ := Option.map_eq_some_iff.mp h
    exact Nat.succ_le_succ (ih found)
  | case5 => cases h

theorem hexComment?_fits {cs : List Char} {l : Lexeme} (h : hexComment? cs = some l) :
    l.Fits cs := by
  unfold hexComment? at h
  split at h
  · rename_i rest
    cases h
    exact ⟨Nat.succ_pos _, Nat.add_le_add_right (runLength_le (· != '\n') rest) 2⟩
  · obtain ⟨n, closed, rfl⟩ := Option.map_eq_some_iff.mp h
    exact ⟨Nat.succ_pos _, Nat.add_le_add_right (closeHexComment?_le closed) 2⟩
  · cases h

theorem hex?_fits {cs : List Char} {l : Lexeme} (h : hex? cs = some l) : l.Fits cs := by
  unfold hex? at h
  simp only [Option.or_eq_some_iff] at h
  rcases h with h | ⟨_, h | ⟨_, h | ⟨_, h | ⟨_, h⟩⟩⟩⟩
  · exact hexByte?_fits h
  · exact hexSymbol?_fits h
  · exact hexComment?_fits h
  · exact newline?_fits h
  · exact blank?_fits h

theorem jumpInteger?_fits {cs : List Char} {l : Lexeme} (h : jumpInteger? cs = some l) :
    l.Fits cs := by
  unfold jumpInteger? at h
  rcases Option.or_eq_some_iff.mp h with h | ⟨_, h⟩
  · exact prefixed?_fits h
  · dsimp only at h
    split at h
    · cases h
    · rename_i some_digit
      cases h
      exact ⟨Nat.pos_of_ne_zero fun none => some_digit (beq_iff_eq.mpr none), runLength_le _ cs⟩

theorem jump?_fits {cs : List Char} {l : Lexeme} (h : jump? cs = some l) : l.Fits cs := by
  unfold jump? at h
  simp only [Option.or_eq_some_iff] at h
  rcases h with h | ⟨_, h | ⟨_, h | ⟨_, h⟩⟩⟩
  · unfold jumpHyphen? at h
    split at h
    · cases h
      exact ⟨Nat.succ_pos _, Nat.succ_le_succ (Nat.zero_le _)⟩
    · cases h
  · exact jumpInteger?_fits h
  · exact newline?_fits h
  · exact blank?_fits h

end Lexeme

/-- Whatever the mode, a token takes some of a text that is not empty. -/
theorem Mode.read_fits (mode : Mode) {cs : List Char} (nonempty : cs ≠ []) :
    (mode.read cs).2.Fits cs := by
  cases mode with
  | normal => exact Lexeme.normal_fits nonempty
  | hex =>
    unfold read
    dsimp only
    split
    · rename_i found
      exact Lexeme.hex?_fits found
    · exact Lexeme.normal_fits nonempty
  | jump =>
    unfold read
    dsimp only
    split
    · rename_i found
      exact Lexeme.jump?_fits found
    · split
      · rename_i found
        exact Lexeme.hex?_fits found
      · exact Lexeme.normal_fits nonempty

end RuleDesk
