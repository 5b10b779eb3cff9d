import RuleDesk.Lsp.Decode
import RuleDesk.Proofs.Layout.Lines
import RuleDesk.Proofs.Lexing.Boundaries

namespace RuleDesk

/-! ## When the columns of a line can be counted

A line has no more columns than its characters could have if all of them were tabs. A tab size of
32 bits and a text that is short enough to be parsed keep that below what a word of 64 bits
counts. -/

theorem takeBytes?_starts {cs front : List Char} {n : Nat} (h : takeBytes? cs n = some front) :
    front <+: cs := by
  induction cs generalizing n front with
  | nil =>
    cases n with
    | zero =>
      cases h
      exact List.nil_prefix
    | succ n => cases h
  | cons c rest ih =>
    cases n with
    | zero =>
      cases h
      exact List.nil_prefix
    | succ n =>
      rw [takeBytes?] at h
      split at h
      · obtain ⟨more, found, rfl⟩ := Option.map_eq_some_iff.mp h
        exact List.cons_prefix_cons.mpr ⟨rfl, ih found⟩
      · cases h

namespace Format

variable {o : FormatOptions} {source : List Char}

theorem slice_length_le (source : List Char) (span : Span) :
    (slice source span).length ≤ source.length := by
  rw [slice]
  cases found : sliceBytes? source span.start span.stop with
  | none => exact Nat.zero_le _
  | some piece =>
    rw [sliceBytes?] at found
    split at found
    · obtain ⟨rest, dropped, taken⟩ := Option.bind_eq_some_iff.mp found
      obtain ⟨front, rfl, _⟩ := dropBytes?_eq_some dropped
      have inner := (takeBytes?_starts taken).length_le
      rw [Option.getD_some, List.length_append]
      exact Nat.le_trans inner (Nat.le_add_left _ _)
    · cases found

theorem leadingColumns_le (line : List Char) :
    leadingColumns o line ≤ max 1 o.tabSize * line.length := by
  induction line with
  | nil => exact Nat.zero_le _
  | cons c line ih =>
    rw [leadingColumns, List.length_cons, Nat.mul_succ, Nat.add_comm (_ * _)]
    split
    · refine Nat.add_le_add ?_ ih
      split
      · exact Nat.le_max_right ..
      · exact Nat.le_max_left ..
    · exact Nat.zero_le _

theorem length_le_emit {lines : Lines} {line : List Char} (member : line ∈ lines) :
    line.length ≤ (emit lines).length := by
  obtain ⟨front, back, rfl⟩ := List.append_of_mem member
  rw [emit_append, emit_cons, List.length_append, List.length_cons, List.length_append]
  omega

/-- A text with a line that has too many columns is long, or its tabs are wide. -/
theorem overflows_le {text : List Char} (h : overflows o text) :
    0x10000000000000000 ≤ max 1 o.tabSize * text.length := by
  obtain ⟨line, member, wide⟩ := List.any_eq_true.mp h
  obtain ⟨first, later, split, whole, _⟩ := splitOn_lines text
  rw [laterLines, split] at member
  have inside : line ∈ later := (List.mem_filter.mp member).1
  have short : line.length ≤ text.length := by
    rw [whole, List.length_append]
    exact Nat.le_trans (length_le_emit inside) (Nat.le_add_left _ _)
  calc 0x10000000000000000 ≤ leadingColumns o line := of_decide_eq_true wide
    _ ≤ max 1 o.tabSize * line.length := leadingColumns_le line
    _ ≤ max 1 o.tabSize * text.length := Nat.mul_le_mul_left _ short

theorem rule_error {r : Rule} {lbrace rbrace : Span} {e : FormatError}
    (h : rule o source r lbrace rbrace = .error e) :
    0x10000000000000000 ≤ max 1 o.tabSize * source.length := by
  rw [rule] at h
  split at h
  · rename_i found
    obtain ⟨text, member, wide⟩ := List.any_eq_true.mp found
    obtain ⟨span, rfl⟩ : ∃ span, text = slice source span := by
      rcases List.mem_cons.mp member with rfl | member
      · exact ⟨_, rfl⟩
      · obtain ⟨s, _, rfl⟩ := List.mem_map.mp member
        exact ⟨_, rfl⟩
    exact Nat.le_trans (overflows_le wide) (Nat.mul_le_mul_left _ (slice_length_le source span))
  · cases h

theorem rules_overflow {rs : List Rule} {lines : Lines} {done : Nat}
    (h : rules o source rs lines done = .error .columnOverflow) :
    0x10000000000000000 ≤ max 1 o.tabSize * source.length := by
  induction rs generalizing lines done with
  | nil => cases h
  | cons r rest ih =>
    cases opens : r.lbrace with
    | none =>
      rw [rules, opens] at h
      cases h
    | some lbrace =>
      cases closes : r.rbrace with
      | none =>
        rw [rules, opens, closes] at h
        cases h
      | some rbrace =>
        rw [rules_cons opens closes] at h
        cases laid : rule o source r lbrace rbrace with
        | error e => exact rule_error laid
        | ok inner =>
          rw [laid] at h
          exact ih h

end Format

/-- The columns of a text overflow only for a tab size of more than 32 bits, or where the text is
too long for the parser. -/
theorem format_overflow {o : FormatOptions} {source : List Char}
    (h : format o source = .error .columnOverflow) :
    0x100000000 ≤ o.tabSize ∨ Span.maxOffset ≤ byteLength source := by
  have large : 0x10000000000000000 ≤ max 1 o.tabSize * source.length := by
    rw [format] at h
    dsimp only at h
    split at h
    · cases h
    · cases laid : Format.rules o source (parse source).rules [] 0 with
      | error e =>
        rw [laid] at h
        cases h
        exact Format.rules_overflow laid
      | ok result =>
        rw [laid] at h
        cases h
  by_contra fits
  obtain ⟨narrow, short⟩ := not_or.mp fits
  have columns : max 1 o.tabSize ≤ 0xFFFFFFFF := by omega
  have length : source.length ≤ 0xFFFFFFFF := by
    have bytes := length_le_byteLength source
    unfold Span.maxOffset at short
    omega
  have product := Nat.mul_le_mul columns length
  omega

/-! ### What requests ask for -/

namespace Lsp

theorem of_bind_eq_ok {x : Except DecodeError α} {f : α → Except DecodeError β} {b : β}
    (h : x >>= f = .ok b) : ∃ a, x = .ok a ∧ f a = .ok b := by
  cases x with
  | error e => cases h
  | ok a => exact ⟨a, rfl, h⟩

theorem unsigned_lt {j : Json} {n : Nat} (h : unsigned j = .ok n) : n < 0x100000000 := by
  unfold unsigned integer at h
  cases j with
  | int i =>
    dsimp only at h
    split at h
    · rename_i narrow
      cases h
      rw [isUnsigned32, Bool.and_eq_true, decide_eq_true_eq, decide_eq_true_eq] at narrow
      omega
    · cases h
  | _ => cases h

theorem present_eq_ok {j : Json} {name : String} {value : Decoder α} {a : α}
    (h : present j name value = .ok (some a)) : ∃ v, value v = .ok a := by
  unfold present at h
  split at h
  · cases h
  · rename_i v _
    cases read : value v with
    | error e =>
      rw [read] at h
      cases h
    | ok b =>
      rw [read] at h
      cases h
      exact ⟨v, read⟩

theorem require_eq_ok {name : String} {found : Option α} {a : α}
    (h : require name found = .ok a) : found = some a := by
  cases found with
  | none => cases h
  | some b =>
    cases h
    rfl

/-- The tab size of a request has 32 bits. -/
theorem formatOptions_narrow {j : Json} {o : FormatOptions} (h : formatOptions j = .ok o) :
    o.tabSize < 0x100000000 := by
  obtain ⟨j, -, h⟩ := of_bind_eq_ok h
  obtain ⟨finalNewline, -, h⟩ := of_bind_eq_ok h
  obtain ⟨insertSpaces, -, h⟩ := of_bind_eq_ok h
  obtain ⟨tabSize, read, h⟩ := of_bind_eq_ok h
  obtain ⟨_, -, h⟩ := of_bind_eq_ok h
  obtain ⟨_, -, h⟩ := of_bind_eq_ok h
  obtain ⟨size, required, h⟩ := of_bind_eq_ok h
  obtain ⟨spaces, -, h⟩ := of_bind_eq_ok h
  obtain ⟨_, -, h⟩ := of_bind_eq_ok h
  cases h
  rw [require_eq_ok required] at read
  obtain ⟨_, value⟩ := present_eq_ok read
  exact Nat.max_lt.mpr ⟨by decide, unsigned_lt value⟩

end Lsp

end RuleDesk
