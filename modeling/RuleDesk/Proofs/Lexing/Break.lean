import RuleDesk.Proofs.Lexing.Cover
import RuleDesk.Proofs.Lexing.Solid
import Mathlib.Data.List.Find

namespace RuleDesk

/-! ## Text up to a line break

Without a block comment no token but `\r\n` reaches over the end of a line. So
all tokens before a line break are read as if the text ended there. -/

/-- No block comment starts in a text. -/
def NoBlockComment (cs : List Char) : Prop := ¬ ['/', '*'] <:+: cs

instance (cs : List Char) : Decidable (NoBlockComment cs) := inferInstanceAs (Decidable (¬ _))

theorem NoBlockComment.suffix {cs ds : List Char} (h : NoBlockComment cs) (inside : ds <:+ cs) :
    NoBlockComment ds :=
  fun opened => h (opened.trans inside.isInfix)

theorem escapedRunLength_plain {p : Char → Bool} {c : Char} (rest : List Char) (plain : c ≠ '\\') :
    escapedRunLength p (c :: rest) = if p c then escapedRunLength p rest + 1 else 0 := by
  have other : (c != '\\') = true := bne_iff_ne.mpr plain
  rw [escapedRunLength.eq_2 p c rest fun _ _ eq => (plain eq).elim, other, Bool.true_and]

section Runs

variable {p : Char → Bool} (stops : p '\n' = false) (cs tail : List Char)

include stops

theorem runLength_break : runLength p (cs ++ '\n' :: tail) = runLength p cs := by
  induction cs with
  | nil => simp only [List.nil_append, runLength, stops, Bool.false_eq_true, if_false]
  | cons c rest ih => simp only [List.cons_append, runLength, ih]

theorem escapedRunLength_break :
    escapedRunLength p (cs ++ '\n' :: tail) = escapedRunLength p cs := by
  have newline : escapedRunLength p ('\n' :: tail) = 0 := by
    rw [escapedRunLength_plain tail (by decide), stops, if_neg Bool.false_ne_true]
  fun_induction escapedRunLength p cs with
  | case1 c rest ends => simp only [List.cons_append, escapedRunLength, ends, if_true]
  | case2 c rest inside ih =>
    simp only [List.cons_append, escapedRunLength, inside, Bool.false_eq_true, if_false, ih]
  | case3 c rest _ plain ih =>
    obtain ⟨other, taken⟩ := Bool.and_eq_true_iff.mp plain
    rw [List.cons_append, escapedRunLength_plain _ (bne_iff_ne.mp other), if_pos taken, ih]
  | case4 c rest single ends =>
    rw [List.cons_append]
    by_cases escape : c = '\\'
    · subst escape
      cases rest with
      | nil => rfl
      | cons d rest => exact (single d rest rfl rfl).elim
    · have refused : ¬ p c :=
        fun taken => ends (Bool.and_eq_true_iff.mpr ⟨bne_iff_ne.mpr escape, taken⟩)
      rw [escapedRunLength_plain _ escape, if_neg refused]
  | case5 => exact newline

end Runs

/-- What starts a text and has no line break starts what is before the first one. -/
theorem starts_break (front : List Char) {rest cs tail : List Char}
    (eq : cs ++ '\n' :: tail = front ++ rest) (plain : '\n' ∉ front) :
    ∃ rest', cs = front ++ rest' ∧ rest = rest' ++ '\n' :: tail := by
  rcases List.append_eq_append_iff.mp eq with ⟨middle, rfl, broken⟩ | ⟨rest', rfl, rfl⟩
  · cases middle with
    | nil => exact ⟨[], by rw [List.append_nil, List.append_nil], broken.symm⟩
    | cons c middle =>
      cases broken
      exact (plain (List.mem_append_right _ (List.mem_cons_self ..))).elim
  · exact ⟨rest', rfl, rfl⟩

namespace Lexeme

variable {cs : List Char} (tail : List Char)

theorem word?_break (nonempty : cs ≠ []) : word? (cs ++ '\n' :: tail) = word? cs := by
  cases cs with
  | nil => exact (nonempty rfl).elim
  | cons c rest =>
    have run : runLength isWordPart (rest ++ '\n' :: tail) = runLength isWordPart rest :=
      runLength_break (by decide) rest tail
    simp only [List.cons_append, word?, run,
      List.take_append_of_le_length (runLength_le isWordPart rest)]

theorem prefixed?_break : prefixed? (cs ++ '\n' :: tail) = prefixed? cs := by
  unfold prefixed?
  split
  · rename_i rest eq
    obtain ⟨rest', rfl, rfl⟩ := starts_break ['0', 'x'] eq (by decide)
    simp only [List.cons_append, List.nil_append,
      runLength_break (p := isHexDigit) (by decide) rest' tail]
  · rename_i rest eq
    obtain ⟨rest', rfl, rfl⟩ := starts_break ['0', 'o'] eq (by decide)
    simp only [List.cons_append, List.nil_append,
      runLength_break (p := isOctalDigit) (by decide) rest' tail]
  · rename_i no_hex no_octal
    split
    · exact (no_hex _ rfl).elim
    · exact (no_octal _ rfl).elim
    · rfl

theorem afterDigits_break (digits : Nat) :
    afterDigits digits (cs ++ '\n' :: tail) = afterDigits digits cs := by
  unfold afterDigits
  split
  · rename_i rest eq
    obtain ⟨rest', rfl, rfl⟩ := starts_break ['.'] eq (by decide)
    simp only [List.cons_append, List.nil_append,
      runLength_break (p := Char.isDigit) (by decide) rest' tail]
  · rename_i rest eq
    obtain ⟨rest', rfl, rfl⟩ := starts_break ['K', 'B'] eq (by decide)
    rfl
  · rename_i rest eq
    obtain ⟨rest', rfl, rfl⟩ := starts_break ['M', 'B'] eq (by decide)
    rfl
  · rename_i no_point no_kilo no_mega
    split
    · exact (no_point _ rfl).elim
    · exact (no_kilo _ rfl).elim
    · exact (no_mega _ rfl).elim
    · rfl

theorem digits_break : runLength Char.isDigit (cs ++ '\n' :: tail) = runLength Char.isDigit cs :=
  runLength_break (by decide) cs tail

theorem number?_break : number? (cs ++ '\n' :: tail) = number? cs := by
  simp only [number?, prefixed?_break, digits_break,
    List.drop_append_of_le_length (runLength_le Char.isDigit cs), afterDigits_break]

theorem jumpInteger?_break : jumpInteger? (cs ++ '\n' :: tail) = jumpInteger? cs := by
  simp only [jumpInteger?, prefixed?_break, digits_break]

theorem symbol?_break : symbol? (cs ++ '\n' :: tail) = symbol? cs := by
  unfold symbol?
  congr 1
  have plain : ∀ entry ∈ Symbol.table, '\n' ∉ entry.2 := by decide
  refine List.find?_congr fun entry member => ?_
  refine Bool.eq_iff_iff.mpr ?_
  rw [List.isPrefixOf_iff_prefix, List.isPrefixOf_iff_prefix]
  constructor
  · rintro ⟨rest, eq⟩
    obtain ⟨rest', eq', _⟩ := starts_break _ eq.symm (plain entry member)
    exact ⟨rest', eq'.symm⟩
  · exact fun starts => starts.trans (List.prefix_append _ _)

theorem sigil?_break (nonempty : cs ≠ []) : sigil? (cs ++ '\n' :: tail) = sigil? cs := by
  cases cs with
  | nil => exact (nonempty rfl).elim
  | cons c rest =>
    have run : runLength isWordPart (rest ++ '\n' :: tail) = runLength isWordPart rest :=
      runLength_break (by decide) rest tail
    simp only [List.cons_append, sigil?, run]

theorem string?_break : string? (cs ++ '\n' :: tail) = string? cs := by
  unfold string?
  split
  · rename_i rest eq
    obtain ⟨rest', rfl, rfl⟩ := starts_break ['"'] eq (by decide)
    have body : escapedRunLength (fun c => c != '"' && c != '\n') (rest' ++ '\n' :: tail) =
        escapedRunLength (fun c => c != '"' && c != '\n') rest' :=
          escapedRunLength_break rfl rest' tail
    simp only [List.cons_append, List.nil_append, body,
      List.drop_append_of_le_length (escapedRunLength_le _ rest')]
    generalize rest'.drop _ = ds
    split
    · rename_i eq
      obtain ⟨_, rfl, _⟩ := starts_break ['"'] eq (by decide)
      rfl
    · rename_i no_end
      split
      · exact (no_end _ rfl).elim
      · rfl
  · rename_i no_quote
    split
    · exact (no_quote _ rfl).elim
    · rfl

theorem regexp?_break : regexp? (cs ++ '\n' :: tail) = regexp? cs := by
  have body : escapedRunLength (fun c => c != '/' && c != '\n') (cs ++ '\n' :: tail) =
      escapedRunLength (fun c => c != '/' && c != '\n') cs := escapedRunLength_break rfl cs tail
  simp only [regexp?, body, List.drop_append_of_le_length (escapedRunLength_le _ cs)]
  split
  · rfl
  generalize cs.drop _ = ds
  split
  · rename_i flags eq
    obtain ⟨flags', rfl, rfl⟩ := starts_break ['/'] eq (by decide)
    simp only [List.cons_append, List.nil_append,
      runLength_break (p := isAsciiLetter) (by decide) flags' tail]
  · rename_i no_end
    split
    · exact (no_end _ rfl).elim
    · rfl

theorem slash?_break (single : NoBlockComment cs) : slash? (cs ++ '\n' :: tail) = slash? cs := by
  unfold slash?
  split
  · rename_i rest eq
    obtain ⟨rest', rfl, rfl⟩ := starts_break ['/', '/'] eq (by decide)
    simp only [List.cons_append, List.nil_append,
      runLength_break (p := (· != '\n')) (by decide) rest' tail]
  · rename_i rest eq
    obtain ⟨rest', rfl, rfl⟩ := starts_break ['/', '*'] eq (by decide)
    exact (single (List.prefix_append ['/', '*'] rest').isInfix).elim
  · rename_i rest no_line no_block eq
    obtain ⟨rest', rfl, rfl⟩ := starts_break ['/'] eq (by decide)
    split
    · rename_i same
      cases same
      exact (no_line _ rfl).elim
    · rename_i same
      cases same
      exact (no_block _ rfl).elim
    · rename_i same
      cases same
      exact regexp?_break tail
    · rename_i no_slash
      exact (no_slash _ rfl).elim
  · rename_i no_line no_block no_slash
    split
    · exact (no_line _ rfl).elim
    · exact (no_block _ rfl).elim
    · exact (no_slash _ rfl).elim
    · rfl

theorem newline?_break (nonempty : cs ≠ []) (other : cs ≠ ['\r']) :
    newline? (cs ++ '\n' :: tail) = newline? cs := by
  cases cs with
  | nil => exact (nonempty rfl).elim
  | cons c rest =>
    unfold newline?
    by_cases carriage : c = '\r'
    · subst carriage
      cases rest with
      | nil => exact (other rfl).elim
      | cons d rest =>
        by_cases feed : d = '\n'
        · subst feed
          rfl
        · simp [feed]
    · by_cases feed : c = '\n'
      · subst feed
        rfl
      · simp [carriage, feed]

theorem blank?_break : blank? (cs ++ '\n' :: tail) = blank? cs := by
  simp only [blank?, runLength_break (p := fun c => c == ' ' || c == '\t') (by decide) cs tail]

theorem unknown_break : unknown (cs ++ '\n' :: tail) = unknown cs := by
  simp only [unknown, runLength_break (p := fun c => !isBlank c) (by decide) cs tail]

theorem normal_break (nonempty : cs ≠ []) (other : cs ≠ ['\r']) (single : NoBlockComment cs) :
    normal (cs ++ '\n' :: tail) = normal cs := by
  simp only [normal, word?_break tail nonempty, number?_break, symbol?_break,
    sigil?_break tail nonempty, string?_break,
    slash?_break tail single, newline?_break tail nonempty other, blank?_break, unknown_break]

theorem hexByte?_break : hexByte? (cs ++ '\n' :: tail) = hexByte? cs := by
  have newline : isHexByteChar '\n' = false := by decide
  have tilde : isHexByteChar '~' = false := by decide
  match cs with
  | [] => cases tail <;> simp [hexByte?, newline]
  | [a] =>
    by_cases same : a = '~'
    · subst same
      cases tail <;> simp [hexByte?, newline]
    · simp [hexByte?, same, newline]
  | [a, b] => by_cases same : a = '~' <;> simp [hexByte?, same, newline, tilde]
  | a :: b :: c :: rest => by_cases same : a = '~' <;> simp [hexByte?, same]

theorem hexSymbol?_break (nonempty : cs ≠ []) :
    hexSymbol? (cs ++ '\n' :: tail) = hexSymbol? cs := by
  cases cs with
  | nil => exact (nonempty rfl).elim
  | cons c rest => 
    unfold hexSymbol?
    split <;> simp_all

theorem hexComment?_break (single : NoBlockComment cs) :
    hexComment? (cs ++ '\n' :: tail) = hexComment? cs := by
  unfold hexComment?
  split
  · rename_i rest eq
    obtain ⟨rest', rfl, rfl⟩ := starts_break ['/', '/'] eq (by decide)
    simp only [List.cons_append, List.nil_append,
      runLength_break (p := (· != '\n')) (by decide) rest' tail]
  · rename_i rest eq
    obtain ⟨rest', rfl, rfl⟩ := starts_break ['/', '*'] eq (by decide)
    exact (single (List.prefix_append ['/', '*'] rest').isInfix).elim
  · rename_i no_line no_block
    split
    · exact (no_line _ rfl).elim
    · exact (no_block _ rfl).elim
    · rfl

theorem hex?_break (nonempty : cs ≠ []) (other : cs ≠ ['\r']) (single : NoBlockComment cs) :
    hex? (cs ++ '\n' :: tail) = hex? cs := by
  simp only [hex?, hexByte?_break, hexSymbol?_break tail nonempty, hexComment?_break tail single,
    newline?_break tail nonempty other, blank?_break]

theorem jump?_break (nonempty : cs ≠ []) (other : cs ≠ ['\r']) :
    jump? (cs ++ '\n' :: tail) = jump? cs := by
  have hyphen : jumpHyphen? (cs ++ '\n' :: tail) = jumpHyphen? cs := by
    cases cs with
    | nil => exact (nonempty rfl).elim
    | cons c rest =>
      unfold jumpHyphen?
      split <;> simp_all
  simp only [jump?, hyphen, jumpInteger?_break, newline?_break tail nonempty other, blank?_break]

end Lexeme

/-- Before a line break a token is read as if the text ended there. -/
theorem Mode.read_break (mode : Mode) {cs : List Char} (tail : List Char) (nonempty : cs ≠ [])
    (other : cs ≠ ['\r'])
    (single : NoBlockComment cs) : mode.read (cs ++ '\n' :: tail) = mode.read cs := by
  cases mode with
  | normal => simp only [read, Lexeme.normal_break tail nonempty other single]
  | hex =>
    simp only [read, Lexeme.normal_break tail nonempty other single,
      Lexeme.hex?_break tail nonempty other single]
  | jump =>
    simp only [read, Lexeme.normal_break tail nonempty other single,
      Lexeme.hex?_break tail nonempty other single, Lexeme.jump?_break tail nonempty other]

/-- A text starts with the keyword of a rule. -/
def StartsWithRule (text : List Char) : Prop :=
  (tokenize text).head?.map (·.kind) = some (.keyword .kwRule)

instance (text : List Char) : Decidable (StartsWithRule text) := inferInstanceAs (Decidable (_ = _))

namespace Cursor

/-- The cursor in a text that goes on. -/
def followed (c : Cursor) (tail : List Char) : Cursor := { c with rest := c.rest ++ tail }

theorem enter_followed (c : Cursor) (tail : List Char) (mode : Mode) :
    (c.enter mode).followed tail = (c.followed tail).enter mode := by
  cases mode with
  | normal => rfl
  | hex => by_cases normal : c.mode = .normal
    <;> simp only [enter, enterHex, followed, normal, if_true, if_false]
  | jump => by_cases hex : c.mode = .hex
    <;> simp only [enter, enterJump, followed, hex, if_true, if_false]

section Front

variable {c after : Cursor} {t : Token} (tail : List Char)

theorem next?_followed (single : NoBlockComment c.rest) (h : c.next? = some (t, after))
    (other : c.rest ≠ ['\r']) :
    (c.followed ('\n' :: tail)).next? = some (t, after.followed ('\n' :: tail)) := by
  have nonempty := rest_ne_nil h
  cases reading : c.mode.read c.rest with
  | mk mode l =>
    have fits := c.mode.read_fits nonempty
    rw [reading] at fits
    have same : (c.followed ('\n' :: tail)).mode.read (c.followed ('\n' :: tail)).rest =
      (mode, l) :=
      (c.mode.read_break tail nonempty other single).trans reading
    have more : (c.followed ('\n' :: tail)).rest ≠ [] :=
      List.append_ne_nil_of_left_ne_nil nonempty _
    rw [next?_of_read nonempty reading] at h
    cases h
    rw [next?_of_read more same]
    simp only [followed, List.take_append_of_le_length fits.2, List.drop_append_of_le_length fits.2]

/-- A line break is read as such in all modes. -/
theorem next?_newline (mode : Mode) (offset : Nat) :
    ∃ mode', (⟨mode, offset, '\n' :: tail⟩ : Cursor).next? =
      some (⟨.newline, offset, ['\n']⟩, ⟨mode', offset + 1, tail⟩) := by
  have hex : Lexeme.hex? ('\n' :: tail) = some ⟨.newline, 1⟩ := by cases tail <;> rfl
  cases mode with
  | normal => exact ⟨.normal, rfl⟩
  | hex =>
    have read : Mode.hex.read ('\n' :: tail) = (.hex, ⟨.newline, 1⟩) := by
      simp only [Mode.read, hex]
    exact ⟨.hex, next?_of_read (c := ⟨.hex, offset, '\n' :: tail⟩) (List.cons_ne_nil _ _) read⟩
  | jump => exact ⟨.jump, rfl⟩

/-- One that starts with a carriage return is one token. -/
theorem next?_carriage (mode : Mode) (offset : Nat) :
    ∃ mode', (⟨mode, offset, '\r' :: '\n' :: tail⟩ : Cursor).next? =
      some (⟨.newline, offset, ['\r', '\n']⟩, ⟨mode', offset + 2, tail⟩) := by
  cases mode with
  | normal => exact ⟨.normal, rfl⟩
  | hex => exact ⟨.hex, rfl⟩
  | jump => exact ⟨.jump, rfl⟩

end Front

/-- The keyword of a rule where it stands at an offset. -/
def ruleKeyword (offset : Nat) : Token := ⟨.keyword .kwRule, offset, ['r', 'u', 'l', 'e']⟩

/-- The keyword of a rule is read in normal mode, whatever the mode was. -/
theorem nextSolid?_rule {text : List Char} (starts : StartsWithRule text) (mode : Mode)
    (offset : Nat) :
    (⟨mode, offset, text⟩ : Cursor).nextSolid? =
    some (ruleKeyword offset, ⟨.normal, offset + 4, text.drop 4⟩) := by
  have nonempty : text ≠ [] := by
    rintro rfl
    exact nomatch starts
  have first : (start text).next? = _ := next?_of_read nonempty rfl
  have kind : (Lexeme.normal text).kind = .keyword .kwRule := by
    rw [StartsWithRule, tokenize, tokens_of_next first] at starts
    exact Option.some.inj starts
  have spelled : text.take (Lexeme.normal text).size = ['r', 'u', 'l', 'e'] :=
    Lexeme.text_of_keyword kind
  have fits : (Lexeme.normal text).size ≤ text.length := (Mode.read_fits .normal nonempty).2
  have size : (Lexeme.normal text).size = 4 := by
    have count := congrArg List.length spelled
    rwa [List.length_take, Nat.min_eq_left fits] at count
  have same : Lexeme.normal text = ⟨.keyword .kwRule, 4⟩ := by
    generalize Lexeme.normal text = l at kind size
    cases l
    cases kind
    cases size
    rfl
  obtain ⟨rest, rfl⟩ : ∃ rest, text = ['r', 'u', 'l', 'e'] ++ rest :=
    ⟨_, (spelled ▸ List.take_append_drop (Lexeme.normal text).size text).symm⟩
  have normal : mode.read (['r', 'u', 'l', 'e'] ++ rest) = (.normal, ⟨.keyword .kwRule, 4⟩) := by
    rw [← same]
    cases mode <;> rfl
  exact nextSolid?_of_solid
    (next?_of_read (c := ⟨mode, offset, ['r', 'u', 'l', 'e'] ++ rest⟩) nonempty normal) nofun

/-- In a text that goes on with a rule on the next line, the tokens are the same
up to the end of the line, and then comes the keyword. -/
theorem nextSolid?_followed {text : List Char} (starts : StartsWithRule text) (c : Cursor)
    (single : NoBlockComment c.rest) :
    (c.followed ('\n' :: text)).nextSolid? = match c.nextSolid? with
      | some (t, after) => some (t, after.followed ('\n' :: text))
      | none => some (ruleKeyword (c.offset + byteLength c.rest + 1),
          ⟨.normal, c.offset + byteLength c.rest + 5, text.drop 4⟩) := by
  revert single
  refine nextSolid?_induct (motive := fun c o => NoBlockComment c.rest →
    (c.followed ('\n' :: text)).nextSolid? = match o with
      | some (t, after) => some (t, after.followed ('\n' :: text))
      | none => some (ruleKeyword (c.offset + byteLength c.rest + 1),
          ⟨.normal, c.offset + byteLength c.rest + 5, text.drop 4⟩)) ?_ ?_ ?_ c
  · intro c ended _
    obtain ⟨mode, offset, rest⟩ := c
    obtain rfl : rest = [] := next?_eq_none.mp ended
    obtain ⟨mode', newline⟩ := next?_newline text mode offset
    exact (nextSolid?_of_trivia newline rfl).trans (nextSolid?_rule starts mode' (offset + 1))
  · intro c t after read trivia ih single
    by_cases carriage : c.rest = ['\r']
    · obtain ⟨mode, offset, rest⟩ := c
      obtain rfl : rest = ['\r'] := carriage
      obtain ⟨mode', newline⟩ := next?_carriage text mode offset
      have last : after.nextSolid? = none := by
        have place := (next?_eq_some read).2.2.2
        have shorter := next?_rest_lt read
        exact nextSolid?_of_none
          (next?_eq_none.mpr (List.eq_nil_of_length_eq_zero (Nat.lt_one_iff.mp shorter)))
      rw [last]
      exact (nextSolid?_of_trivia newline rfl).trans (nextSolid?_rule starts mode' (offset + 2))
    · have place := next?_place read
      have later : NoBlockComment after.rest := single.suffix (place.2.2 ▸ List.suffix_append _ _)
      rw [nextSolid?_of_trivia (next?_followed text single read carriage) trivia, ih later]
      have end_eq : c.offset + byteLength c.rest = after.offset + byteLength after.rest := by
        rw [place.2.2, byteLength_append, place.2.1, ← Nat.add_assoc, ← place.1]
        rfl
      rw [end_eq]
  · intro c t after read meant single
    have carriage : c.rest ≠ ['\r'] := by
      intro carriage
      rw [next?_of_read (rest_ne_nil read) rfl, carriage] at read
      cases read
      refine meant ?_
      cases c.mode <;> rfl
    exact nextSolid?_of_solid (next?_followed text single read carriage) meant

end Cursor

end RuleDesk
