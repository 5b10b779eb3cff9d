import RuleDesk.Proofs.Lexing.Trivia
import RuleDesk.Proofs.Lexing.Spelling

namespace RuleDesk

/-! ## The text of a hex pattern

Letters, digits, white space and a few signs stand before the brace that closes a hex
pattern. A token there ends before the brace, except for text that no mode can read,
which may take the brace with it. -/

/-- The signs of hex patterns and of their jumps. -/
def patternSigns : List Char := ['?', '~', '|', '(', ')', '[', ']', '-']

/-- What may stand in a hex pattern, and all the other letters. -/
def isPatternChar (c : Char) : Bool :=
  isAsciiLetter c || c.isDigit || isWhite c || patternSigns.contains c

/-- What words, numbers and bytes consist of. -/
def isPart (c : Char) : Bool := isWordPart c || c == '.' || c == '?' || c == '~'

/-- The kinds of words, numbers and bytes. -/
def Kind.isRun : Kind → Bool
  | keyword _ | ident | integer | float | hexByte => true
  | _ => false

theorem count_of_all {p : Char → Bool} {cs : List Char} (all : cs.all p) {d : Char}
    (other : p d = false) : cs.count d = 0 :=
  List.count_eq_zero.mpr fun member =>
    absurd (List.all_eq_true.mp all d member) (by rw [other]; exact Bool.false_ne_true)

theorem Kind.isTrivia_of_isRun {k : Kind} (h : k.isRun) : ¬ k.isTrivia := by
  cases k <;> first | exact Bool.false_ne_true | cases h

theorem Kind.isRun_of_isWord {k : Kind} (h : k.isWord) : k.isRun := by
  cases k <;> first | rfl | cases h

theorem isPart_of_wordPart {c : Char} (h : isWordPart c) : isPart c := by simp [isPart, h]

theorem isPart_of_wordStart {c : Char} (h : isWordStart c) : isPart c :=
  isPart_of_wordPart (Bool.or_eq_true_iff.mpr (.inl h))

theorem isPart_of_digit {c : Char} (h : c.isDigit) : isPart c :=
  isPart_of_wordPart (Bool.or_eq_true_iff.mpr (.inr (isDecimalDigit_of_isDigit h)))

namespace Lexeme

theorem isPart_of_byteChar {c : Char} (h : isHexByteChar c) : isPart c := by
  rcases Bool.or_eq_true_iff.mp (isHexByteChar_part h) with part | mark
  · exact isPart_of_wordPart part
  · rw [beq_iff_eq.mp mark]
    decide

theorem isPart_of_hexDigit {c : Char} (h : isHexDigit c) : isPart c :=
  isPart_of_byteChar (Bool.or_eq_true_iff.mpr (.inl h))

theorem isPart_of_octalDigit {c : Char} (h : isOctalDigit c) : isPart c := by
  refine isPart_of_digit ?_
  simp only [isOctalDigit, Bool.and_eq_true, decide_eq_true_eq, Char.le_def] at h
  simp only [Char.isDigit, Bool.and_eq_true, decide_eq_true_eq]
  exact ⟨h.1, UInt32.le_trans h.2 (by decide)⟩

theorem all_take_runLength {p q : Char → Bool} (among : ∀ c, p c → q c) (cs : List Char) :
    (cs.take (runLength p cs)).all q := by
  obtain ⟨front, rest, rfl, size, all, _⟩ := runLength_split p cs
  rw [← size, List.take_left]
  exact List.all_eq_true.mpr fun c member => among c (List.all_eq_true.mp all c member)

variable {cs : List Char} {l : Lexeme}

theorem word?_parts (h : word? cs = some l) : (cs.take l.size).all isPart := by
  unfold word? at h
  dsimp only at h
  split at h
  · cases h
  rename_i c rest
  split at h
  · rename_i start
    have size : l.size = runLength isWordPart rest + 1 := by split at h <;> cases h <;> rfl
    rw [size, List.take_succ_cons, List.all_cons, isPart_of_wordStart start, Bool.true_and]
    exact all_take_runLength (fun _ => isPart_of_wordPart) rest
  · cases h

theorem prefixed?_parts (h : prefixed? cs = some l) : (cs.take l.size).all isPart := by
  unfold prefixed? at h
  dsimp only at h
  split at h
  · split at h <;> cases h
    exact all_take_runLength (fun _ => isPart_of_hexDigit) _
  · split at h <;> cases h
    exact all_take_runLength (fun _ => isPart_of_octalDigit) _
  · cases h

theorem digits_parts (cs : List Char) : (cs.take (runLength Char.isDigit cs)).all isPart :=
  all_take_runLength (fun _ => isPart_of_digit) cs

theorem number?_parts (h : number? cs = some l) : (cs.take l.size).all isPart := by
  rcases Option.or_eq_some_iff.mp h with based | ⟨_, digits⟩
  · exact prefixed?_parts based
  dsimp only at digits
  split at digits
  · cases digits
  cases digits
  obtain ⟨front, rest, rfl, size, all, _⟩ := runLength_split Char.isDigit cs
  have first : front.all isPart :=
    List.all_eq_true.mpr fun c member => isPart_of_digit (List.all_eq_true.mp all c member)
  rw [← size, List.drop_left]
  -- what follows the digits, of which the first ones are known
  have more : ∀ n, (rest.take n).all isPart →
      ((front ++ rest).take (front.length + n)).all isPart := fun n parts => by
    rw [List.take_length_add_append, List.all_append, first, parts]
    rfl
  unfold afterDigits
  split
  · dsimp only
    split
    · exact more 0 rfl
    · rw [Nat.add_assoc, Nat.add_comm 1]
      refine more _ ?_
      exact all_take_runLength (fun _ => isPart_of_digit) _
  · exact more 2 rfl
  · exact more 2 rfl
  · exact more 0 rfl

theorem hexByte?_parts (h : hexByte? cs = some l) : (cs.take l.size).all isPart := by
  unfold hexByte? at h
  split at h
  · split at h
    · rename_i bytes
      cases h
      obtain ⟨first, second⟩ := Bool.and_eq_true_iff.mp bytes
      simp [isPart_of_byteChar first, isPart_of_byteChar second, show isPart '~' = true from rfl]
    · cases h
  · split at h
    · rename_i bytes
      cases h
      obtain ⟨first, second⟩ := Bool.and_eq_true_iff.mp bytes
      simp [isPart_of_byteChar first, isPart_of_byteChar second]
    · cases h
  · cases h

theorem jumpInteger?_parts (h : jumpInteger? cs = some l) : (cs.take l.size).all isPart := by
  rcases Option.or_eq_some_iff.mp h with based | ⟨_, digits⟩
  · exact prefixed?_parts based
  · dsimp only at digits
    split at digits <;> cases digits
    exact digits_parts cs

theorem hexByte?_kind (h : hexByte? cs = some l) : l.kind = .hexByte := by
  unfold hexByte? at h
  split at h <;> first | (split at h <;> cases h; rfl) | cases h

theorem jumpInteger?_kind (h : jumpInteger? cs = some l) : l.kind = .integer := by
  rcases Option.or_eq_some_iff.mp h with based | ⟨_, digits⟩
  · unfold prefixed? at based
    dsimp only at based
    split at based <;> (try split at based) <;> cases based <;> rfl
  · dsimp only at digits
    split at digits <;> cases digits
    rfl

theorem jumpInteger?_of_not_digit {c : Char} (other : c.isDigit = false) (cs : List Char) :
    jumpInteger? (c :: cs) = none := by
  have none : runLength Char.isDigit (c :: cs) = 0 := runLength_eq_zero.mpr other
  have zero : c ≠ '0' := by
    rintro rfl
    cases other
  rw [jumpInteger?, prefixed?_other _ zero, none]
  rfl

/-- What a token that is no white space starts with: a sign that is a symbol, a run of
parts, or text that cannot be read. Only a digit starts an integer, and only one
function reads bytes. -/
inductive Reading (c : Char) (rest : List Char) : Lexeme → Prop
  | symbol {l : Lexeme} {s : Symbol} (kind : l.kind = .symbol s) (size : l.size = 1)
      (entry : (s, [c]) ∈ Symbol.table) : Reading c rest l
  | run {l : Lexeme} (kind : l.kind.isRun) (parts : ((c :: rest).take l.size).all isPart)
      (digit : l.kind = .integer → c.isDigit)
      (byte : l.kind = .hexByte → hexByte? (c :: rest) = some l) : Reading c rest l
  | unknown {l : Lexeme} (same : l = Lexeme.unknown (c :: rest)) : Reading c rest l

section Reading

variable {c : Char} {rest : List Char}

theorem Reading.not_trivia {l : Lexeme} (h : Reading c rest l) : ¬ l.kind.isTrivia := by
  cases h with
  | symbol kind => rw [kind]; exact Bool.false_ne_true
  | run kind => exact Kind.isTrivia_of_isRun kind
  | unknown same => rw [same]; exact Bool.false_ne_true

theorem newline?_solid (solid : isWhite c = false) : newline? (c :: rest) = none := by
  refine newline?_eq_none.mpr ⟨?_, ?_⟩ <;> · rintro rfl; cases solid

theorem blank?_solid (solid : isWhite c = false) : blank? (c :: rest) = none := by
  refine blank?_eq_none.mpr ?_
  simp only [isWhite, Bool.or_eq_false_iff] at solid ⊢
  exact solid.1.1

variable (among : isPatternChar c)

include among

theorem ne_of_patternChar {d : Char} (other : isPatternChar d = false) : c ≠ d := by
  rintro rfl
  rw [among] at other
  cases other

theorem symbol?_patternChar {l : Lexeme} (h : symbol? (c :: rest) = some l) : Reading c rest l := by
  obtain ⟨⟨s, text⟩, found, rfl⟩ := Option.map_eq_some_iff.mp h
  have member := List.mem_of_find?_eq_some found
  have front : text.isPrefixOf (c :: rest) = true :=
    List.find?_some (p := fun entry : Symbol × List Char => entry.2.isPrefixOf (c :: rest)) found
  have single : ∀ entry ∈ Symbol.table, entry.2 ≠ [] ∧
      (entry.2.head?.any isPatternChar → entry.2.length = 1) := by decide
  obtain ⟨some_char, one⟩ := single _ member
  cases text with
  | nil => exact (some_char rfl).elim
  | cons d text =>
    obtain ⟨rfl, _⟩ := List.cons_prefix_cons.mp (List.isPrefixOf_iff_prefix.mp front)
    cases List.eq_nil_of_length_eq_zero (Nat.succ.inj (one among))
    exact .symbol rfl rfl member

variable (solid : isWhite c = false)

include solid

theorem normal_reading : Reading c rest (normal (c :: rest)) := by
  have read := (normal_or (c :: rest)).symm
  generalize normal (c :: rest) = l at read ⊢
  rcases Option.or_eq_some_iff.mp read with word | ⟨_, read⟩
  · have kind := word?_kind word
    have other {k : Kind} (none : k.isWord = false) : l.kind ≠ k := fun same => by
      rw [same, none] at kind; cases kind
    exact .run (Kind.isRun_of_isWord kind) (word?_parts word) (fun same => (other rfl same).elim)
      fun same => (other rfl same).elim
  rcases Option.or_eq_some_iff.mp read with number | ⟨_, read⟩
  · have digit : c.isDigit := by
      by_contra other
      rw [number?_of_not_digit (Bool.eq_false_iff.mpr other)] at number
      cases number
    refine .run ?_ (number?_parts number) (fun _ => digit) ?_ <;> rcases number?_kind number
      with kind | kind <;> rw [kind] <;>
      first | rfl | nofun
  rcases Option.or_eq_some_iff.mp read with symbol | ⟨_, read⟩
  · exact symbol?_patternChar among symbol
  have no_sigil : sigil? (c :: rest) = none := by
    refine sigil?_eq_none.mpr (Option.eq_none_iff_forall_ne_some.mpr fun s found => ?_)
    have same := Sigil.char_of_ofChar? found
    cases s <;> exact ne_of_patternChar among (by decide) same
  rw [no_sigil, string?_other _ (ne_of_patternChar among (by decide)),
    slash?_other _ (ne_of_patternChar among (by decide)),
    newline?_solid solid, blank?_solid solid] at read
  cases read
  exact .unknown rfl

theorem hex?_reading {l : Lexeme} (h : hex? (c :: rest) = some l) : Reading c rest l := by
  rcases Option.or_eq_some_iff.mp h with byte | ⟨_, h⟩
  · exact .run (by rw [hexByte?_kind byte]; rfl) (hexByte?_parts byte)
      (by rw [hexByte?_kind byte]; nofun) fun _ => byte
  rcases Option.or_eq_some_iff.mp h with symbol | ⟨_, h⟩
  · unfold hexSymbol? at symbol
    split at symbol <;> rename_i same <;> cases symbol <;> cases same
      <;> exact .symbol rfl rfl (by decide)
  have no_comment : hexComment? (c :: rest) = none := by
    have other := ne_of_patternChar among (d := '/') (by decide)
    unfold hexComment?
    split <;> rename_i same <;> first | (cases same; exact (other rfl).elim) | rfl
  rw [no_comment, newline?_solid solid, blank?_solid solid] at h
  cases h

theorem jump?_reading {l : Lexeme} (h : jump? (c :: rest) = some l) : Reading c rest l := by
  rcases Option.or_eq_some_iff.mp h with hyphen | ⟨_, h⟩
  · unfold jumpHyphen? at hyphen
    split at hyphen <;> rename_i same <;> cases hyphen
    cases same
    exact .symbol rfl rfl (by decide)
  rcases Option.or_eq_some_iff.mp h with integer | ⟨_, h⟩
  · refine .run (by rw [jumpInteger?_kind integer]; rfl) (jumpInteger?_parts integer) (fun _ => ?_)
      (by rw [jumpInteger?_kind integer]; nofun)
    by_contra other
    rw [jumpInteger?_of_not_digit (Bool.eq_false_iff.mpr other)] at integer
    cases integer
  rw [newline?_solid solid, blank?_solid solid] at h
  cases h

end Reading

end Lexeme

/-- In each mode. -/
theorem Mode.reading (mode : Mode) {c : Char} (rest : List Char) (among : isPatternChar c)
    (solid : isWhite c = false) :
    Lexeme.Reading c rest (mode.read (c :: rest)).2 := by
  have normal : Lexeme.Reading c rest (.normal (c :: rest)) := Lexeme.normal_reading among solid
  cases mode with
  | normal => exact normal
  | hex =>
    rw [read]
    split
    · exact Lexeme.hex?_reading among solid ‹_›
    · exact normal
  | jump =>
    rw [read]
    split
    · exact Lexeme.jump?_reading among solid ‹_›
    · split
      · exact Lexeme.hex?_reading among solid ‹_›
      · exact normal

namespace Mode

variable {mode mode' : Mode} {k : Kind} {c : Char} {text rest : List Char} (among : isPatternChar c)
  (solid : isWhite c = false) (read : mode.read (c :: text ++ rest) = (mode', ⟨k, text.length + 1⟩))

include among solid read

theorem reading_token : Lexeme.Reading c (text ++ rest) ⟨k, text.length + 1⟩ := by
  have reading := mode.reading (text ++ rest) among solid
  rwa [← List.cons_append, read] at reading

/-- Symbols are spelled as the table says. -/
theorem reading_symbol {s : Symbol} (kind : k = .symbol s) :
    text = [] ∧ (s, [c]) ∈ Symbol.table := by
  cases reading_token among solid read with
  | symbol same size entry =>
    cases kind.symm.trans same
    exact ⟨List.eq_nil_of_length_eq_zero (Nat.succ.inj size), entry⟩
  | run run =>
    rw [kind] at run
    cases run
  | unknown same => cases kind.symm.trans (congrArg Lexeme.kind same)

/-- A parenthesis is a token of its own. -/
theorem reading_parens (known : k ≠ .unknown) :
    (c :: text).count '(' = (if k = .symbol .lparen then 1 else 0) ∧
    (c :: text).count ')' = (if k = .symbol .rparen then 1 else 0) := by
  cases reading_token among solid read with
  | @symbol s same size entry =>
    cases (same : k = _)
    cases List.eq_nil_of_length_eq_zero (Nat.succ.inj (size : text.length + 1 = 1))
    have spelled : ∀ entry ∈ Symbol.table,
      entry.2.count '(' = (if entry.1 = .lparen then 1 else 0) ∧
      entry.2.count ')' = (if entry.1 = .rparen then 1 else 0) := by decide
    simpa only [Kind.symbol.injEq] using spelled _ entry
  | run run parts _ _ =>
    have no_symbol : ∀ s, k ≠ .symbol s := by
      rintro s rfl
      cases run
    rw [List.take_succ_cons, List.take_left] at parts
    rw [if_neg (no_symbol _), if_neg (no_symbol _), List.count_eq_zero, List.count_eq_zero]
    have absent {d : Char} (other : isPart d = false) : d ∉ c :: text := fun member =>
      Bool.false_ne_true (other.symm.trans (List.all_eq_true.mp parts d member))
    exact ⟨absent rfl, absent rfl⟩
  | unknown same => exact (known (congrArg Lexeme.kind same)).elim

omit among solid in
/-- Reserved words are spelled as they are. -/
theorem reading_keyword {w : Keyword} (kind : k = .keyword w) : c :: text = w.text.toList := by
  subst kind
  have normal : mode.read (c :: text ++ rest) = _ :=
    mode.read_normal (by rw [read]; exact Bool.false_ne_true)
  have same : (⟨.keyword w, text.length + 1⟩ : Lexeme) = .normal (c :: text ++ rest) :=
    (Prod.mk.inj (read.symm.trans normal)).2
  have kind : (Lexeme.normal (c :: text ++ rest)).kind = .keyword w :=
    (congrArg Lexeme.kind same).symm
  have spelled := Lexeme.text_of_keyword kind
  rwa [← same, List.cons_append, List.take_succ_cons, List.take_left] at spelled

end Mode

namespace Lexeme

/-- A run ends before what is no part of it. -/
theorem take_before {p : Char → Bool} {d : Char} (refused : p d = false)
    {front back : List Char} {n : Nat}
    (all : ((front ++ d :: back).take n).all p) : n ≤ front.length := by
  by_contra long
  obtain ⟨k, rfl⟩ := Nat.exists_eq_add_of_lt (Nat.lt_of_not_le long)
  rw [Nat.add_assoc, List.take_length_add_append, List.take_succ_cons, List.all_append,
    List.all_cons, refused] at all
  simp at all

/-- What cannot be read stops in the text or takes the brace with it. -/
theorem unknown_size {front : List Char} (nonempty : front ≠ []) (back : List Char) :
    (unknown (front ++ '}' :: ' ' :: back)).size ≤ front.length ∨
      (unknown (front ++ '}' :: ' ' :: back)).size = front.length + 1 := by
  have some_char : 0 < front.length := List.length_pos_iff.mpr nonempty
  unfold unknown
  by_cases all : front.all fun c => !isBlank c
  · right
    rw [runLength_of_all all, show runLength (fun c => !isBlank c) ('}' :: ' ' :: back) =
      1 from rfl]
    exact Nat.max_eq_right (Nat.le_add_left _ _)
  · have short : runLength (fun c => !isBlank c) (front ++ '}' :: ' ' :: back) < front.length :=
      Nat.lt_of_not_le fun long => all (runLength_passes long)
    left
    exact Nat.max_le.mpr ⟨some_char, Nat.le_of_lt short⟩

end Lexeme

namespace Cursor

/-- What is ahead in the text of a hex pattern, up to and with its brace: the brace
itself, text that cannot be read with the brace at its end, or a token before it. -/
inductive AheadInHex (mode : Mode) (offset : Nat) (cs back : List Char) : Token → Cursor → Prop
  | brace (white : cs.all isWhite) :
    AheadInHex mode offset cs back ⟨.symbol .rbrace, offset + byteLength cs, ['}']⟩
        ⟨.normal, offset + byteLength cs + 1, back⟩
  | swallowed {t : Token} (unknown : t.kind = .unknown) :
    AheadInHex mode offset cs back t ⟨.normal, offset + byteLength cs + 1, back⟩
  | inside {mode' : Mode} {k : Kind} {c : Char} {ws text rest : List Char}
      (split : cs = ws ++ (c :: text ++ rest)) (white : ws.all isWhite)
      (solid : isWhite c = false)
      (read : mode.read (c :: text ++ (rest ++ '}' :: back)) = (mode', ⟨k, text.length + 1⟩)) :
    AheadInHex mode offset cs back ⟨k, offset + byteLength ws, c :: text⟩
      ⟨mode', offset + byteLength ws + byteLength (c :: text), rest ++ '}' :: back⟩

theorem nextSolid?_inHex (mode : Mode) (offset : Nat) {cs : List Char}
    (among : cs.all isPatternChar) (back : List Char) :
    ∃ t after, (⟨mode, offset, cs ++ '}' :: ' ' :: back⟩ : Cursor).nextSolid? = some (t, after) ∧
      AheadInHex mode offset cs (' ' :: back) t after := by
  obtain ⟨ws, front, rfl, _, white, head⟩ := runLength_split isWhite cs
  rw [List.all_append, Bool.and_eq_true] at among
  rw [List.append_assoc, nextSolid?_whites mode offset white]
  cases front with
  | nil =>
    have read : mode.read ('}' :: ' ' :: back) = (.normal, ⟨.symbol .rbrace, 1⟩) := by
      cases mode <;> rfl
    refine ⟨_, _, nextSolid?_of_solid (next?_of_read (List.cons_ne_nil _ _) read) nofun, ?_⟩
    rw [List.append_nil]
    exact .brace white
  | cons c cs =>
    have solid : isWhite c = false := head
    have reading := mode.reading (cs ++ '}' :: ' ' :: back)
      (List.all_eq_true.mp among.2 c List.mem_cons_self) solid
    cases read : mode.read (c :: (cs ++ '}' :: ' ' :: back)) with
    | mk mode' l =>
      rw [read] at reading
      dsimp only at reading
      obtain ⟨n, size⟩ : ∃ n, l.size = n + 1 := by
        have fits := mode.read_fits (List.cons_ne_nil c (cs ++ '}' :: ' ' :: back))
        rw [read] at fits
        exact Nat.exists_eq_add_one.mpr fits.1
      have stops : l.size ≤ (c :: cs).length ∨
          (l.size = (c :: cs).length + 1 ∧ l.kind = .unknown) := by
        cases reading with
        | symbol _ single => exact .inl (single ▸ Nat.succ_le_succ (Nat.zero_le _))
        | run _ parts => exact .inl (Lexeme.take_before (by decide) parts)
        | unknown same =>
          rw [same]
          exact (Lexeme.unknown_size (List.cons_ne_nil c cs) back).imp_right fun beyond =>
            ⟨beyond, rfl⟩
      rw [size, List.length_cons, Nat.add_le_add_iff_right, Nat.add_right_cancel_iff] at stops
      have next := nextSolid?_of_solid (next?_of_read (c := ⟨mode, offset + byteLength ws, _⟩)
        (List.cons_ne_nil _ _) read) reading.not_trivia
      rw [size, List.take_succ_cons, List.drop_succ_cons] at next
      refine ⟨_, _, next, ?_⟩
      rcases stops with inside | ⟨beyond, unknown⟩
      · rw [List.take_append_of_le_length inside, List.drop_append_of_le_length inside]
        have whole := List.take_append_drop n cs
        refine .inside (by rw [List.cons_append, whole]) white solid ?_
        rw [List.cons_append, ← List.append_assoc, whole, read,
          List.length_take_of_le inside, ← size]
      · have other : ¬ (mode.read (c :: (cs ++ '}' :: ' ' :: back))).2.kind.isOfHex := by
          rw [read, unknown]
          exact nofun
        have normal := congrArg Prod.fst (mode.read_normal other)
        rw [read] at normal
        cases normal
        have stop : offset + byteLength ws + byteLength (c :: (cs ++ '}' :: ' ' :: back).take n) =
            offset + byteLength (ws ++ c :: cs) + 1 := by
          rw [beyond, List.take_length_add_append, ← List.cons_append, byteLength_append,
            byteLength_append]
          show offset + byteLength ws + (byteLength (c :: cs) + 1) = _
          omega
        rw [Token.stop, stop, beyond, List.drop_length_add_append]
        exact .swallowed unknown

end Cursor

end RuleDesk
