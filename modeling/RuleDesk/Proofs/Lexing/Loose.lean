import RuleDesk.Proofs.Lexing.Local

namespace RuleDesk

/-! ## Tokens before white space and comments

A token that is whole and means something ends at white space, at a comment, at a
colon, at a closing parenthesis and at the end of the text, whatever stood behind it
elsewhere. -/

/-- Kinds of tokens that mean something and are whole. -/
def Kind.isWhole : Kind → Bool
  | comment | newline | blank | openString | openRegexp | unknown => false
  | _ => true

/-- White space that is read as a token of its own. -/
def isWhite (c : Char) : Bool := c == ' ' || c == '\t' || c == '\r' || c == '\n'

/-- Texts that touch no token before them. -/
inductive Loose : List Char → Prop
  | ended : Loose []
  | white {c : Char} (rest : List Char) (h : isWhite c) : Loose (c :: rest)
  | line (rest : List Char) : Loose ('/' :: '/' :: rest)
  | block (rest : List Char) : Loose ('/' :: '*' :: rest)
  | colon (rest : List Char) : Loose (':' :: rest)
  | paren (rest : List Char) : Loose (')' :: rest)

theorem isWhite_cases {c : Char} (h : isWhite c) : c = ' ' ∨ c = '\t' ∨ c = '\r' ∨ c = '\n' := by
  simpa only [isWhite, Bool.or_eq_true, beq_iff_eq, or_assoc] using h

/-- The characters that such a text can start with. -/
theorem Loose.refuses {rest : List Char} (h : Loose rest) (p : Char → Bool)
    (others : [' ', '\t', '\r', '\n', '/', ':', ')'].all fun c => !p c) :
    rest.head?.any p = false := by
  simp only [List.all_cons, List.all_nil, Bool.and_true, Bool.and_eq_true,
    Bool.not_eq_true'] at others
  obtain ⟨blank, tab, carriage, feed, slash, colon, paren⟩ := others
  cases h with
  | ended => rfl
  | white rest white => rcases isWhite_cases white with rfl | rfl | rfl | rfl <;> assumption
  | line | block => exact slash
  | colon => exact colon
  | paren => exact paren

theorem Loose.head_ne {rest : List Char} (h : Loose rest) {c : Char}
    (other : [' ', '\t', '\r', '\n', '/', ':', ')'].all fun d => !(d == c)) :
    rest.head? ≠ some c := by
  intro head
  have refused := h.refuses (· == c) other
  rw [head] at refused
  exact absurd refused (by simp)

section Runs

variable {p : Char → Bool} {front rest rest' : List Char}

/-- A run that does not leave the front ends at what refuses it. -/
theorem runLength_ends (short : runLength p (front ++ rest) ≤ front.length)
    (refused : rest'.head?.any p = false) :
    runLength p (front ++ rest') = runLength p (front ++ rest) := by
  by_cases inside : rest.head?.any p = false
  · exact runLength_local short (inside.trans refused.symm)
  induction front with
  | nil => exact (inside (runLength_eq_zero.mp (Nat.le_zero.mp short))).elim
  | cons c front ih =>
    simp only [List.cons_append, runLength] at short ⊢
    split at short
    · rw [if_pos ‹_›, if_pos ‹_›, ih (Nat.le_of_succ_le_succ short)]
    · rw [if_neg ‹_›, if_neg ‹_›]

/-- So does one of which only some characters count. -/
theorem min_runLength_ends {n : Nat} (short : min n (runLength p (front ++ rest)) ≤ front.length)
    (refused : rest'.head?.any p = false) :
    min n (runLength p (front ++ rest')) = min n (runLength p (front ++ rest)) := by
  by_cases inside : runLength p (front ++ rest) ≤ front.length
  · rw [runLength_ends inside refused]
  · have all : front.all p := runLength_passes (Nat.le_of_lt (Nat.not_le.mp inside))
    have first := runLength_of_all all rest
    have second := runLength_of_all all rest'
    omega

/-- What ends the body of a literal is not looked past. -/
theorem escapedRunLength_ends {c : Char} (stops : p c = false) (other : c ≠ '\\')
    (h : escapedRunLength p (front ++ c :: rest) = front.length) (rest' : List Char) :
    escapedRunLength p (front ++ c :: rest') = front.length := by
  induction size : front.length using Nat.strongRecOn generalizing front with
  | _ size ih =>
    match front with
    | [] =>
      subst size
      rw [List.nil_append, escapedRunLength_plain _ other, stops]
      rfl
    | d :: front =>
      by_cases backslash : d = '\\'
      · subst backslash
        match front with
        | [] =>
          by_cases newline : c = '\n' <;> simp [escapedRunLength, newline] at h
        | e :: front =>
          simp only [List.cons_append, escapedRunLength, List.length_cons] at h size ⊢
          split at h
          · omega
          · rw [if_neg ‹_›, ih front.length (by omega) (Nat.add_right_cancel h) rfl, ← size]
      · rw [List.cons_append, escapedRunLength_plain _ backslash] at h ⊢
        rw [List.length_cons] at h size
        split at h
        · rw [if_pos ‹_›, ih front.length (by omega) (Nat.add_right_cancel h) rfl, ← size]
        · cases h

end Runs

/-- One way to read a text or else another one, before another rest. -/
theorem either_stays {o o' p p' : Option Lexeme} {l : Lexeme} (h : o.or p = some l)
    (first : o = some l → o' = some l) (none : o = none → o' = none)
    (second : p = some l → p' = some l) :
    o'.or p' = some l := by
  rcases Option.or_eq_some_iff.mp h with found | ⟨missing, found⟩
  · rw [first found, Option.some_or]
  · rw [none missing, Option.none_or, second found]

namespace Lexeme

variable {c : Char} {front rest rest' : List Char} {l : Lexeme}

theorem word?_loose (loose : Loose rest') (h : word? (c :: (front ++ rest)) = some l)
    (fits : l.size ≤ front.length + 1) :
    word? (c :: (front ++ rest')) = some l := by
  unfold word? at h ⊢
  dsimp only at h ⊢
  split at h
  · rename_i start
    have short : runLength isWordPart (front ++ rest) ≤ front.length := by
      split at h <;> cases h <;> exact Nat.le_of_succ_le_succ fits
    rw [if_pos start, runLength_ends short (loose.refuses _ (by decide)),
      List.take_append_of_le_length short]
    rwa [List.take_append_of_le_length short] at h
  · cases h

/-- A number with a base has a digit behind it. -/
theorem prefixed?_long {cs : List Char} (h : prefixed? cs = some l) : 3 ≤ l.size := by
  unfold prefixed? at h
  dsimp only at h
  split at h
  · split at h <;> cases h
    rename_i digits
    have some_digit : runLength isHexDigit _ ≠ 0 := fun none => digits (beq_iff_eq.mpr none)
    dsimp only
    omega
  · split at h <;> cases h
    rename_i digits
    have some_digit : runLength isOctalDigit _ ≠ 0 := fun none => digits (beq_iff_eq.mpr none)
    dsimp only
    omega
  · cases h

theorem word?_eq_none {cs : List Char} : word? (c :: cs) = none ↔ isWordStart c = false := by
  unfold word?
  dsimp only
  split
  · rename_i start
    refine ⟨fun none => ?_, fun other => absurd start (by rw [other]; exact nofun)⟩
    split at none <;> cases none
  · rename_i other
    exact ⟨fun _ => Bool.eq_false_iff.mpr other, fun _ => rfl⟩

/-- Digits behind a base, of which there has to be one. -/
theorem based_loose {p : Char → Bool} (loose : Loose rest')
    (others : [' ', '\t', '\r', '\n', '/', ':', ')'].all fun c => !p c)
    (h : (if runLength p (front ++ rest) == 0 then none
    else some ⟨.integer, runLength p (front ++ rest) + 2⟩) = some l)
    (fits : l.size ≤ front.length + 2) :
    (if runLength p (front ++ rest') == 0 then none
      else some ⟨.integer, runLength p (front ++ rest') + 2⟩) = some l := by
  split at h
  · cases h
  · rename_i digits
    cases h
    rw [runLength_ends (Nat.le_of_add_le_add_right fits) (loose.refuses p others), if_neg digits]

theorem prefixed?_loose (loose : Loose rest') (h : prefixed? (c :: (front ++ rest)) = some l)
    (fits : l.size ≤ front.length + 1) : prefixed? (c :: (front ++ rest')) = some l := by
  have long := prefixed?_long h
  obtain ⟨d, front, rfl⟩ : ∃ d more, front = d :: more := List.exists_cons_of_length_pos (by omega)
  by_cases zero : c = '0'
  · subst zero
    rw [prefixed?_zero, List.cons_append, List.head?_cons, List.tail_cons] at h ⊢
    by_cases hex : some d = some 'x'
    · rw [if_pos hex] at h ⊢
      exact based_loose loose (by decide) h fits
    by_cases octal : some d = some 'o'
    · rw [if_neg hex, if_pos octal] at h ⊢
      exact based_loose loose (by decide) h fits
    · rw [if_neg hex, if_neg octal] at h
      cases h
  · rw [prefixed?_other _ zero] at h
    cases h

theorem prefixed?_loose_none (loose : Loose rest') (h : prefixed? (c :: (front ++ rest)) = none) :
    prefixed? (c :: (front ++ rest')) = none := by
  by_cases zero : c = '0'
  · subst zero
    rw [prefixed?_zero] at h ⊢
    cases front with
    | nil =>
      rw [List.nil_append, if_neg (loose.head_ne (by decide)), if_neg (loose.head_ne (by decide))]
    | cons d front =>
      have none : ∀ p : Char → Bool, ([' ', '\t', '\r', '\n', '/', ':', ')'].all fun c => !p c) →
          runLength p (front ++ rest) = 0 → runLength p (front ++ rest') = 0 := fun p others none =>
        (runLength_ends (none ▸ Nat.zero_le _) (loose.refuses p others)).trans none
      rw [List.cons_append, List.head?_cons, List.tail_cons] at h ⊢
      by_cases hex : some d = some 'x'
      · rw [if_pos hex] at h ⊢
        have digits : runLength isHexDigit (front ++ rest) = 0 := by simpa using h
        rw [none _ (by decide) digits]
        rfl
      by_cases octal : some d = some 'o'
      · rw [if_neg hex, if_pos octal] at h ⊢
        have digits : runLength isOctalDigit (front ++ rest) = 0 := by simpa using h
        rw [none _ (by decide) digits]
        rfl
      · rw [if_neg hex, if_neg octal]
  · exact prefixed?_other _ zero

theorem afterDigits_loose {digits : Nat} (loose : Loose rest')
    (fits : (afterDigits digits (front ++ rest)).size ≤ digits + front.length) :
    afterDigits digits (front ++ rest') = afterDigits digits (front ++ rest) := by
  have no_unit :
    ¬ ((rest'.head? = some 'K' ∨ rest'.head? = some 'M') ∧ rest'.tail.head? = some 'B') :=
    fun unit => unit.1.elim (loose.head_ne (by decide)) (loose.head_ne (by decide))
  rw [afterDigits_eq] at fits
  rw [afterDigits_eq, afterDigits_eq]
  cases front with
  | nil =>
    rw [List.nil_append] at fits
    rw [List.nil_append, List.nil_append, if_neg (loose.head_ne (by decide)), if_neg no_unit]
    by_cases point : rest.head? = some '.'
    · rw [if_pos point] at fits ⊢
      by_cases none : (runLength Char.isDigit rest.tail == 0) = true
      · rw [if_pos none]
      · rw [if_neg none] at fits
        have long : digits + 1 + runLength Char.isDigit rest.tail ≤ digits := fits
        omega
    · rw [if_neg point] at fits ⊢
      by_cases unit : (rest.head? = some 'K' ∨ rest.head? = some 'M') ∧ rest.tail.head? = some 'B'
      · rw [if_pos unit] at fits
        have long : digits + 2 ≤ digits := fits
        omega
      · rw [if_neg unit]
  | cons d front =>
    rw [List.cons_append, List.head?_cons, List.tail_cons, List.length_cons] at fits
    rw [List.cons_append, List.cons_append, List.head?_cons, List.tail_cons, List.head?_cons,
      List.tail_cons]
    by_cases point : some d = some '.'
    · rw [if_pos point] at fits
      rw [if_pos point, if_pos point]
      have short : runLength Char.isDigit (front ++ rest) ≤ front.length := by
        by_cases none : (runLength Char.isDigit (front ++ rest) == 0) = true
        · exact beq_iff_eq.mp none ▸ Nat.zero_le _
        · rw [if_neg none] at fits
          have long : digits + 1 + runLength Char.isDigit (front ++ rest) ≤
              digits + (front.length + 1) := fits
          omega
      rw [runLength_ends short (loose.refuses _ (by decide))]
    · rw [if_neg point] at fits
      rw [if_neg point, if_neg point]
      cases front with
      | cons e front => rfl
      | nil =>
        rw [List.nil_append] at fits
        rw [List.nil_append, List.nil_append, if_neg fun unit => loose.head_ne (by decide) unit.2]
        by_cases unit : (some d = some 'K' ∨ some d = some 'M') ∧ rest.head? = some 'B'
        · rw [if_pos unit] at fits
          have long : digits + 2 ≤ digits + 1 := fits
          omega
        · rw [if_neg unit]

theorem number?_loose (loose : Loose rest') (h : number? (c :: (front ++ rest)) = some l)
    (fits : l.size ≤ front.length + 1) :
    number? (c :: (front ++ rest')) = some l := by
  refine either_stays h (prefixed?_loose loose · fits) (prefixed?_loose_none loose) fun found => ?_
  dsimp only at found ⊢
  split at found
  · cases found
  rename_i some_digit
  cases found
  have short : runLength Char.isDigit (c :: front ++ rest) ≤ (c :: front).length :=
    Nat.le_trans (afterDigits_fits _ _).1 fits
  have same : runLength Char.isDigit (c :: (front ++ rest')) =
    runLength Char.isDigit (c :: (front ++ rest)) :=
    runLength_ends short (loose.refuses _ (by decide))
  rw [same, if_neg some_digit]
  rw [← List.cons_append, List.drop_append_of_le_length short] at fits ⊢
  rw [← List.cons_append, List.drop_append_of_le_length short, afterDigits_loose loose]
  rw [List.length_drop, List.length_cons]
  rw [List.length_cons] at short
  omega

theorem number?_loose_none (h : number? (c :: (front ++ rest)) = none) :
    number? (c :: (front ++ rest')) = none :=
  number?_of_not_digit (isDigit_of_number? h) _

/-- No symbol goes on into such a text. -/
theorem symbol_before_loose (loose : Loose rest') {entry : Symbol × List Char}
    (member : entry ∈ Symbol.table)
    (h : entry.2.isPrefixOf (c :: (front ++ rest'))) :
    entry.2.isPrefixOf (c :: (front ++ rest)) := by
  have texts : ∀ entry ∈ Symbol.table, entry.2.length ≤ 2 ∧
      entry.2.tail.all fun b => [' ', '\t', '\r', '\n', '/', ':', ')'].all fun d =>
        !(d == b) := by decide
  obtain ⟨short, others⟩ := texts entry member
  generalize entry.2 = text at short others h
  match front, text with
  | _, [] => rfl
  | _, [a] => simpa only [List.isPrefixOf, Bool.and_true] using h
  | d :: front, [a, b] => simpa only [List.cons_append, List.isPrefixOf, Bool.and_true] using h
  | [], [a, b] =>
    obtain ⟨tail, eq⟩ := List.isPrefixOf_iff_prefix.mp h
    have head : rest'.head? = some b := by
      cases eq
      rfl
    exact (loose.head_ne (List.all_eq_true.mp others b (List.mem_singleton_self b)) head).elim
  | _, _ :: _ :: _ :: _ => simp at short

theorem symbol?_loose (loose : Loose rest') (h : symbol? (c :: (front ++ rest)) = some l)
    (fits : l.size ≤ front.length + 1) :
    symbol? (c :: (front ++ rest')) = some l := by
  obtain ⟨entry, found, rfl⟩ := Option.map_eq_some_iff.mp h
  refine Option.map_eq_some_iff.mpr ⟨entry, ?_, rfl⟩
  obtain ⟨starts, before, after, split, missing⟩ := List.find?_eq_some_iff_append.mp found
  refine List.find?_eq_some_iff_append.mpr ⟨?_, before, after, split, fun other inside => ?_⟩
  · have whole : entry.2 <+: (c :: front) ++ rest := List.isPrefixOf_iff_prefix.mp starts
    have inside : entry.2 <+: c :: front :=
      List.prefix_of_prefix_length_le whole (List.prefix_append _ _) fits
    exact List.isPrefixOf_iff_prefix.mpr (inside.trans (List.prefix_append (c :: front) rest'))
  · have member : other ∈ Symbol.table := split ▸ List.mem_append_left _ inside
    refine Bool.not_eq_true' _ ▸ Bool.eq_false_iff.mpr fun starts' => ?_
    have no_start := missing other inside
    rw [symbol_before_loose loose member starts'] at no_start
    cases no_start

theorem symbol?_loose_none (loose : Loose rest') (h : symbol? (c :: (front ++ rest)) = none) :
    symbol? (c :: (front ++ rest')) = none := by
  have missing := List.find?_eq_none.mp (Option.map_eq_none_iff.mp h)
  exact Option.map_eq_none_iff.mpr (List.find?_eq_none.mpr fun entry member starts =>
    missing entry member (symbol_before_loose loose member starts))

theorem sigil?_loose (loose : Loose rest') (h : sigil? (c :: (front ++ rest)) = some l)
    (fits : l.size ≤ front.length + 1) :
    sigil? (c :: (front ++ rest')) = some l := by
  obtain ⟨s, sigil, rfl⟩ := Option.map_eq_some_iff.mp h
  have short : runLength isWordPart (front ++ rest) ≤ front.length := Nat.le_of_succ_le_succ fits
  rw [sigil?, sigil, Option.map_some, runLength_ends short (loose.refuses _ (by decide))]

theorem sigil?_eq_none {cs : List Char} : sigil? (c :: cs) = none ↔ Sigil.ofChar? c = none :=
  Option.map_eq_none_iff

/-- The character that closes a literal, if it is in the front. -/
theorem split_of_drop_head {n : Nat} {d : Char} (inside : n < front.length)
    (head : ((front ++ rest).drop n).head? = some d) :
    ∃ inner tail, front = inner ++ d :: tail ∧ inner.length = n := by
  refine ⟨front.take n, front.drop (n + 1), ?_, List.length_take_of_le (Nat.le_of_lt inside)⟩
  rw [List.drop_append_of_le_length (Nat.le_of_lt inside), List.drop_eq_getElem_cons inside] at head
  have last : front[n] = d := Option.some.inj head
  rw [← last, ← List.drop_eq_getElem_cons inside, List.take_append_drop]

theorem string?_loose (h : string? (c :: (front ++ rest)) = some l) (whole : l.kind.isWhole)
    (fits : l.size ≤ front.length + 1) :
    string? (c :: (front ++ rest')) = some l := by
  by_cases quote : c = '"'
  · subst quote
    simp only [string?_quote] at h ⊢
    split at h
    · rename_i closed
      cases h
      generalize body : escapedRunLength (fun c => c != '"' && c != '\n') (front ++ rest) =
        n at closed fits
      obtain ⟨inner, tail, rfl, rfl⟩ := split_of_drop_head (Nat.le_of_succ_le_succ fits) closed
      rw [List.append_assoc, List.cons_append] at body
      have same := escapedRunLength_ends rfl (by decide) body (tail ++ rest')
      rw [List.append_assoc, List.cons_append, same, List.drop_left, List.head?_cons, if_pos rfl]
    · cases h
      cases whole
  · rw [string?_other _ quote] at h
    cases h

theorem string?_eq_none {cs : List Char} : string? (c :: cs) = none ↔ c ≠ '"' := by
  refine ⟨fun none quote => ?_, string?_other cs⟩
  subst quote
  simp only [string?_quote] at none
  split at none <;> cases none

/-- A regular expression with its delimiters and flags. -/
theorem regexp?_loose (loose : Loose rest') (h : regexp? (front ++ rest) = some l)
    (whole : l.kind.isWhole)
    (fits : l.size ≤ front.length + 1) : regexp? (front ++ rest') = some l ∧ front ≠ [] := by
  rw [regexp?_eq] at h ⊢
  dsimp only at h ⊢
  generalize body : escapedRunLength (fun c => c != '/' && c != '\n') (front ++ rest) = n at h
  by_cases none : n = 0
  · rw [if_pos none] at h
    cases h
  by_cases closed : ((front ++ rest).drop n).head? = some '/'
  · rw [if_neg none, if_pos closed] at h
    have size : n + 2 + min 2 (runLength isAsciiLetter ((front ++ rest).drop (n + 1))) ≤
        front.length + 1 := by
      cases h
      exact fits
    obtain ⟨inner, tail, rfl, rfl⟩ := split_of_drop_head (by omega) closed
    have flags :
        ∀ more, (inner ++ '/' :: (tail ++ more)).drop (inner.length + 1) = tail ++ more := by
      intro more
      rw [← List.drop_drop, List.drop_left]
      rfl
    simp only [List.append_assoc, List.cons_append, List.length_append, List.length_cons]
      at body h size ⊢
    rw [flags] at h size
    have same := escapedRunLength_ends rfl (show '/' ≠ '\\' by decide) body (tail ++ rest')
    have short : min 2 (runLength isAsciiLetter (tail ++ rest)) ≤ tail.length := by omega
    rw [same, if_neg none, List.drop_left, List.head?_cons, if_pos rfl, flags,
      min_runLength_ends short (loose.refuses _ (by decide))]
    exact ⟨h, List.append_ne_nil_of_right_ne_nil _ (List.cons_ne_nil _ _)⟩
  · rw [if_neg none, if_neg closed] at h
    cases h
    cases whole

theorem slash?_loose (loose : Loose rest') (h : slash? (c :: (front ++ rest)) = some l)
    (whole : l.kind.isWhole) (fits : l.size ≤ front.length + 1) :
    slash? (c :: (front ++ rest')) = some l ∧ ∃ d tail, front = d :: tail ∧ d ≠ '/' ∧ d ≠ '*' := by
  by_cases slash : c = '/'
  · subst slash
    rw [slash?_eq] at h
    by_cases line : (front ++ rest).head? = some '/'
    · rw [if_pos line] at h
      cases h
      cases whole
    by_cases block : (front ++ rest).head? = some '*'
    · rw [if_neg line, if_pos block] at h
      split at h <;> cases h <;> cases whole
    rw [if_neg line, if_neg block] at h
    obtain ⟨same, some_front⟩ := regexp?_loose loose h whole fits
    obtain ⟨d, tail, rfl⟩ := List.exists_cons_of_ne_nil some_front
    rw [List.cons_append, List.head?_cons] at line block
    rw [slash?_eq, same, List.cons_append, List.head?_cons, if_neg line, if_neg block]
    exact ⟨rfl, d, tail, rfl, fun same => line (congrArg some same),
      fun same => block (congrArg some same)⟩
  · rw [slash?_other _ slash] at h
    cases h

/-- A token of normal mode. -/
theorem normal_loose (loose : Loose rest') (whole : (normal (c :: (front ++ rest))).kind.isWhole)
    (fits : (normal (c :: (front ++ rest))).size ≤ front.length + 1) :
    normal (c :: (front ++ rest')) = normal (c :: (front ++ rest)) := by
  have read := (normal_or (c :: (front ++ rest))).symm
  refine Option.some.inj ?_
  rw [normal_or]
  generalize normal (c :: (front ++ rest)) = l at whole fits read ⊢
  have word_none : word? (c :: (front ++ rest)) = none → word? (c :: (front ++ rest')) = none :=
    fun none => word?_eq_none.mpr (word?_eq_none.mp none)
  have sigil_none : sigil? (c :: (front ++ rest)) = none → sigil? (c :: (front ++ rest')) = none :=
    fun none => sigil?_eq_none.mpr (sigil?_eq_none.mp none)
  have string_none : string? (c :: (front ++ rest)) = none →
    string? (c :: (front ++ rest')) = none :=
    fun none => string?_eq_none.mpr (string?_eq_none.mp none)
  refine either_stays read (word?_loose loose · fits) word_none fun read => ?_
  refine either_stays read (number?_loose loose · fits) number?_loose_none fun read => ?_
  refine either_stays read (symbol?_loose loose · fits) (symbol?_loose_none loose) fun read => ?_
  refine either_stays read (sigil?_loose loose · fits) sigil_none fun read => ?_
  refine either_stays read (string?_loose · whole fits) string_none fun read => ?_
  rcases Option.or_eq_some_iff.mp read with slash | ⟨_, other⟩
  · rw [(slash?_loose loose slash whole fits).1, Option.some_or]
  exfalso
  rcases Option.or_eq_some_iff.mp other with newline | ⟨_, other⟩
  · rw [newline?_kind newline] at whole
    cases whole
  rcases Option.or_eq_some_iff.mp other with blank | ⟨_, unknown⟩
  · rw [blank?_kind blank] at whole
    cases whole
  · cases unknown
    cases whole

theorem newline?_eq_none {cs : List Char} : newline? (c :: cs) = none ↔ c ≠ '\r' ∧ c ≠ '\n' := by
  by_cases carriage : c = '\r'
  · subst carriage
    refine ⟨fun none => ?_, fun both => (both.1 rfl).elim⟩
    unfold newline? at none
    split at none
    · cases none
    · cases none
    · cases none
    · rename_i no_return _
      exact (no_return cs rfl).elim
  · by_cases feed : c = '\n'
    · subst feed
      exact ⟨nofun, fun both => (both.2 rfl).elim⟩
    · exact ⟨fun _ => ⟨carriage, feed⟩, fun _ => by simp [newline?, carriage, feed]⟩

theorem blank?_eq_none {cs : List Char} :
    blank? (c :: cs) = none ↔ (c == ' ' || c == '\t') = false := by
  have empty : runLength (fun c => c == ' ' || c == '\t') (c :: cs) = 0 ↔
      (c == ' ' || c == '\t') = false := runLength_eq_zero
  rw [← empty]
  unfold blank?
  dsimp only
  split
  · rename_i none
    exact ⟨fun _ => beq_iff_eq.mp none, fun _ => rfl⟩
  · rename_i some_blank
    exact ⟨nofun, fun none => (some_blank (beq_iff_eq.mpr none)).elim⟩

theorem normal_slash (cs : List Char) :
    normal ('/' :: cs) = (slash? ('/' :: cs)).getD (unknown ('/' :: cs)) := by
  have white : (newline? ('/' :: cs)).or (blank? ('/' :: cs)) = none := by
    rw [newline?_eq_none.mpr (by decide), blank?_eq_none.mpr (by decide)]
    rfl
  rw [normal, word?_eq_none.mpr rfl, number?_of_not_digit rfl,
    show symbol? ('/' :: cs) = none from rfl,
    sigil?_eq_none.mpr rfl, string?_eq_none.mpr (by decide), white, Option.or_none]
  rfl

/-- What starts with a slash and means something is a regular expression. -/
theorem slash?_of_normal {cs : List Char} (whole : (normal ('/' :: cs)).kind.isWhole) :
    slash? ('/' :: cs) = some (normal ('/' :: cs)) := by
  rw [normal_slash] at whole ⊢
  cases slash : slash? ('/' :: cs) with
  | some l => rfl
  | none =>
    rw [slash] at whole
    cases whole

/-! ### Tokens of a hex pattern and of a jump -/

theorem hexByte?_loose (h : hexByte? (c :: (front ++ rest)) = some l)
    (fits : l.size ≤ front.length + 1) :
    hexByte? (c :: (front ++ rest')) = some l := by
  by_cases tilde : c = '~'
  · subst tilde
    rw [hexByte?_tilde] at h ⊢
    split at h
    · cases h
      match front with
      | [] | [_] => simp at fits
      | d :: e :: front => exact if_pos ‹_›
    · cases h
  · rw [hexByte?_plain _ tilde] at h ⊢
    split at h
    · cases h
      match front with
      | [] => simp at fits
      | d :: front => exact if_pos ‹_›
    · cases h

theorem hexByte?_loose_none (loose : Loose rest') (h : hexByte? (c :: (front ++ rest)) = none) :
    hexByte? (c :: (front ++ rest')) = none := by
  have refused := loose.refuses isHexByteChar (by decide)
  by_cases tilde : c = '~'
  · subst tilde
    rw [hexByte?_tilde] at h ⊢
    match front with
    | [] => simp [refused]
    | [d] => simp [refused]
    | d :: e :: front => exact h
  · rw [hexByte?_plain _ tilde] at h ⊢
    match front with
    | [] => simp [refused]
    | d :: front => exact h

theorem hexSymbol?_loose : hexSymbol? (c :: (front ++ rest')) = hexSymbol? (c :: (front ++ rest)) :=
  @hexSymbol?_local (c :: front) rest rest' (List.cons_ne_nil _ _)

theorem hexComment?_kind {cs : List Char} (h : hexComment? cs = some l) : l.kind = .comment := by
  unfold hexComment? at h
  split at h
  · cases h
    rfl
  · obtain ⟨_, _, rfl⟩ := Option.map_eq_some_iff.mp h
    rfl
  · cases h

theorem hex?_loose (loose : Loose rest') (h : hex? (c :: (front ++ rest)) = some l)
    (whole : l.kind.isWhole)
    (fits : l.size ≤ front.length + 1) : hex? (c :: (front ++ rest')) = some l := by
  refine either_stays h (hexByte?_loose · fits) (hexByte?_loose_none loose) fun read => ?_
  refine either_stays read (hexSymbol?_loose ▸ ·) (hexSymbol?_loose ▸ ·) fun read => ?_
  exfalso
  rcases Option.or_eq_some_iff.mp read with comment | ⟨_, other⟩
  · rw [hexComment?_kind comment] at whole
    cases whole
  rcases Option.or_eq_some_iff.mp other with newline | ⟨_, blank⟩
  · rw [newline?_kind newline] at whole
    cases whole
  · rw [blank?_kind blank] at whole
    cases whole

/-- What a hex pattern has no place for. It starts no comment. -/
theorem hex?_loose_none (loose : Loose rest')
    (plain : c = '/' → ∃ d tail, front = d :: tail ∧ d ≠ '/' ∧ d ≠ '*')
    (h : hex? (c :: (front ++ rest)) = none) : hex? (c :: (front ++ rest')) = none := by
  obtain ⟨byte, h⟩ := Option.or_eq_none_iff.mp h
  obtain ⟨symbol, h⟩ := Option.or_eq_none_iff.mp h
  obtain ⟨_, h⟩ := Option.or_eq_none_iff.mp h
  obtain ⟨newline, blank⟩ := Option.or_eq_none_iff.mp h
  have comment : hexComment? (c :: (front ++ rest')) = none := by
    by_cases slash : c = '/'
    · obtain ⟨d, tail, rfl, line, block⟩ := plain slash
      simp [hexComment?, line, block]
    · simp [hexComment?, slash]
  rw [hex?, hexByte?_loose_none loose byte, hexSymbol?_loose.trans symbol, comment,
    newline?_eq_none.mpr (newline?_eq_none.mp newline),
      blank?_eq_none.mpr (blank?_eq_none.mp blank)]
  rfl

theorem jumpHyphen?_loose :
    jumpHyphen? (c :: (front ++ rest')) = jumpHyphen? (c :: (front ++ rest)) := by
  by_cases hyphen : c = '-'
  · subst hyphen
    rfl
  · simp [jumpHyphen?, hyphen]

theorem jumpInteger?_loose (loose : Loose rest') (h : jumpInteger? (c :: (front ++ rest)) = some l)
    (fits : l.size ≤ front.length + 1) : jumpInteger? (c :: (front ++ rest')) = some l := by
  refine either_stays h (prefixed?_loose loose · fits) (prefixed?_loose_none loose) fun read => ?_
  dsimp only at read ⊢
  split at read
  · cases read
  cases read
  have same : runLength Char.isDigit (c :: (front ++ rest')) =
    runLength Char.isDigit (c :: (front ++ rest)) :=
    @runLength_ends Char.isDigit (c :: front) rest rest' fits (loose.refuses _ (by decide))
  rw [same, if_neg ‹_›]

theorem jumpInteger?_loose_none (loose : Loose rest')
    (h : jumpInteger? (c :: (front ++ rest)) = none) :
    jumpInteger? (c :: (front ++ rest')) = none := by
  obtain ⟨based, digits⟩ := Option.or_eq_none_iff.mp h
  have other : c.isDigit = false := by
    dsimp only at digits
    split at digits
    · exact runLength_eq_zero.mp (beq_iff_eq.mp ‹_›)
    · cases digits
  have none : runLength Char.isDigit (c :: (front ++ rest')) = 0 := runLength_eq_zero.mpr other
  rw [jumpInteger?, prefixed?_loose_none loose based, none]
  rfl

theorem jump?_loose (loose : Loose rest') (h : jump? (c :: (front ++ rest)) = some l)
    (whole : l.kind.isWhole)
    (fits : l.size ≤ front.length + 1) : jump? (c :: (front ++ rest')) = some l := by
  refine either_stays h (jumpHyphen?_loose ▸ ·) (jumpHyphen?_loose ▸ ·) fun read => ?_
  refine either_stays read (jumpInteger?_loose loose · fits) (jumpInteger?_loose_none loose)
    fun read => ?_
  exfalso
  rcases Option.or_eq_some_iff.mp read with newline | ⟨_, blank⟩
  · rw [newline?_kind newline] at whole
    cases whole
  · rw [blank?_kind blank] at whole
    cases whole

theorem jump?_loose_none (loose : Loose rest') (h : jump? (c :: (front ++ rest)) = none) :
    jump? (c :: (front ++ rest')) = none := by
  obtain ⟨hyphen, h⟩ := Option.or_eq_none_iff.mp h
  obtain ⟨integer, h⟩ := Option.or_eq_none_iff.mp h
  obtain ⟨newline, blank⟩ := Option.or_eq_none_iff.mp h
  rw [jump?, jumpHyphen?_loose.trans hyphen, jumpInteger?_loose_none loose integer,
    newline?_eq_none.mpr (newline?_eq_none.mp newline),
      blank?_eq_none.mpr (blank?_eq_none.mp blank)]
  rfl

end Lexeme

/-- A whole token within a text is read the same if the text ends loosely. -/
theorem Mode.read_loose (mode : Mode) {front rest rest' : List Char} (loose : Loose rest')
    (whole : (mode.read (front ++ rest)).2.kind.isWhole) (nonempty : front ≠ [])
    (fits : (mode.read (front ++ rest)).2.size ≤ front.length) :
    mode.read (front ++ rest') = mode.read (front ++ rest) := by
  obtain ⟨c, front, rfl⟩ := List.exists_cons_of_ne_nil nonempty
  rw [List.cons_append] at whole fits
  rw [List.cons_append, List.cons_append]
  have normal : (Lexeme.normal (c :: (front ++ rest))).kind.isWhole →
      (Lexeme.normal (c :: (front ++ rest))).size ≤ front.length + 1 →
      Lexeme.normal (c :: (front ++ rest')) = Lexeme.normal (c :: (front ++ rest)) :=
        Lexeme.normal_loose loose
  have no_comment : (Lexeme.normal (c :: (front ++ rest))).kind.isWhole →
      (Lexeme.normal (c :: (front ++ rest))).size ≤ front.length + 1 →
      c = '/' → ∃ d tail, front = d :: tail ∧ d ≠ '/' ∧ d ≠ '*' := by
    rintro whole fits rfl
    exact (Lexeme.slash?_loose loose (Lexeme.slash?_of_normal whole) whole fits).2
  cases mode with
  | normal => exact congrArg (Prod.mk Mode.normal) (normal whole fits)
  | hex =>
    simp only [read] at whole fits ⊢
    cases found : Lexeme.hex? (c :: (front ++ rest)) with
    | some l =>
      rw [found] at whole fits
      rw [Lexeme.hex?_loose loose found whole fits]
    | none =>
      rw [found] at whole fits
      rw [Lexeme.hex?_loose_none loose (no_comment whole fits) found]
      exact congrArg (Prod.mk Mode.normal) (normal whole fits)
  | jump =>
    simp only [read] at whole fits ⊢
    cases found : Lexeme.jump? (c :: (front ++ rest)) with
    | some l =>
      rw [found] at whole fits
      rw [Lexeme.jump?_loose loose found whole fits]
    | none =>
      rw [found] at whole fits
      rw [Lexeme.jump?_loose_none loose found]
      dsimp only at whole fits ⊢
      cases found : Lexeme.hex? (c :: (front ++ rest)) with
      | some l =>
        rw [found] at whole fits
        rw [Lexeme.hex?_loose loose found whole fits]
      | none =>
        rw [found] at whole fits
        rw [Lexeme.hex?_loose_none loose (no_comment whole fits) found]
        exact congrArg (Prod.mk Mode.normal) (normal whole fits)

end RuleDesk
