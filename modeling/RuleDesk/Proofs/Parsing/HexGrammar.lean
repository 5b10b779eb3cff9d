import RuleDesk.Proofs.Lexing.HexText

namespace RuleDesk

/-! ## The grammar of hex patterns

The grammar speaks of nested alternatives, a parser of the parentheses that are open. The
two agree on what may still follow. -/

/-- What hex patterns are written with. -/
def isHexText (c : Char) : Bool := isHexDigit c || isWhite c || patternSigns.contains c

/-- An optional decimal number, with white space around it. -/
inductive JumpBound : List Char → Prop
  | intro {ws digits ws' : List Char} (before : ws.all isWhite) (number : digits.all Char.isDigit)
    (behind : ws'.all isWhite) :
    JumpBound (ws ++ (digits ++ ws'))

/-- What is between the brackets of a jump. -/
inductive HexJump : List Char → Prop
  | single {cs : List Char} (bound : JumpBound cs) : HexJump cs
  | range {low high : List Char} (lower : JumpBound low) (upper : JumpBound high) :
      HexJump (low ++ '-' :: high)

/-- White space, bytes and jumps. -/
inductive HexItem : List Char → Prop
  | white {c : Char} (white : isWhite c) : HexItem [c]
  | byte {a b : Char} (first : Lexeme.isHexByteChar a) (second : Lexeme.isHexByteChar b) :
      HexItem [a, b]
  | negated {a b : Char} (first : Lexeme.isHexByteChar a) (second : Lexeme.isHexByteChar b) :
      HexItem ['~', a, b]
  | jump {cs : List Char} (jump : HexJump cs) : HexItem ('[' :: (cs ++ [']']))

/-- A sequence of items and of alternatives in parentheses, each of them a sequence again. -/
inductive HexSequence : List Char → Prop
  | nothing : HexSequence []
  | item {cs rest : List Char} (item : HexItem cs) (more : HexSequence rest) :
      HexSequence (cs ++ rest)
  | alternatives {choices : List (List Char)} {rest : List Char}
    (each : ∀ choice ∈ choices, HexSequence choice) (more : HexSequence rest) :
    HexSequence ('(' :: (['|'].intercalate choices ++ ')' :: rest))

/-- What may follow inside of some parentheses. -/
inductive HexRest : Nat → List Char → Prop
  | done : HexRest 0 []
  | item {n : Nat} {cs rest : List Char} (item : HexItem cs) (more : HexRest n rest) :
      HexRest n (cs ++ rest)
  | opens {n : Nat} {rest : List Char} (more : HexRest (n + 1) rest) : HexRest n ('(' :: rest)
  | bar {n : Nat} {rest : List Char} (more : HexRest (n + 1) rest) : HexRest (n + 1) ('|' :: rest)
  | closes {n : Nat} {rest : List Char} (more : HexRest n rest) : HexRest (n + 1) (')' :: rest)

/-! ### Sequences and what may follow -/

theorem HexSequence.append {cs ds : List Char} (h : HexSequence cs) (h' : HexSequence ds) :
    HexSequence (cs ++ ds) := by
  induction h with
  | nothing => exact h'
  | item item _ ih =>
    rw [List.append_assoc]
    exact .item item ih
  | alternatives each _ _ ih =>
    rw [List.cons_append, List.append_assoc]
    exact .alternatives each ih

theorem intercalate_append (cs ds : List Char) (choices : List (List Char)) :
    ['|'].intercalate ((cs ++ ds) :: choices) = cs ++ ['|'].intercalate (ds :: choices) := by
  cases choices <;> simp [List.intercalate]

theorem intercalate_bar (cs : List Char) (choices : List (List Char)) :
    ['|'].intercalate ([] :: cs :: choices) = '|' :: ['|'].intercalate (cs :: choices) := rfl

/-- What closes some parentheses: the rest of the alternatives of each of them and what
stands behind it. -/
inductive Closing : Nat → List Char → Prop
  | outside {cs : List Char} (h : HexSequence cs) : Closing 0 cs
  | inside {n : Nat} {cs rest : List Char} {choices : List (List Char)} (first : HexSequence cs)
    (each : ∀ choice ∈ choices, HexSequence choice)
    (more : Closing n rest) : Closing (n + 1) (['|'].intercalate (cs :: choices) ++ ')' :: rest)

theorem Closing.append {n : Nat} {cs ds : List Char} (h : HexSequence cs) (closing : Closing n ds) :
    Closing n (cs ++ ds) := by
  cases closing with
  | outside h' => exact .outside (h.append h')
  | inside first each more =>
    rw [← List.append_assoc, ← intercalate_append]
    exact .inside (h.append first) each more

theorem HexRest.closing {n : Nat} {cs : List Char} (h : HexRest n cs) : Closing n cs := by
  induction h with
  | done => exact .outside .nothing
  | @item n cs rest item _ ih =>
    have single : HexSequence (cs ++ []) := .item item .nothing
    exact ih.append (List.append_nil cs ▸ single)
  | opens _ ih =>
    cases ih with
    | @inside _ cs rest choices first each closing =>
      have group : HexSequence ('(' :: (['|'].intercalate (cs :: choices) ++ [')'])) :=
        .alternatives (List.forall_mem_cons.mpr ⟨first, each⟩) .nothing
      have whole := closing.append group
      rwa [List.cons_append, List.append_assoc] at whole
  | bar _ ih =>
    cases ih with
    | inside first each closing =>
      rw [← List.cons_append, ← intercalate_bar]
      exact .inside .nothing (List.forall_mem_cons.mpr ⟨first, each⟩) closing
  | @closes n rest _ ih =>
    have last : Closing (n + 1) (['|'].intercalate [[]] ++ ')' :: rest) :=
      .inside .nothing (List.forall_mem_nil _) ih
    exact last

/-- A sequence may stand before whatever may follow. -/
theorem HexSequence.before {cs : List Char} (h : HexSequence cs) {n : Nat} {more : List Char}
    (follow : HexRest n more) :
    HexRest n (cs ++ more) := by
  induction h generalizing n more with
  | nothing => exact follow
  | item item _ ih =>
    rw [List.append_assoc]
    exact .item item (ih follow)
  | @alternatives choices rest texts _ each ih =>
    rw [List.cons_append, List.append_assoc, List.cons_append]
    have closed : HexRest (n + 1) (')' :: (rest ++ more)) := .closes (ih follow)
    generalize ')' :: (rest ++ more) = tail at closed
    refine .opens ?_
    clear texts ih follow
    induction choices with
    | nil => exact closed
    | cons choice choices ih =>
      obtain ⟨first, others⟩ := List.forall_mem_cons.mp each
      cases choices with
      | nil => simpa [List.intercalate] using first closed
      | cons next choices =>
        rw [← List.append_nil choice, intercalate_append, intercalate_bar, List.append_assoc]
        exact first (.bar (ih others))

/-- A sequence is what may follow outside of all parentheses. -/
theorem hexSequence_iff {cs : List Char} : HexSequence cs ↔ HexRest 0 cs := by
  constructor
  · intro h
    exact List.append_nil cs ▸ h.before .done
  · intro h
    cases h.closing with
    | outside h => exact h

/-! ### The bounds of a jump -/

/-- The text behind an optional number. -/
def passNumber (cs : List Char) : List Char :=
  ((cs.dropWhile isWhite).dropWhile Char.isDigit).dropWhile isWhite

/-- The text behind an optional hyphen with the number that may follow it. -/
def passUpper : List Char → List Char
  | '-' :: cs => passNumber cs
  | cs => cs

theorem head_dropWhile (p : Char → Bool) (cs : List Char) :
    (cs.dropWhile p).head?.any p = false := by
  have first := List.head?_dropWhile_not p cs
  cases head : (cs.dropWhile p).head? with
  | none => rfl
  | some c =>
    rw [head] at first
    exact first

theorem dropWhile_stays {p : Char → Bool} {cs : List Char} (ends : cs.head?.any p = false) :
    cs.dropWhile p = cs := by
  cases cs with
  | nil => rfl
  | cons c cs => rw [List.dropWhile_cons, show p c = false from ends, if_neg Bool.false_ne_true]

theorem passNumber_bound {bound : List Char} (h : JumpBound bound) {c : Char}
    (solid : isWhite c = false) (other : c.isDigit = false)
    (rest : List Char) : passNumber (bound ++ c :: rest) = c :: rest := by
  cases h with
  | @intro ws digits ws' before number behind =>
    have stays {p : Char → Bool} (refused : p c = false) : (c :: rest).dropWhile p = c :: rest :=
      dropWhile_stays refused
    rw [passNumber, List.append_assoc, List.append_assoc,
      List.dropWhile_append_of_pos (List.all_eq_true.mp before)]
    cases digits with
    | nil =>
      rw [List.nil_append, List.dropWhile_append_of_pos (List.all_eq_true.mp behind), stays solid,
        stays other, stays solid]
    | cons d digits =>
      have digit : d.isDigit := List.all_eq_true.mp number d List.mem_cons_self
      have no_white : isWhite d = false := Bool.eq_false_iff.mpr fun white => by
        rcases isWhite_cases white with rfl | rfl | rfl | rfl <;> cases digit
      have first : (d :: digits ++ (ws' ++ c :: rest)).dropWhile isWhite = _ :=
        dropWhile_stays no_white
      rw [first, List.dropWhile_append_of_pos (List.all_eq_true.mp number)]
      cases ws' with
      | nil => rw [List.nil_append, stays other, stays solid]
      | cons w ws' =>
        have white : isWhite w := List.all_eq_true.mp behind w List.mem_cons_self
        have no_digit : w.isDigit = false := Bool.eq_false_iff.mpr fun digit => by
          rcases isWhite_cases white with rfl | rfl | rfl | rfl <;> cases digit
        have second : (w :: ws' ++ c :: rest).dropWhile Char.isDigit = _ := dropWhile_stays no_digit
        rw [second, List.dropWhile_append_of_pos (List.all_eq_true.mp behind), stays solid]

theorem exists_bound (cs : List Char) : ∃ bound, JumpBound bound ∧ cs = bound ++ passNumber cs := by
  have all (p : Char → Bool) (cs : List Char) : (cs.takeWhile p).all p := List.all_takeWhile
  refine ⟨_, .intro (all isWhite cs) (all Char.isDigit (cs.dropWhile isWhite))
    (all isWhite ((cs.dropWhile isWhite).dropWhile Char.isDigit)), ?_⟩
  rw [List.append_assoc, List.append_assoc, passNumber, List.takeWhile_append_dropWhile,
    List.takeWhile_append_dropWhile, List.takeWhile_append_dropWhile]

/-- Where the bounds of a jump end is found by passing them. -/
theorem passUpper_iff {cs rest : List Char} : passUpper (passNumber cs) = ']' :: rest ↔
    ∃ inner, HexJump inner ∧ cs = inner ++ ']' :: rest := by
  constructor
  · intro closed
    obtain ⟨low, lower, split⟩ := exists_bound cs
    generalize passNumber cs = behind at closed split
    unfold passUpper at closed
    split at closed
    · rename_i more
      obtain ⟨high, upper, split'⟩ := exists_bound more
      refine ⟨_, .range lower upper, ?_⟩
      rw [split, split', closed, List.append_assoc]
      rfl
    · exact ⟨low, .single lower, closed ▸ split⟩
  · rintro ⟨inner, jump, rfl⟩
    cases jump with
    | single bound =>
      rw [passNumber_bound bound rfl rfl]
      rfl
    | range lower upper =>
      rw [List.append_assoc, List.cons_append, passNumber_bound lower rfl rfl]
      exact passNumber_bound upper rfl rfl rest

/-! ### The first character -/

/-- What may follow, by its first character. -/
inductive HexFront (n : Nat) : Char → List Char → Prop
  | white {c : Char} {rest : List Char} (white : isWhite c) (more : HexRest n rest) :
      HexFront n c rest
  | byte {a b : Char} {rest : List Char} (first : Lexeme.isHexByteChar a)
    (second : Lexeme.isHexByteChar b) (more : HexRest n rest) :
    HexFront n a (b :: rest)
  | negated {a b : Char} {rest : List Char} (first : Lexeme.isHexByteChar a)
    (second : Lexeme.isHexByteChar b) (more : HexRest n rest) :
    HexFront n '~' (a :: b :: rest)
  | jump {inner rest : List Char} (jump : HexJump inner) (more : HexRest n rest) :
      HexFront n '[' (inner ++ ']' :: rest)
  | opens {rest : List Char} (more : HexRest (n + 1) rest) : HexFront n '(' rest
  | bar {rest : List Char} (inside : 0 < n) (more : HexRest n rest) : HexFront n '|' rest
  | closes {rest : List Char} (inside : 0 < n) (more : HexRest (n - 1) rest) : HexFront n ')' rest

theorem HexRest.front {n : Nat} {c : Char} {cs : List Char} (h : HexRest n (c :: cs)) :
    HexFront n c cs := by
  generalize same : c :: cs = text at h
  cases h with
  | done => cases same
  | item item more =>
    cases item with
    | white white =>
      cases same
      exact .white white more
    | byte first second =>
      cases same
      exact .byte first second more
    | negated first second =>
      cases same
      exact .negated first second more
    | jump jump =>
      rw [List.cons_append, List.append_assoc] at same
      cases same
      exact .jump jump more
  | opens more =>
    cases same
    exact .opens more
  | bar more =>
    cases same
    exact .bar (Nat.succ_pos _) more
  | closes more =>
    cases same
    exact .closes (Nat.succ_pos _) more

/-- An item is always the first one. -/
theorem hexRest_item {n : Nat} {cs rest : List Char} (item : HexItem cs) :
    HexRest n (cs ++ rest) ↔ HexRest n rest := by
  refine ⟨fun h => ?_, .item item⟩
  have no_byte {c : Char} (white : isWhite c) (byte : Lexeme.isHexByteChar c) : False := by
    rcases isWhite_cases white with rfl | rfl | rfl | rfl <;> cases byte
  cases item with
  | white white =>
    cases h.front with
    | white _ more => exact more
    | byte first => exact (no_byte white first).elim
    | _ => cases white
  | @byte a b first second =>
    have front : HexFront n a (b :: rest) := h.front
    generalize same : b :: rest = text at front
    cases front with
    | white white => exact (no_byte white first).elim
    | byte _ _ more =>
      cases same
      exact more
    | _ => cases first
  | @negated a b first second =>
    have front : HexFront n '~' (a :: b :: rest) := h.front
    generalize same : a :: b :: rest = text at front
    cases front with
    | white white => cases white
    | byte first => cases first
    | negated _ _ more =>
      cases same
      exact more
  | @jump cs jump =>
    rw [List.cons_append, List.append_assoc] at h
    have front : HexFront n '[' (cs ++ ']' :: rest) := h.front
    have here : passUpper (passNumber (cs ++ ']' :: rest)) = ']' :: rest :=
      passUpper_iff.mpr ⟨cs, jump, rfl⟩
    generalize cs ++ ']' :: rest = text at front here
    cases front with
    | white white => cases white
    | byte first => cases first
    | jump jump' more =>
      rw [passUpper_iff.mpr ⟨_, jump', rfl⟩] at here
      cases here
      exact more

theorem hexRest_jump {n : Nat} {cs : List Char} :
    HexRest n ('[' :: cs) ↔ ∃ rest, passUpper (passNumber cs) = ']' :: rest ∧ HexRest n rest := by
  constructor
  · intro h
    cases h.front with
    | white white => cases white
    | byte first => cases first
    | jump jump more => exact ⟨_, passUpper_iff.mpr ⟨_, jump, rfl⟩, more⟩
  · rintro ⟨rest, closed, more⟩
    obtain ⟨inner, jump, rfl⟩ := passUpper_iff.mp closed
    have whole := HexRest.item (.jump jump) more
    rwa [List.cons_append, List.append_assoc] at whole

theorem hexRest_opens {n : Nat} {cs : List Char} : HexRest n ('(' :: cs) ↔ HexRest (n + 1) cs := by
  refine ⟨fun h => ?_, .opens⟩
  cases h.front with
  | white white => cases white
  | byte first => cases first
  | opens more => exact more

theorem hexRest_bar {n : Nat} {cs : List Char} : HexRest n ('|' :: cs) ↔ 0 < n ∧ HexRest n cs := by
  constructor
  · intro h
    cases h.front with
    | white white => cases white
    | byte first => cases first
    | bar inside more => exact ⟨inside, more⟩
  · rintro ⟨inside, more⟩
    obtain ⟨m, rfl⟩ := Nat.exists_eq_add_one.mpr inside
    exact .bar more

theorem hexRest_closes {n : Nat} {cs : List Char} :
    HexRest n (')' :: cs) ↔ 0 < n ∧ HexRest (n - 1) cs := by
  constructor
  · intro h
    cases h.front with
    | white white => cases white
    | byte first => cases first
    | closes inside more => exact ⟨inside, more⟩
  · rintro ⟨inside, more⟩
    obtain ⟨m, rfl⟩ := Nat.exists_eq_add_one.mpr inside
    exact .closes more

/-! ### Parentheses -/

theorem JumpBound.count {cs : List Char} (h : JumpBound cs) {d : Char} (solid : isWhite d = false)
    (other : d.isDigit = false) :
    cs.count d = 0 := by
  cases h with
  | intro before number behind =>
    rw [List.count_append, List.count_append, count_of_all before solid, count_of_all number other,
      count_of_all behind solid]

theorem HexJump.count {cs : List Char} (h : HexJump cs) {d : Char} (solid : isWhite d = false)
    (other : d.isDigit = false) (hyphen : d ≠ '-') : cs.count d = 0 := by
  cases h with
  | single bound => exact bound.count solid other
  | range lower upper =>
    rw [List.count_append, List.count_cons_of_ne hyphen.symm, lower.count solid other,
      upper.count solid other]

theorem HexItem.count {cs : List Char} (h : HexItem cs) {d : Char} (paren : d = '(' ∨ d = ')') :
    cs.count d = 0 := by
  have part {c : Char} (byte : Lexeme.isHexByteChar c) : c ≠ d := by
    rintro rfl
    rcases paren with rfl | rfl <;> cases byte
  cases h with
  | @white c white =>
    refine List.count_eq_zero.mpr fun member => ?_
    cases List.mem_singleton.mp member
    rcases paren with rfl | rfl <;> cases white
  | byte first second =>
    rw [List.count_cons_of_ne (part first), List.count_cons_of_ne (part second), List.count_nil]
  | negated first second =>
    rw [List.count_cons_of_ne (by rcases paren with rfl | rfl <;> decide),
      List.count_cons_of_ne (part first), List.count_cons_of_ne (part second), List.count_nil]
  | jump jump =>
    have inner : _ = 0 := jump.count (d := d) (by rcases paren with rfl | rfl <;> rfl)
      (by rcases paren with rfl | rfl <;> rfl) (by rcases paren with rfl | rfl <;> decide)
    rw [List.count_cons_of_ne (by rcases paren with rfl | rfl <;> decide), List.count_append, inner]
    rcases paren with rfl | rfl <;> rfl

/-- Each parenthesis that is open is closed. -/
theorem HexRest.count {n : Nat} {cs : List Char} (h : HexRest n cs) :
    n + cs.count '(' = cs.count ')' := by
  induction h with
  | done => rfl
  | item item _ ih =>
    rw [List.count_append, List.count_append, item.count (.inl rfl), item.count (.inr rfl),
      Nat.zero_add, Nat.zero_add, ih]
  | opens _ ih =>
    rw [List.count_cons_self, List.count_cons_of_ne (by decide), ← ih]
    omega
  | bar _ ih => rw [List.count_cons_of_ne (by decide), List.count_cons_of_ne (by decide), ih]
  | closes _ ih =>
    rw [List.count_cons_self, List.count_cons_of_ne (by decide), ← ih]
    omega

end RuleDesk
