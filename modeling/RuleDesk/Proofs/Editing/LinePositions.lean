import RuleDesk.Proofs.Editing.Positions

namespace RuleDesk

theorem utf16Size_pos (c : Char) : 0 < utf16Size c := by
  unfold utf16Size
  split <;> decide

theorem utf16Length_append (a b : List Char) :
    utf16Length (a ++ b) = utf16Length a + utf16Length b := by
  induction a with
  | nil => exact (Nat.zero_add _).symm
  | cons c rest ih => rw [List.cons_append, utf16Length, utf16Length, ih, Nat.add_assoc]

theorem byteLength_le_of_start {a b : List Char} (h : a <+: b) : byteLength a ≤ byteLength b := by
  obtain ⟨more, rfl⟩ := h
  rw [byteLength_append]
  exact Nat.le_add_right _ _

/-- An offset is rounded down to the end of some first part of the text, and
positions do not see the difference. -/
theorem floorBoundary_split (text : List Char) (n : Nat) (p : Position) :
    ∃ front back, text = front ++ back ∧
    floorBoundary text n = byteLength front ∧ Lines.positionFrom p text n = p.behind front := by
  induction text generalizing n p with
  | nil => exact ⟨[], [], rfl, rfl, rfl⟩
  | cons c rest ih =>
    by_cases fits : c.utf8Size ≤ n
    · obtain ⟨front, back, rfl, floor, place⟩ := ih (n - c.utf8Size) (p.after c)
      refine ⟨c :: front, back, rfl, ?_, ?_⟩
      · rw [floorBoundary, if_pos fits, floor, byteLength]
      · rw [Lines.positionFrom, if_neg (Nat.not_lt.mpr fits)]
        exact place
    · refine ⟨[], c :: rest, rfl, ?_, ?_⟩
      · rw [floorBoundary, if_neg fits, byteLength]
      · rw [Lines.positionFrom, if_pos (Nat.not_le.mp fits)]
        rfl

theorem floorBoundary_mono (text : List Char) {n m : Nat} (le : n ≤ m) :
    floorBoundary text n ≤ floorBoundary text m := by
  induction text generalizing n m with
  | nil => exact Nat.le_refl _
  | cons c rest ih =>
    rw [floorBoundary, floorBoundary]
    split
    · rename_i fits
      rw [if_pos (Nat.le_trans fits le)]
      exact Nat.add_le_add_left (ih (Nat.sub_le_sub_right le _)) _
    · exact Nat.zero_le _

namespace Lines

/-! ### Lines and their content -/

/-- Some text is what a line holds in front of the rest of the text, which is empty
or starts with what ends the line. A carriage return before the line feed, or at
the end of the text, is no content. -/
structure IsContent (content tail : List Char) : Prop where
  one : '\n' ∉ content
  ends : (tail = [] ∨ tail.head? = some '\n') ∧ content.getLast? ≠ some '\r' ∨
    ∃ rest, tail = '\r' :: rest ∧ (rest = [] ∨ rest.head? = some '\n')

/-- A line of a text with its number: whole lines before it, its content, and the
rest of the text from its terminator on. -/
structure IsLine (text : List Char) (n : Nat) (before content tail : List Char) : Prop
    extends IsContent content tail where
  split : text = before ++ (content ++ tail)
  starts : before = [] ∨ before.getLast? = some '\n'
  number : before.count '\n' = n

theorem head?_eq_feed {cs : List Char} (h : cs.head? = some '\n') : ∃ rest, cs = '\n' :: rest := by
  obtain ⟨rest, rfl⟩ := List.head?_eq_some_iff.mp h
  exact ⟨rest, rfl⟩

theorem atEnd_iff {cs : List Char} : atEnd cs ↔
    (cs = [] ∨ cs.head? = some '\n') ∨ ∃ rest, cs = '\r' :: rest ∧
      (rest = [] ∨ rest.head? = some '\n') := by
  constructor
  · intro past
    unfold atEnd at past
    split at past
    · exact .inl (.inl rfl)
    · exact .inl (.inr rfl)
    · exact .inr ⟨[], rfl, .inl rfl⟩
    · exact .inr ⟨_, rfl, .inr rfl⟩
    · cases past
  · rintro ((rfl | feed) | ⟨rest, rfl, rfl | feed⟩)
    · rfl
    · obtain ⟨rest, rfl⟩ := head?_eq_feed feed
      rfl
    · rfl
    · obtain ⟨more, rfl⟩ := head?_eq_feed feed
      rfl

namespace IsContent

variable {c : Char} {content tail : List Char}

theorem nil (past : atEnd tail) : IsContent [] tail :=
  ⟨List.not_mem_nil, (atEnd_iff.mp past).imp_left fun plain => ⟨plain, nofun⟩⟩

theorem past (h : IsContent content tail) : atEnd tail := atEnd_iff.mpr (h.ends.imp_left And.left)

/-- Within the content the line is not over. -/
theorem goes_on (h : IsContent (c :: content) tail) : atEnd (c :: (content ++ tail)) = false := by
  refine Bool.eq_false_iff.mpr fun past => ?_
  rcases atEnd_iff.mp past with (empty | feed) | ⟨rest, same, last⟩
  · cases empty
  · exact h.one (Option.some.inj feed ▸ List.mem_cons_self ..)
  · obtain ⟨rfl, rfl⟩ := List.cons.inj same
    cases content with
    | nil =>
      rcases h.ends with ⟨_, inside⟩ | ⟨rest, rfl, _⟩
      · exact inside rfl
      · rcases last with empty | feed
        · cases empty
        · cases feed
    | cons d more =>
      rcases last with empty | feed
      · cases empty
      · exact h.one (Option.some.inj feed ▸ List.mem_cons_of_mem _ (List.mem_cons_self ..))

theorem later (h : IsContent (c :: content) tail) : IsContent content tail where
  one member := h.one (List.mem_cons_of_mem _ member)
  ends := h.ends.imp_left fun ⟨plain, inside⟩ => ⟨plain, fun last => inside (by
    cases content with
    | nil => cases last
    | cons d more => exact last)⟩

theorem cons (h : IsContent content tail) (goes_on : atEnd (c :: (content ++ tail)) = false) :
    IsContent (c :: content) tail where
  one member := by
    rcases List.mem_cons.mp member with rfl | inside
    · cases goes_on
    · exact h.one inside
  ends := h.ends.imp_left fun ⟨plain, inside⟩ => ⟨plain, fun last => by
    cases content with
    | nil =>
      obtain rfl : c = '\r' := Option.some.inj last
      have past : atEnd ('\r' :: tail) := atEnd_iff.mpr (.inr ⟨tail, rfl, plain⟩)
      rw [List.nil_append, past] at goes_on
      cases goes_on
    | cons d more => exact inside last⟩

end IsContent

theorem exists_content (cs : List Char) :
    ∃ content tail, cs = content ++ tail ∧ IsContent content tail := by
  induction cs with
  | nil => exact ⟨[], [], rfl, .nil rfl⟩
  | cons c rest ih =>
    cases past : atEnd (c :: rest) with
    | true => exact ⟨[], c :: rest, rfl, .nil past⟩
    | false =>
      obtain ⟨content, tail, rfl, held⟩ := ih
      exact ⟨c :: content, tail, rfl, held.cons past⟩

/-- Where a line starts there are whole lines before. -/
theorem start?_some {text cs : List Char} {n k : Nat} (found : start? text n = some (k, cs)) :
    ∃ before, text = before ++ cs ∧ (before = [] ∨ before.getLast? = some '\n') ∧
      before.count '\n' = n := by
  induction text generalizing n k with
  | nil =>
    cases n with
    | zero =>
      obtain ⟨_, rfl⟩ := Prod.mk.inj (Option.some.inj found)
      exact ⟨[], rfl, .inl rfl, rfl⟩
    | succ n => cases found
  | cons c rest ih =>
    cases n with
    | zero =>
      obtain ⟨_, rfl⟩ := Prod.mk.inj (Option.some.inj found)
      exact ⟨[], rfl, .inl rfl, rfl⟩
    | succ n =>
      rw [start?] at found
      obtain ⟨⟨k', cs'⟩, later, same⟩ := Option.map_eq_some_iff.mp found
      obtain ⟨_, rfl⟩ := Prod.mk.inj same
      obtain ⟨before, rfl, starts, number⟩ := ih later
      refine ⟨c :: before, rfl, .inr ?_, ?_⟩
      · rcases starts with rfl | last
        · -- With no line before it, only the character itself can be the line feed that is counted.
          cases feed : c == '\n' with
          | true => rw [beq_iff_eq.mp feed]; rfl
          | false => rw [feed] at number; cases number
        · rw [List.getLast?_cons, last]; rfl
      · rw [List.count_cons]
        split at number
        · rename_i feed
          rw [number, if_pos feed]
        · rename_i other
          rw [number, if_neg other, Nat.add_zero]

/-- A line starts somewhere exactly if its number is less than the number of lines. -/
theorem start?_isSome (text : List Char) (n : Nat) : (start? text n).isSome ↔ n < count text := by
  induction text generalizing n with
  | nil => cases n <;> simp [start?, count]
  | cons c rest ih =>
    cases n with
    | zero => exact ⟨fun _ => Nat.succ_pos _, fun _ => rfl⟩
    | succ n =>
      rw [start?, Option.isSome_map, ih, count, count, List.countP_cons]
      cases c == '\n' with
      | true => exact ⟨Nat.succ_lt_succ, Nat.lt_of_succ_lt_succ⟩
      | false => exact Iff.rfl

/-- The characters of a line in front of a column. -/
def before : List Char → Nat → List Char
  | [], _ => []
  | c :: rest, column => if column = 0 then [] else c :: before rest (column - utf16Size c)

theorem before_start (content : List Char) (column : Nat) : before content column <+: content := by
  induction content generalizing column with
  | nil => exact List.prefix_rfl
  | cons c rest ih =>
    rw [before]
    split
    · exact List.nil_prefix
    · exact List.cons_prefix_cons.mpr ⟨rfl, ih _⟩

theorem before_zero (content : List Char) : before content 0 = [] := by cases content <;> rfl

theorem before_append (a b : List Char) {column : Nat} (le : utf16Length a ≤ column) :
    before (a ++ b) column = a ++ before b (column - utf16Length a) := by
  induction a generalizing column with
  | nil => rfl
  | cons c rest ih =>
    have positive := utf16Size_pos c
    rw [utf16Length] at le ⊢
    rw [List.cons_append, before, if_neg (by omega), ih (by omega), Nat.sub_sub, List.cons_append]

/-- A column that is the length of a first part leads behind it. -/
theorem before_of_start {a content : List Char} (h : a <+: content) :
    before content (utf16Length a) = a := by
  obtain ⟨b, rfl⟩ := h
  rw [before_append a b (Nat.le_refl _), Nat.sub_self, before_zero, List.append_nil]

theorem before_of_le {content : List Char} {column : Nat} (le : utf16Length content ≤ column) :
    before content column = content := by
  have all := before_append content [] le
  rwa [List.append_nil, before, List.append_nil] at all

/-- A column inside of a character leads behind the character. -/
theorem before_inside {a content : List Char} {c : Char} (h : a ++ [c] <+: content) {column : Nat}
    (more : utf16Length a < column)
    (less : column < utf16Length (a ++ [c])) : before content column = a ++ [c] := by
  obtain ⟨b, rfl⟩ := h
  rw [utf16Length_append, utf16Length, utf16Length] at less
  have none : column - utf16Length a - utf16Size c = 0 := by omega
  rw [List.append_assoc, before_append a _ (Nat.le_of_lt more), List.singleton_append, before,
    if_neg (by omega), none, before_zero]

theorem before_mono (content : List Char) {m n : Nat} (le : m ≤ n) :
    before content m <+: before content n := by
  induction content generalizing m n with
  | nil => exact List.prefix_rfl
  | cons c rest ih =>
    rw [before, before]
    split
    · exact List.nil_prefix
    · rw [if_neg (by omega)]
      exact List.cons_prefix_cons.mpr ⟨rfl, ih (Nat.sub_le_sub_right le _)⟩

theorem columnLength_content {content tail : List Char} (h : IsContent content tail)
    (column : Nat) :
    columnLength (content ++ tail) column = byteLength (before content column) := by
  induction content generalizing column with
  | nil =>
    cases tail with
    | nil => rfl
    | cons c rest =>
      rw [List.nil_append, columnLength, h.past, Bool.or_true, if_pos rfl]
      rfl
  | cons c rest ih =>
    rw [List.cons_append, columnLength, h.goes_on, Bool.or_false, before]
    by_cases zero : column = 0
    · rw [if_pos (beq_iff_eq.mpr zero), if_pos zero]
      rfl
    · rw [if_neg fun same => zero (beq_iff_eq.mp same), if_neg zero, ih h.later, byteLength]

namespace IsLine

variable {text first content tail front : List Char} {n column : Nat}

theorem start (h : IsLine text n first content tail) :
    start? text n = some (byteLength first, content ++ tail) := by
  rw [h.split, ← h.number]
  exact start?_lines h.starts _

theorem offset (h : IsLine text n first content tail) :
    offset? text ⟨n, column⟩ = some (byteLength (first ++ before content column)) := by
  rw [offset?, h.start, Option.map_some]
  dsimp only
  rw [columnLength_content h.toIsContent, byteLength_append]

/-- The positions of what stands in a line, its terminator included. -/
theorem position_eq (h : IsLine text n first content tail) (part : front <+: content ++ tail)
    (one : '\n' ∉ front) :
    position text (byteLength (first ++ front)) = ⟨n, utf16Length front⟩ := by
  obtain ⟨back, same⟩ := part
  rw [h.split, ← same, ← List.append_assoc, position, positionFrom_behind, Position.behind,
    List.foldl_append]
  show (Position.behind _ first).behind front = _
  rw [Position.behind_line _ one, ← h.number]
  rcases h.starts with rfl | last
  · exact congrArg (Position.mk 0) (Nat.zero_add _)
  · rw [Position.behind_lines _ last]
    exact congrArg₂ Position.mk (Nat.zero_add _) (Nat.zero_add _)

/-- A line ends before a later one starts. -/
theorem before_later (h : IsLine text n first content tail) {m : Nat}
    {first' content' tail' : List Char}
    (h' : IsLine text m first' content' tail') (less : n < m) :
    byteLength (first ++ content) ≤ byteLength first' := by
  by_contra more
  have same : first' ++ (content' ++ tail') = first ++ content ++ tail := by
    rw [List.append_assoc, ← h.split, ← h'.split]
  obtain ⟨between, whole, _⟩ := append_split same (Nat.le_of_lt (Nat.not_le.mp more))
  have feeds := congrArg (List.count '\n') whole
  rw [List.count_append, List.count_append, List.count_eq_zero.mpr h.one, h.number,
    h'.number] at feeds
  omega

end IsLine

/-- An offset stands in some line of the text. -/
theorem exists_line_at (text : List Char) (n : Nat) : ∃ first content tail part,
    IsLine text (position text n).line first content tail ∧ part <+: content ++ tail ∧ '\n' ∉ part ∧
      floorBoundary text n = byteLength (first ++ part) ∧
        position text n = ⟨(position text n).line, utf16Length part⟩ := by
  obtain ⟨front, back, rfl, floor, place⟩ := floorBoundary_split text n ⟨0, 0⟩
  obtain ⟨first, part, rfl, starts, one⟩ := split_lines front
  obtain ⟨content, tail, rest, held⟩ := exists_content (part ++ back)
  have line : IsLine (first ++ part ++ back) (first.count '\n') first content tail :=
    { toIsContent := held, split := by rw [List.append_assoc, rest], starts, number := rfl }
  have inside : part <+: content ++ tail := ⟨back, rest⟩
  have position_eq : position (first ++ part ++ back) n = ⟨first.count '\n', utf16Length part⟩ := by
    rw [← line.position_eq inside one]
    exact place.trans (positionFrom_behind _ _ _).symm
  rw [position_eq]
  exact ⟨first, content, tail, part, line, inside, one, floor, rfl⟩

theorem exists_line {text : List Char} {n : Nat} :
    (∃ first content tail, IsLine text n first content tail) ↔ n < count text := by
  rw [← start?_isSome]
  constructor
  · rintro ⟨first, content, tail, line⟩
    rw [line.start, Option.isSome_some]
  · intro found
    obtain ⟨⟨k, cs⟩, start⟩ := Option.isSome_iff_exists.mp found
    obtain ⟨first, split, starts, number⟩ := start?_some start
    obtain ⟨content, tail, rfl, held⟩ := exists_content cs
    exact ⟨first, content, tail, { toIsContent := held, split, starts, number }⟩

theorem offset?_eq_none {text : List Char} {p : Position} :
    offset? text p = none ↔ count text ≤ p.line := by
  rw [offset?, Option.map_eq_none_iff, ← Option.not_isSome_iff_eq_none, start?_isSome, Nat.not_lt]

/-- A text has as many lines as it has line feeds, and one more. An offset becomes
a position in its line, and comes back from there rounded down to a character and
cut off at the end of what the line holds. A position of a line that there is
becomes a place in the content of the line. It comes back as it was if its column
is the length of some first part of the content, as the end of the line if its
column is past it, and as the end of a character if its column is inside of one.
Both ways keep the order. -/
theorem positions_round_trip (text : List Char) :
    (∀ n, (∃ first content tail, IsLine text n first content tail) ↔ n < count text) ∧
    (∀ n, ∃ first content tail part, IsLine text (position text n).line first content tail ∧
      part <+: content ++ tail ∧ '\n' ∉ part ∧ floorBoundary text n = byteLength (first ++ part) ∧
      offset? text (position text n) =
        some (min (floorBoundary text n) (byteLength (first ++ content)))) ∧
    (∀ p first content tail, IsLine text p.line first content tail → ∃ front, front <+: content ∧
      offset? text p = some (byteLength (first ++ front)) ∧
      position text (byteLength (first ++ front)) = ⟨p.line, utf16Length front⟩ ∧
      (∀ a, a <+: content → p.column = utf16Length a → front = a) ∧
      (utf16Length content ≤ p.column → front = content) ∧
      ∀ a c, a ++ [c] <+: content → utf16Length a < p.column → p.column < utf16Length (a ++ [c]) →
        front = a ++ [c]) ∧
    (∀ p, offset? text p = none ↔ count text ≤ p.line) ∧
    (∀ n m, n ≤ m → (position text n).notAfter (position text m)) ∧
    ∀ p q n m, p.notAfter q → offset? text p = some n → offset? text q = some m → n ≤ m := by
  have line_of : ∀ {p n}, offset? text p = some n → ∃ first content tail,
      IsLine text p.line first content tail := by
    intro p n found
    refine exists_line.mpr (Nat.not_le.mp fun past => ?_)
    cases found.symm.trans (offset?_eq_none.mpr past)
  refine ⟨fun _ => exists_line, fun n => ?_, fun p first content tail line => ?_,
    fun _ => offset?_eq_none, fun n m le => ?_, fun p q n m ordered found found' => ?_⟩
  · obtain ⟨first, content, tail, part, line, inside, one, floor, place⟩ := exists_line_at text n
    refine ⟨first, content, tail, part, line, inside, one, floor, ?_⟩
    rw [place, line.offset, floor, byteLength_append, byteLength_append, byteLength_append]
    -- The offset is in the content, or behind it in the terminator.
    rcases List.prefix_or_prefix_of_prefix inside (List.prefix_append content tail)
      with within | ⟨more, rfl⟩
    · rw [before_of_start within,
        Nat.min_eq_left (Nat.add_le_add_left (byteLength_le_of_start within) _)]
    · have le : utf16Length content ≤ utf16Length (content ++ more) := by
        rw [utf16Length_append]
        exact Nat.le_add_right _ _
      rw [before_of_le le,
        Nat.min_eq_right (Nat.add_le_add_left (byteLength_le_of_start (List.prefix_append ..)) _)]
  · have within := before_start content p.column
    refine ⟨before content p.column, within, line.offset, ?_, fun a inside same => ?_, before_of_le,
      fun a c inside more less => before_inside inside more less⟩
    · exact line.position_eq (within.trans (List.prefix_append ..)) fun member =>
        line.one (within.subset member)
    · rw [same, before_of_start inside]
  · obtain ⟨front, back, split, floor, place⟩ := floorBoundary_split text n ⟨0, 0⟩
    obtain ⟨front', back', split', floor', place'⟩ := floorBoundary_split text m ⟨0, 0⟩
    have order := position_order split split'
    rw [← floor, ← floor', decide_eq_true (floorBoundary_mono text le), floor, floor'] at order
    rw [position, position, place, place']
    rw [position, position, split, positionFrom_behind, ← split, split',
      positionFrom_behind] at order
    exact order
  · obtain ⟨first, content, tail, line⟩ := line_of found
    obtain rfl := Option.some.inj (line.offset.symm.trans found)
    rcases Position.notAfter_iff.mp ordered with less | ⟨same, le⟩
    · obtain ⟨first', content', tail', line'⟩ := line_of found'
      obtain rfl := Option.some.inj (line'.offset.symm.trans found')
      refine Nat.le_trans ?_ (Nat.le_trans (line.before_later line' less)
        (byteLength_le_of_start (List.prefix_append ..)))
      rw [byteLength_append, byteLength_append]
      exact Nat.add_le_add_left (byteLength_le_of_start (before_start ..)) _
    · have line' : IsLine text q.line first content tail := same ▸ line
      obtain rfl := Option.some.inj (line'.offset.symm.trans found')
      rw [byteLength_append, byteLength_append]
      exact Nat.add_le_add_left (byteLength_le_of_start (before_mono content le)) _

def smileLine : List Char := ['a', '😀', '\r', '\n', 'b']

/-- A column inside of a character that takes two of them. -/
theorem positions_round_trip_smile : IsLine smileLine 0 [] ['a', '😀'] ['\r', '\n', 'b'] ∧
    utf16Length ['a'] < 2 ∧ 2 < utf16Length ['a', '😀'] ∧ offset? smileLine ⟨0, 2⟩ = some 5 ∧
      position smileLine 5 = ⟨0, 3⟩ := by
  have line : IsLine smileLine 0 [] ['a', '😀'] ['\r', '\n', 'b'] :=
    { one := by decide
      ends := .inr ⟨['\n', 'b'], rfl, .inr rfl⟩
      split := rfl
      starts := .inl rfl
      number := rfl }
  obtain ⟨front, _, offset, back, _, _, inside⟩ :=
    (positions_round_trip smileLine).2.2.1 ⟨0, 2⟩ _ _ _ line
  obtain rfl := inside ['a'] '😀' List.prefix_rfl (by decide) (by decide)
  exact ⟨line, by decide, by decide, offset, back⟩

end Lines

end RuleDesk
