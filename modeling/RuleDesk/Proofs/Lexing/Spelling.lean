import RuleDesk.Proofs.Lexing.Respell
import RuleDesk.Proofs.Lexing.Solid

namespace RuleDesk

/-! ## A text in which a pattern is spelled anew -/

theorem Sigil.char_utf8Size (s : Sigil) : s.char.utf8Size = 1 := by cases s <;> rfl

theorem Sigil.char_of_ofChar? {c : Char} {s : Sigil} (h : ofChar? c = some s) : c = s.char := by
  unfold ofChar? at h
  split at h <;> cases h <;> rfl

/-- How the identifiers of a pattern at some places of a text are spelled anew:
behind the sigil the old name becomes the new one. Offsets of the text become
those of the new one. -/
structure Spelling where
  places : List Nat
  old : List Char
  new : List Char
  offset : Nat → Nat
  ordered : ∀ {a b}, a ≤ b → offset a ≤ offset b
  old_named : old ≠ []
  new_named : new ≠ []
  old_parts : old.all isWordPart
  new_parts : new.all isWordPart

namespace Spelling

variable (p : Spelling)

/-- What is written at a place: a sigil and the old name. -/
structure Names (text : List Char) : Prop where
  sigil : (text.head?.bind Sigil.ofChar?).isSome
  name : text.tail = p.old

instance (text : List Char) : Decidable (p.Names text) :=
  decidable_of_iff ((text.head?.bind Sigil.ofChar?).isSome ∧ text.tail = p.old)
    ⟨fun both => ⟨both.1, both.2⟩, fun both => ⟨both.sigil, both.name⟩⟩

/-- How the text of a token at a place is spelled. -/
def spell (place : Nat) (text : List Char) : List Char :=
  if place ∈ p.places ∧ p.Names text then text.take 1 ++ p.new else text

def token (t : Token) : Token := ⟨t.kind, p.offset t.start, p.spell t.start t.text⟩

variable {p}

theorem spell_other {place : Nat} (other : place ∉ p.places) (text : List Char) :
    p.spell place text = text :=
  if_neg fun both => other both.1

theorem names_sigil (s : Sigil) : p.Names (s.char :: p.old) :=
  ⟨by rw [List.head?_cons, Option.bind_some, Sigil.ofChar?_char]; rfl, rfl⟩

theorem spell_name {place : Nat} (named : place ∈ p.places) (s : Sigil) :
    p.spell place (s.char :: p.old) = s.char :: p.new :=
  if_pos ⟨named, names_sigil s⟩

theorem Names.eq {text : List Char} (h : p.Names text) : ∃ s : Sigil, text = s.char :: p.old := by
  obtain ⟨sigil, name⟩ := h
  cases text with
  | nil => cases sigil
  | cons c rest =>
    obtain ⟨s, found⟩ := Option.isSome_iff_exists.mp sigil
    refine ⟨s, ?_⟩
    rw [← name, List.tail_cons]
    congr 1
    exact Sigil.char_of_ofChar? found

/-- What has no name behind a sigil is spelled as it is, and nothing else is
spelled like this. -/
theorem spell_short (place : Nat) {text short : List Char} (unnamed : short.length ≤ 1) :
    p.spell place text = short ↔ text = short := by
  have longer : ∀ (s : Sigil) {name : List Char}, name ≠ [] → s.char :: name ≠ short := by
    rintro s name named rfl
    exact named (List.eq_nil_of_length_eq_zero (Nat.le_zero.mp (Nat.le_of_succ_le_succ unnamed)))
  unfold spell
  split
  · rename_i named
    obtain ⟨s, rfl⟩ := named.2.eq
    exact iff_of_false (longer s p.new_named) (longer s p.old_named)
  · exact Iff.rfl

end Spelling

/-- A text from an offset on, and what it becomes. -/
inductive Respelled (p : Spelling) : Nat → List Char → List Char → Prop
  | ended (n : Nat) : Respelled p n [] []
  | char {n : Nat} {c : Char} {cs cs' : List Char} (other : n ∉ p.places)
      (moved : p.offset (n + c.utf8Size) = p.offset n + c.utf8Size)
      (rest : Respelled p (n + c.utf8Size) cs cs') :
      Respelled p n (c :: cs) (c :: cs')
  | name {n : Nat} (s : Sigil) {cs cs' : List Char} (place : n ∈ p.places)
      (moved : p.offset (n + (1 + byteLength p.old)) = p.offset n + (1 + byteLength p.new))
      (rest : Respelled p (n + (1 + byteLength p.old)) cs cs') :
      Respelled p n (s.char :: (p.old ++ cs)) (s.char :: (p.new ++ cs'))

namespace Respelled

variable {p : Spelling} {n : Nat} {cs cs' : List Char}

theorem reworded (h : Respelled p n cs cs') : Reworded cs cs' := by
  induction h with
  | ended => exact .same []
  | char _ _ _ ih => exact .char _ ih
  | name s _ _ _ ih => exact .char _ (.word p.old_named p.new_named p.old_parts p.new_parts ih)

theorem edge (h : Respelled p n cs cs') : SameEdge cs cs' := by
  cases h with
  | ended => exact .ended
  | char => exact .same ..
  | name => exact .same ..

theorem front (h : Respelled p n cs cs') : Front cs cs' := by
  cases h with
  | ended => exact .ended
  | name s => exact .sigil _ _ (by rw [Sigil.ofChar?_char]; rfl)
  | char other moved rest =>
    refine .char rest.edge fun _ => ?_
    cases rest <;> rfl

/-- Where no name is spelled anew the texts are the same. -/
theorem split {front rest : List Char} (h : Respelled p n (front ++ rest) cs')
    (clear : ∀ m ∈ p.places, m < n ∨ n + byteLength front ≤ m) :
    ∃ rest', cs' = front ++ rest' ∧ Respelled p (n + byteLength front) rest rest' ∧
      p.offset (n + byteLength front) = p.offset n + byteLength front := by
  induction front generalizing n cs' with
  | nil => exact ⟨cs', rfl, h, rfl⟩
  | cons c front ih =>
    have size : n + byteLength (c :: front) = n + c.utf8Size + byteLength front :=
      (Nat.add_assoc ..).symm
    rw [size] at clear ⊢
    generalize text : c :: front ++ rest = cs at h
    cases h with
    | ended => cases text
    | char other moved later =>
      cases text
      obtain ⟨rest', rfl, related, offset⟩ := ih later fun m member =>
        (clear m member).imp_left fun before => Nat.lt_of_lt_of_le before (Nat.le_add_right _ _)
      refine ⟨rest', rfl, related, ?_⟩
      rw [offset, moved, Nat.add_assoc]
      rfl
    | name s place =>
      have positive := c.utf8Size_pos
      have := clear n place
      omega

/-- At a place the old name stands, and in its place the new one. -/
theorem at_place (h : Respelled p n cs cs') (place : n ∈ p.places) (nonempty : cs ≠ []) :
    ∃ (s : Sigil) (rest rest' : List Char), cs = s.char :: (p.old ++ rest) ∧
      cs' = s.char :: (p.new ++ rest') ∧ Respelled p (n + (1 + byteLength p.old)) rest rest' ∧
      p.offset (n + (1 + byteLength p.old)) = p.offset n + (1 + byteLength p.new) := by
  cases h with
  | ended => exact (nonempty rfl).elim
  | char other => exact (other place).elim
  | name s _ moved rest => exact ⟨s, _, _, rfl, rfl, rest, moved⟩

end Respelled

/-! ### The tokens of both texts -/

/-- Two cursors that are at the same place of a text and of what it becomes. -/
structure Cursor.Respelled (p : Spelling) (c c' : Cursor) : Prop where
  mode : c.mode = c'.mode
  offset : p.offset c.offset = c'.offset
  rest : RuleDesk.Respelled p c.offset c.rest c'.rest

theorem Lexeme.read_sigil_run (mode : Mode) (s : Sigil) {cs : List Char}
    (named : cs.head?.any isWordPart) :
    mode.read (s.char :: cs) = (.normal, ⟨.sigil s, runLength isWordPart cs + 1⟩) := by
  have parts : (cs.take (runLength isWordPart cs)).all isWordPart := by
    refine @runLength_passes _ _ (cs.drop (runLength isWordPart cs)) ?_
    rw [List.take_append_drop, List.length_take]
    exact Nat.min_le_left _ _
  have size : (cs.take (runLength isWordPart cs)).length = runLength isWordPart cs := by
    rw [List.length_take]
    exact Nat.min_eq_left (runLength_le _ _)
  have ends : runLength isWordPart (cs.drop (runLength isWordPart cs)) = 0 := by
    have whole := runLength_of_all parts (cs.drop (runLength isWordPart cs))
    rw [List.take_append_drop, size] at whole
    omega
  have nonempty : cs.take (runLength isWordPart cs) ≠ [] := by
    intro empty
    rw [empty] at size
    have none := runLength_eq_zero.mp size.symm
    rw [none] at named
    cases named
  have read := Lexeme.read_sigil mode s nonempty parts (runLength_eq_zero.mp ends)
  rwa [List.take_append_drop, size] at read

namespace Cursor.Respelled

variable {p : Spelling} {c c' after : Cursor} {t : Token}

theorem enter (h : c.Respelled p c') (mode : Mode) :
    (c.enter mode).Respelled p (c'.enter mode) := by
  refine ⟨?_, ?_, ?_⟩
  · cases mode with
    | normal => exact h.mode
    | hex =>
      simp only [Cursor.enter, enterHex, ← h.mode]
      split
      · rfl
      · exact h.mode
    | jump =>
      simp only [Cursor.enter, enterJump, ← h.mode]
      split
      · rfl
      · exact h.mode
  · rw [enter_offset, enter_offset, h.offset]
  · rw [enter_offset, enter_rest, enter_rest]
    exact h.rest

/-- A token that is not at a place is the same in both texts. -/
theorem next?_plain (h : c.Respelled p c') (read : c.next? = some (t, after))
    (clear : ∀ m ∈ p.places, m < t.start ∨ t.stop ≤ m) :
    ∃ after', c'.next? = some (⟨t.kind, p.offset t.start, t.text⟩, after') ∧
      after.Respelled p after' := by
  have nonempty := rest_ne_nil read
  cases reading : c.mode.read c.rest with
  | mk mode l =>
    rw [next?_of_read nonempty reading] at read
    cases read
    have fits := Mode.read_fits c.mode nonempty
    rw [reading] at fits
    have size : (c.rest.take l.size).length = l.size := by
      rw [List.length_take]
      exact Nat.min_eq_left fits.2
    have related := h.rest
    rw [← List.take_append_drop l.size c.rest] at related
    obtain ⟨rest', text, later, moved⟩ := related.split clear
    have some_front : c.rest.take l.size ≠ [] := List.length_pos_iff.mp (by rw [size]; exact fits.1)
    have reading' : c'.mode.read c'.rest = (mode, l) := by
      have unclosed : Lexeme.hexComment? (c.rest.take l.size ++ c.rest.drop l.size) = none →
          Lexeme.hexComment? (c.rest.take l.size ++ rest') = none := by
        rw [List.take_append_drop, ← text]
        exact Lexeme.hexComment?_reworded h.rest.reworded
      have same := Mode.read_local c.mode some_front later.front unclosed
        (by rw [List.take_append_drop, reading, size])
      rw [← h.mode, text, same, List.take_append_drop, reading]
    have nonempty' : c'.rest ≠ [] := text ▸ List.append_ne_nil_of_left_ne_nil some_front _
    have taken : c'.rest.take l.size = c.rest.take l.size := by rw [text, List.take_left' size]
    have left : c'.rest.drop l.size = rest' := by rw [text, List.drop_left' size]
    refine ⟨⟨mode, p.offset (c.offset + byteLength (c.rest.take l.size)), rest'⟩,
      (next?_of_read nonempty' reading').trans ?_, ?_⟩
    · rw [taken, left, Token.stop, ← h.offset, moved]
    · exact ⟨rfl, rfl, later⟩

/-- At a place the identifier of the pattern is read in both texts. -/
theorem next?_name (h : c.Respelled p c') (read : c.next? = some (t, after))
    (place : t.start ∈ p.places) (named : p.Names t.text) :
    ∃ after', c'.next? = some (⟨t.kind, p.offset t.start, t.text.take 1 ++ p.new⟩, after') ∧
      after.Respelled p after' := by
  have nonempty := rest_ne_nil read
  obtain ⟨start, _, _⟩ := next?_place read
  obtain ⟨s, rest, rest', text, text', later, moved⟩ := h.rest.at_place (start ▸ place) nonempty
  have heads : ∀ {name : List Char} (rest : List Char), name ≠ [] → name.all isWordPart →
      (name ++ rest).head?.any isWordPart := by
    intro name rest some_name parts
    cases name with
    | nil => exact (some_name rfl).elim
    | cons d name => exact (Bool.and_eq_true_iff.mp parts).1
  have reading := Lexeme.read_sigil_run c.mode s (heads rest p.old_named p.old_parts)
  rw [← text] at reading
  rw [next?_of_read nonempty reading] at read
  cases read
  -- the token is the whole name, so no part of a word stands behind it
  have size : runLength isWordPart (p.old ++ rest) = p.old.length := by
    have long : (c.rest.take (runLength isWordPart (p.old ++ rest) + 1)).tail.length =
        p.old.length := congrArg List.length named.name
    rw [text, List.take_succ_cons, List.tail_cons, List.length_take,
      Nat.min_eq_left (runLength_le _ _)] at long
    exact long
  have ends : rest.head?.any isWordPart = false := by
    refine runLength_eq_zero.mp ?_
    rw [runLength_of_all p.old_parts] at size
    omega
  have ends' : rest'.head?.any isWordPart = false := later.front.head ▸ ends
  have whole : c.rest.take (runLength isWordPart (p.old ++ rest) + 1) = s.char :: p.old := by
    rw [size, text, List.take_succ_cons, List.take_left]
  have drop : c.rest.drop (runLength isWordPart (p.old ++ rest) + 1) = rest := by
    rw [size, text, List.drop_succ_cons, List.drop_left]
  have reading' := Lexeme.read_sigil c'.mode s p.new_named p.new_parts ends'
  rw [← text'] at reading'
  have nonempty' : c'.rest ≠ [] := text' ▸ List.cons_ne_nil _ _
  refine ⟨⟨.normal, p.offset (c.offset + (1 + byteLength p.old)), rest'⟩,
    (next?_of_read nonempty' reading').trans ?_, ?_⟩
  · have taken : c'.rest.take (p.new.length + 1) = s.char :: p.new := by
      rw [text', List.take_succ_cons, List.take_left]
    have left : c'.rest.drop (p.new.length + 1) = rest' := by
      rw [text', List.drop_succ_cons, List.drop_left]
    rw [taken, left, whole, Token.stop, byteLength, Sigil.char_utf8Size, ← h.offset, moved]
    rfl
  · have stop : c.offset + byteLength (s.char :: p.old) = c.offset + (1 + byteLength p.old) := by
      rw [byteLength, Sigil.char_utf8Size]
    rw [drop, whole, Token.stop, stop]
    exact ⟨rfl, rfl, later⟩

/-- Up to the next token no name is spelled anew, and in this token only as a whole. -/
structure Clear (p : Spelling) (c : Cursor) (t : Token) : Prop where
  before : ∀ m ∈ p.places, m < c.offset ∨ t.start ≤ m
  inside : ∀ m ∈ p.places, m ≤ t.start ∨ t.stop ≤ m
  whole : t.start ∈ p.places → p.Names t.text

/-- The next token is spelled anew, and what stands before it is the same. -/
theorem nextSolid? (h : c.Respelled p c') (next : c.nextSolid? = some (t, after))
    (clear : Clear p c t) :
    ∃ after', c'.nextSolid? = some (p.token t, after') ∧ after.Respelled p after' ∧
      p.offset t.start = p.offset c.offset + (t.start - c.offset) := by
  revert h next clear c'
  refine nextSolid?_induct (motive := fun c o => ∀ {c'}, c.Respelled p c' → o = some (t, after) →
    Clear p c t → ∃ after', c'.nextSolid? = some (p.token t, after') ∧ after.Respelled p after' ∧
      p.offset t.start = p.offset c.offset + (t.start - c.offset)) ?_ ?_ ?_ c
  · exact fun _ _ _ _ none => nomatch none
  · intro c u between read trivia ih c' h next clear
    obtain ⟨start, stop, text⟩ := next?_place read
    obtain ⟨later, _, _⟩ := nextSolid?_place next
    have free : ∀ m ∈ p.places, m < u.start ∨ u.stop ≤ m := fun m member =>
      (clear.before m member).imp (start ▸ ·) fun behind => Nat.le_trans (stop ▸ later) behind
    obtain ⟨between', read', related⟩ := h.next?_plain read free
    have before : ∀ m ∈ p.places, m < between.offset ∨ t.start ≤ m := fun m member =>
      (clear.before m member).imp_left fun earlier =>
        Nat.lt_of_lt_of_le earlier (next?_reaches read).offset_le
    obtain ⟨after', found, rest, moved⟩ := ih related next ⟨before, clear.inside, clear.whole⟩
    refine ⟨after', (nextSolid?_of_trivia read' trivia).trans found, rest, ?_⟩
    have passed : p.offset between.offset = p.offset c.offset + byteLength u.text := by
      have place := next?_place read'
      have offset := related.offset
      rw [place.2.1, Token.stop] at offset
      rw [offset, start]
    have width : u.stop = u.start + byteLength u.text := rfl
    omega
  · rintro c _ _ read meant c' h ⟨⟩ clear
    obtain ⟨start, _, _⟩ := next?_place read
    have gap : p.offset t.start = p.offset c.offset + (t.start - c.offset) := by
      rw [start, Nat.sub_self, Nat.add_zero]
    by_cases place : t.start ∈ p.places
    · obtain ⟨after', read', rest⟩ := h.next?_name read place (clear.whole place)
      have token : p.token t = ⟨t.kind, p.offset t.start, t.text.take 1 ++ p.new⟩ := by
        rw [Spelling.token, Spelling.spell, if_pos ⟨place, clear.whole place⟩]
      exact ⟨after', token ▸ nextSolid?_of_solid read' meant, rest, gap⟩
    · have free : ∀ m ∈ p.places, m < t.start ∨ t.stop ≤ m := fun m member =>
        (clear.inside m member).imp_left fun before => Nat.lt_of_le_of_ne before fun same =>
          place (same ▸ member)
      obtain ⟨after', read', rest⟩ := h.next?_plain read free
      have token : p.token t = ⟨t.kind, p.offset t.start, t.text⟩ := by
        rw [Spelling.token, Spelling.spell_other place]
      exact ⟨after', token ▸ nextSolid?_of_solid read' meant, rest, gap⟩

/-- Behind the last token both texts are the same. -/
theorem nextSolid?_none (h : c.Respelled p c') (next : c.nextSolid? = none)
    (clear : ∀ m ∈ p.places, m < c.offset) :
    c'.nextSolid? = none := by
  revert h next clear c'
  refine nextSolid?_induct (motive := fun c o => ∀ {c'}, c.Respelled p c' → o = none →
    (∀ m ∈ p.places, m < c.offset) → c'.nextSolid? = none) ?_ ?_ ?_ c
  · intro c read c' h _ _
    have empty := next?_eq_none.mp read
    have rest := h.rest
    rw [empty] at rest
    refine nextSolid?_of_none (next?_eq_none.mpr ?_)
    generalize c'.rest = cs at rest
    cases rest
    rfl
  · intro c u between read trivia ih c' h next clear
    obtain ⟨start, _, _⟩ := next?_place read
    obtain ⟨between', read', related⟩ :=
      h.next?_plain read fun m member => .inl (start ▸ clear m member)
    refine (nextSolid?_of_trivia read' trivia).trans (ih related next fun m member => ?_)
    exact Nat.lt_of_lt_of_le (clear m member) (next?_reaches read).offset_le
  · exact fun _ _ _ _ _ _ _ none => nomatch none

end Cursor.Respelled

/-! ### The names of patterns -/

namespace Lexeme

/-- Only what starts with a sigil is read as the name of a pattern. -/
theorem sigil?_of_normal {cs : List Char} {s : Sigil} (h : (normal cs).kind = .sigil s) :
    sigil? cs = some (normal cs) := by
  cases normal_readBy cs with
  | sigil read => exact read
  | word _ kind | number _ kind | symbol _ kind | string _ kind | slash _ kind | white _ kind
    | unknown kind => simp [h, Kind.isWord] at kind

end Lexeme

/-- The name of a pattern is a sigil and a run of word characters. -/
theorem Cursor.next?_sigil {c after : Cursor} {t : Token} {s : Sigil}
    (h : c.next? = some (t, after)) (kind : t.kind = .sigil s) :
    ∃ bare, t.text = s.char :: bare ∧ bare.all isWordPart := by
  have nonempty := rest_ne_nil h
  have normal := next?_normal h (by rw [kind]; exact nofun)
  rw [next?_of_read (c := { c with mode := .normal }) nonempty rfl] at normal
  cases normal
  have sigil := Lexeme.sigil?_of_normal kind
  dsimp only at sigil kind ⊢
  cases text : c.rest with
  | nil => exact (nonempty text).elim
  | cons d rest =>
    rw [text] at sigil kind
    obtain ⟨s', char, same⟩ :=
      Option.map_eq_some_iff.mp (show (Sigil.ofChar? d).map _ = some _ from sigil)
    rw [← same] at kind ⊢
    cases kind
    refine ⟨rest.take (runLength isWordPart rest), ?_, ?_⟩
    · rw [List.take_succ_cons]
      rw [Sigil.char_of_ofChar? char]
    · refine @runLength_passes _ _ (rest.drop (runLength isWordPart rest)) ?_
      rw [List.take_append_drop, List.length_take]
      exact Nat.min_le_left _ _

end RuleDesk
