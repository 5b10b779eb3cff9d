import RuleDesk.Proofs.Lexing.Solid

namespace RuleDesk

/-! ## Places in a text -/

/-- Two ways to cut a text, of which one cuts off no more bytes than the other. -/
theorem exists_append_of_byteLength_le {a b c d : List Char} (same : a ++ b = c ++ d)
    (le : byteLength c ≤ byteLength a) :
    ∃ more, a = c ++ more ∧ d = more ++ b := by
  rcases List.append_eq_append_iff.mp same with ⟨more, longer, rest⟩ | ⟨more, longer, rest⟩
  · have bytes := congrArg byteLength longer
    rw [byteLength_append] at bytes
    have none : more = [] :=
      List.eq_nil_of_length_eq_zero (by have := length_le_byteLength more; omega)
    subst none
    exact ⟨[], by rw [longer, List.append_nil, List.append_nil], rest.symm⟩
  · exact ⟨more, longer, rest⟩

/-- Where bytes can be dropped is between two characters. -/
theorem dropBytes?_eq_some {text rest : List Char} {n : Nat} (h : dropBytes? text n = some rest) :
    ∃ front, text = front ++ rest ∧ byteLength front = n := by
  induction text generalizing n with
  | nil =>
    cases n with
    | zero => exact ⟨[], Option.some.inj h, rfl⟩
    | succ n => cases h
  | cons c text ih =>
    cases n with
    | zero => exact ⟨[], Option.some.inj h, rfl⟩
    | succ n =>
      rw [dropBytes?] at h
      split at h
      · rename_i fits
        obtain ⟨front, rfl, width⟩ := ih h
        exact ⟨c :: front, rfl, by rw [byteLength, width]; omega⟩
      · cases h

/-- A piece of a text that starts at an offset. -/
def StandsAt (text : List Char) (start : Nat) (piece : List Char) : Prop :=
  ∃ front back, text = front ++ (piece ++ back) ∧ byteLength front = start

/-- An offset of a text that is not inside of a character. -/
def IsBoundary (text : List Char) (n : Nat) : Prop := ∃ front back, text = front ++ back ∧
  byteLength front = n

namespace StandsAt

variable {text piece : List Char} {start : Nat}

theorem boundary (h : StandsAt text start piece) : IsBoundary text start := by
  obtain ⟨front, back, split, place⟩ := h
  exact ⟨front, piece ++ back, split, place⟩

theorem boundary_stop (h : StandsAt text start piece) :
    IsBoundary text (start + byteLength piece) := by
  obtain ⟨front, back, split, place⟩ := h
  exact ⟨front ++ piece, back, by rw [split, List.append_assoc], by rw [byteLength_append, place]⟩

/-- The piece is what the text has between its ends. -/
theorem slice (h : StandsAt text start piece) :
    sliceBytes? text start (start + byteLength piece) = some piece := by
  obtain ⟨front, back, rfl, rfl⟩ := h
  rw [sliceBytes?, if_pos (Nat.le_add_right _ _), Nat.add_sub_cancel_left,
    dropBytes?_byteLength_append]
  exact takeBytes?_byteLength_append piece back

/-- One piece of a width stands at a place. -/
theorem eq_of_width (h : StandsAt text start piece) {other : List Char}
    (h' : StandsAt text start other)
    (same : byteLength piece = byteLength other) : piece = other := by
  have slice := h.slice
  rw [same, h'.slice] at slice
  exact (Option.some.inj slice).symm

end StandsAt

theorem Cursor.Reaches.boundary {text : List Char} {c : Cursor} (h : (start text).Reaches c) :
    IsBoundary text c.offset := by
  obtain ⟨front, split, place⟩ := h
  exact ⟨front, c.rest, split, (place.trans (Nat.zero_add _)).symm⟩

/-- The next token is a piece of the text. -/
theorem Cursor.Reaches.standsAt {text : List Char} {c after : Cursor} {t : Token}
    (h : (start text).Reaches c)
    (next : c.nextSolid? = some (t, after)) : StandsAt text t.start t.text := by
  obtain ⟨d, step, read, _⟩ := nextSolid?_stands next
  obtain ⟨offset, _, rest⟩ := next?_place read
  obtain ⟨front, split, place⟩ := h.trans step
  exact ⟨front, after.rest, rest ▸ split, offset ▸ (place.trans (Nat.zero_add _)).symm⟩

theorem Cursor.Reaches.rest_le {c d : Cursor} (h : c.Reaches d) :
    d.rest.length ≤ c.rest.length := by
  obtain ⟨taken, text, _⟩ := h
  rw [text, List.length_append]
  exact Nat.le_add_left _ _

/-- So are all the tokens from there on. -/
theorem Cursor.Reaches.standsAt_of_solid {text : List Char} {c : Cursor}
    (h : (start text).Reaches c) {t : Token}
    (member : t ∈ c.solid) : StandsAt text t.start t.text := by
  induction size : c.rest.length using Nat.strongRecOn generalizing c with
  | _ size ih =>
    cases next : c.nextSolid? with
    | none =>
      rw [solid_of_none next] at member
      cases member
    | some entry =>
      obtain ⟨u, after⟩ := entry
      rw [solid_of_next next] at member
      rcases List.mem_cons.mp member with rfl | later
      · exact h.standsAt next
      · obtain ⟨d, step, read, _⟩ := nextSolid?_stands next
        have shorter := Nat.lt_of_lt_of_le (next?_rest_lt read) (Reaches.rest_le step)
        exact ih _ (size ▸ shorter) (h.trans (step.trans (next?_reaches read))) later rfl

theorem IsBoundary.le {text : List Char} {n : Nat} (h : IsBoundary text n) :
    n ≤ byteLength text := by
  obtain ⟨front, back, rfl, rfl⟩ := h
  rw [byteLength_append]
  exact Nat.le_add_right _ _

/-- At a boundary the text has the empty piece. -/
theorem IsBoundary.slice {text : List Char} {n : Nat} (h : IsBoundary text n) :
    sliceBytes? text n n = some [] := by
  obtain ⟨front, back, split, place⟩ := h
  have stands : StandsAt text n [] := ⟨front, back, split, place⟩
  exact stands.slice

/-- A span that can be cut out of a text: it does not end before it starts, it
lies in the text, and both of its ends are boundaries of characters. -/
structure Span.Fits (text : List Char) (s : Span) : Prop where
  ordered : s.start ≤ s.stop
  within : s.stop ≤ byteLength text
  start : IsBoundary text s.start
  stop : IsBoundary text s.stop

namespace Span.Fits

variable {text : List Char} {s t : Span} {n : Nat}

theorem mk_of (ordered : s.start ≤ s.stop) (start : IsBoundary text s.start)
    (stop : IsBoundary text s.stop) : s.Fits text :=
  ⟨ordered, stop.le, start, stop⟩

theorem point (h : IsBoundary text n) : (Span.point n).Fits text := .mk_of (Nat.le_refl n) h h

theorem through (h : s.Fits text) (h' : t.Fits text) : (s.through t).Fits text := by
  refine .mk_of (Nat.le_trans h.ordered (Nat.le_max_right _ _)) h.start ?_
  show IsBoundary text (max t.stop s.stop)
  rcases Nat.le_total t.stop s.stop with le | le
  · rw [Nat.max_eq_right le]
    exact h.stop
  · rw [Nat.max_eq_left le]
    exact h'.stop

/-- A span with what comes behind it. -/
theorem extend (h : s.Fits text) (h' : (Span.mk s.stop n).Fits text) :
    (Span.mk s.start n).Fits text :=
  .mk_of (Nat.le_trans h.ordered h'.ordered) h.start h'.stop

theorem slice (h : s.Fits text) : ∃ piece, sliceBytes? text s.start s.stop = some piece := by
  obtain ⟨front, back, split, start⟩ := h.start
  obtain ⟨longer, rest, split', stop⟩ := h.stop
  obtain ⟨piece, rfl, rfl⟩ :=
    exists_append_of_byteLength_le (split'.symm.trans split) (by rw [start, stop]; exact h.ordered)
  have stands : StandsAt text s.start piece := ⟨front, rest, split, start⟩
  rw [← stop, byteLength_append, start]
  exact ⟨piece, stands.slice⟩

end Span.Fits

theorem StandsAt.fits {text : List Char} {t : Token} (h : StandsAt text t.start t.text) :
    t.span.Fits text :=
  .mk_of (Nat.le_add_right _ _) h.boundary h.boundary_stop

end RuleDesk
