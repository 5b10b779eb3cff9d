import RuleDesk.Proofs.Lexing.Stray

namespace RuleDesk

/-! ## Two readings side by side

One place in a text, and one in the text that it was laid out anew as. From both of them the
next tokens are the same up to the end of the piece that is laid out. -/

namespace Cursor

theorem Reaches.total {c d : Cursor} (h : c.Reaches d) :
    d.offset + byteLength d.rest = c.offset + byteLength c.rest := by
  obtain ⟨taken, text, offset⟩ := h
  rw [text, offset, byteLength_append, Nat.add_assoc]

/-- Places in two texts. Up to the offset `stop` the one text is the other laid out anew.
A place is `tight` where a token ends: then no blanks are put in before the next one. -/
inductive Abreast (ended : Prop) (tail tail' : List Char) (stop : Nat) (tight : Prop)
    (c c' : Cursor) : Prop
  | mk {cs cs' : List Char} (text : c.rest = cs ++ tail) (text' : c'.rest = cs' ++ tail')
      (mode : c.mode = c'.mode)
      (stops : c.offset + byteLength cs = stop) (spaced : Respaced ended cs cs')
      (tightly : tight → Reflowed ended cs cs')

namespace Abreast

variable {ended tight : Prop} {tail tail' : List Char} {stop : Nat} {c c' after : Cursor}
    {t : Token}

theorem weaken {tight' : Prop} (h : Abreast ended tail tail' stop tight c c')
    (fewer : tight' → tight) :
    Abreast ended tail tail' stop tight' c c' := by
  obtain ⟨text, text', mode, stops, spaced, tightly⟩ := h
  exact ⟨text, text', mode, stops, spaced, fun fact => tightly (fewer fact)⟩

theorem enter (h : Abreast ended tail tail' stop tight c c') (mode : Mode) :
    Abreast ended tail tail' stop tight (c.enter mode) (c'.enter mode) := by
  obtain ⟨text, text', same, stops, spaced, tightly⟩ := h
  refine ⟨(enter_rest c mode).trans text, (enter_rest c' mode).trans text', ?_,
    (congrArg (· + _) (enter_offset c mode)).trans stops, spaced, tightly⟩
  cases mode with
  | normal => exact same
  | hex => simp only [Cursor.enter, enterHex, same]; split <;> simp [*]
  | jump => simp only [Cursor.enter, enterJump, same]; split <;> simp [*]

/-- What is left of the piece behind a token. -/
theorem behind (step : c.Reaches after) {cs rest : List Char} (text : c.rest = cs ++ tail)
    (later : after.rest = rest ++ tail)
    (stops : c.offset + byteLength cs = stop) : after.offset + byteLength rest = stop := by
  have total := step.total
  rw [text, later, byteLength_append, byteLength_append] at total
  omega

section

variable (tails : Tails ended tail tail')

include tails

/-- A whole token in the piece is the next one of both texts. -/
theorem next (h : Abreast ended tail tail' stop tight c c') (next : c.nextSolid? = some (t, after))
    (whole : t.kind.isWhole)
    (inside : t.stop ≤ stop) : ∃ t' after', c'.nextSolid? = some (t', after') ∧ t'.kind = t.kind ∧
      t'.text = t.text ∧
      Abreast ended tail tail' stop True after after' := by
  obtain ⟨text, text', mode, rfl, spaced, _⟩ := h
  obtain ⟨rest, rest', start, later, reflowed, found⟩ :=
    spaced.next tails text text' mode next whole inside
  refine ⟨_, _, found, rfl, rfl, later, rfl, rfl, ?_, reflowed.respaced, fun _ => reflowed⟩
  exact behind (nextSolid?_place next).2.2 text later rfl

/-- Of a token that is not whole, only tokens of such kinds come in the other text. -/
theorem stray (alive : ¬ ended) (h : Abreast ended tail tail' stop tight c c')
    (normal : c.mode = .normal) (next : c.nextSolid? = some (t, after))
    (other : ¬ t.kind.isWhole) (inside : t.stop ≤ stop) :
    ∃ d', Skips (Kind.isStray ·) c' d' ∧ after.mode = .normal ∧
      Abreast ended tail tail' stop False after d' := by
  obtain ⟨text, text', mode, rfl, spaced, _⟩ := h
  obtain ⟨rest, rest', offset', later, normal', left, skips⟩ :=
    spaced.stray tails alive text text' normal (mode.symm.trans normal) next other inside
  exact ⟨_, skips, normal', later, rfl, normal', behind (nextSolid?_place next).2.2 text later rfl,
    left, False.elim⟩

/-- Where the text ends, the other one ends too. -/
theorem none (h : Abreast ended tail tail' stop tight c c') (done : ended)
    (next : c.nextSolid? = none) : c'.nextSolid? = none := by
  obtain ⟨text, text', mode, _, spaced, _⟩ := h
  exact spaced.none tails text text' mode done next

/-- The token right behind the piece, in both texts. -/
theorem beyond (h : Abreast ended tail tail' stop tight c c')
    (next : c.nextSolid? = some (t, after)) (behind : t.start = stop) :
    ∃ mode offset', (c.mode = .normal → mode = .normal) ∧
      (⟨mode, stop, tail⟩ : Cursor).next? = some (t, after) ∧ ¬ t.kind.isTrivia ∧
      c'.nextSolid? = (⟨mode, offset', tail'⟩ : Cursor).nextSolid? := by
  obtain ⟨text, text', mode, rfl, spaced, _⟩ := h
  obtain ⟨mode', stays, read, meant, found⟩ := spaced.beyond tails text text' mode next behind
  exact ⟨mode', _, stays, behind ▸ read, meant, found⟩

/-- A token behind the piece that does not touch what follows it. -/
theorem meets (h : Abreast ended tail tail' stop tight c c') (next : c.nextSolid? = some (t, after))
    (behind : t.start = stop)
    (whole : t.kind.isWhole) {more : List Char} (same : tail' = t.text ++ more)
    (loose : Loose more) :
    tail = t.text ++ after.rest ∧ ∃ start, c'.nextSolid? =
      some (⟨t.kind, start, t.text⟩, ⟨after.mode, start + byteLength t.text, more⟩) := by
  obtain ⟨mode, start, _, read, meant, found⟩ := h.beyond tails next behind
  obtain ⟨_, _, _, text⟩ := next?_eq_some read
  have text : tail = t.text ++ after.rest := text
  refine ⟨text, start, ?_⟩
  rw [text] at read
  rw [found, same]
  exact nextSolid?_of_solid (next?_loose read whole (List.prefix_refl _) loose start rfl) meant

end

end Abreast

/-! ### Tokens that touch -/

/-- A symbol does not start with a slash. -/
theorem next?_symbol_head {c after : Cursor} {t : Token} {s : Symbol}
    (h : c.next? = some (t, after)) (kind : t.kind = .symbol s)
    (other : ¬ t.kind.isOfHex) : c.rest.head? ≠ some '/' := by
  have read := next?_normal h other
  have nonempty := rest_ne_nil h
  rw [next?_of_read (c := { c with mode := .normal }) nonempty rfl] at read
  cases read
  intro slash
  obtain ⟨rest, text⟩ := List.head?_eq_some_iff.mp slash
  have kind : (Lexeme.normal c.rest).kind = .symbol s := kind
  rw [text, Lexeme.normal_slash] at kind
  cases found : Lexeme.slash? ('/' :: rest) with
  | none =>
    rw [found] at kind
    cases kind
  | some l =>
    rw [found] at kind
    rcases Lexeme.slash?_kind found with same | same | same | same <;> cases same.symm.trans kind

/-- Whether a symbol touches a place is seen by the character there. -/
theorem starts_iff {c after : Cursor} {t : Token} {s : Symbol} (h : c.nextSolid? = some (t, after))
    (kind : t.kind = .symbol s)
    (other : ¬ t.kind.isOfHex) : t.start = c.offset ↔ c.rest.head? = t.text.head? := by
  obtain ⟨d, ⟨taken, text, offset⟩, read, meant⟩ := nextSolid?_stands h
  obtain ⟨nonempty, start, _, place⟩ := next?_eq_some read
  have head : d.rest.head? = t.text.head? := by
    rw [place]
    cases text : t.text with
    | nil => exact (nonempty text).elim
    | cons => rfl
  constructor
  · intro same
    obtain rfl : taken = [] :=
      List.eq_nil_of_length_eq_zero (by have := length_le_byteLength taken; omega)
    rw [text, List.nil_append, head]
  · intro same
    obtain ⟨x, more, chars⟩ := List.exists_cons_of_ne_nil (rest_ne_nil read)
    rw [← head, chars] at same
    obtain ⟨others, split⟩ := List.head?_eq_some_iff.mp same
    have slash : x ≠ '/' :=
      fun slash => next?_symbol_head read kind other (by rw [chars, slash]; rfl)
    have white : isWhite x = false := by
      have := next?_not_white read meant
      rwa [chars] at this
    -- a token stands at the place, and it is not one without a meaning
    cases reading : c.mode.read c.rest with
    | mk mode l =>
      have first := next?_of_read (by rw [split]; exact List.cons_ne_nil _ _) reading
      have solid : ¬ l.kind.isTrivia := fun trivia => by
        rw [split] at reading
        rcases c.mode.read_starts (by rw [reading]; exact trivia) with blank | ⟨rfl, _⟩
        · rw [white] at blank
          cases blank
        · exact slash rfl
      rw [nextSolid?_of_solid first solid] at h
      cases h
      rfl

/-- A symbol touches the token before it in both texts or in none of them. -/
theorem Abreast.touches {ended : Prop} {tail tail' : List Char} {stop : Nat}
    {c c' after after' : Cursor} {t t' : Token} {s : Symbol}
    (tails : Tails ended tail tail') (h : Abreast ended tail tail' stop True c c')
    (next : c.nextSolid? = some (t, after))
    (next' : c'.nextSolid? = some (t', after')) (kind : t.kind = .symbol s)
    (same : t'.kind = t.kind) (spelled : t'.text = t.text)
    (other : ¬ t.kind.isOfHex) (inside : t.stop ≤ stop) :
    t.start = c.offset ↔ t'.start = c'.offset := by
  rw [starts_iff next kind other, starts_iff next' (same.trans kind) (same ▸ other), spelled]
  obtain ⟨d, _, read, _⟩ := nextSolid?_stands next
  obtain @⟨cs, cs', text, text', _, stops, _, tightly⟩ := h
  have nonempty := (next?_eq_some read).1
  obtain ⟨x, more, chars⟩ := List.exists_cons_of_ne_nil nonempty
  have solid : isBlank x = false :=
    (next?_compact read (by rw [kind]; rfl)).head x (by rw [chars]; rfl)
  obtain ⟨y, cs, rfl⟩ : ∃ y rest, cs = y :: rest := List.exists_cons_of_ne_nil fun none => by
    have start := (nextSolid?_place next).1
    have wide := Nat.lt_of_lt_of_le (List.length_pos_iff.mpr nonempty) (length_le_byteLength t.text)
    rw [none] at stops
    rw [Token.stop] at inside
    rw [show byteLength ([] : List Char) = 0 from rfl] at stops
    omega
  rw [text, text', chars, List.head?_cons, List.cons_append, List.head?_cons]
  constructor
  · rintro ⟨⟩
    obtain ⟨rest', rfl, _⟩ := (tightly trivial).cons_solid solid
    rfl
  · intro first
    rcases (tightly trivial).cons_cases with ⟨_, _, newline | ⟨rfl, done⟩⟩ | ⟨_, rest', rfl, _⟩
    · rw [List.head?_append, newline] at first
      cases first
      cases solid
    · rw [tails.nothing done] at first
      cases first
    · exact first

end Cursor

end RuleDesk
