import RuleDesk.Proofs.Lexing.Reflow

namespace RuleDesk

/-! ## Tokens of a text that is laid out anew

What has no meaning is passed piece by piece in both texts: white space may be other white
space there, and a comment is one that ends where it ended before. So the next whole token of
a piece of a text is the next one of what the piece is laid out as. -/

/-- How a token without a meaning is read, and the mode behind it. -/
inductive ReadsTrivia (mode : Mode) (rest : List Char) : List Char → Mode → Prop
  | white {ws : List Char} (white : ws.all isWhite) : ReadsTrivia mode rest ws mode
  | line {body : List Char} (single : '\n' ∉ body) (ends : ∀ c ∈ rest.head?, c = '\n') :
    ReadsTrivia mode rest ('/' :: '/' :: body) mode.commenting
  | block {body : List Char} (closed : Lexeme.closeComment? body = some body.length)
      (left : mode ≠ .normal → Lexeme.closeHexComment? (body ++ rest) = none) :
      ReadsTrivia mode rest ('/' :: '*' :: body) .normal
  | hexBlock {body : List Char} (inside : mode ≠ .normal)
    (closed : Lexeme.closeHexComment? body = some body.length) :
    ReadsTrivia mode rest ('/' :: '*' :: body) .hex

theorem ReadsTrivia.normal {mode mode' : Mode} {rest cs : List Char}
    (h : ReadsTrivia mode rest cs mode') (normal : mode = .normal) : mode' = .normal := by
  cases h with
  | white => exact normal
  | line => rw [normal]; rfl
  | block => rfl
  | hexBlock inside => exact (inside normal).elim

/-- A block comment that takes so many characters of a text. -/
theorem exists_comment {cs : List Char} {n : Nat} (fits : n ≤ cs.length) :
    ∃ body rest, cs = body ++ rest ∧ body.length = n ∧
      ('/' :: '*' :: cs).take (n + 2) = '/' :: '*' :: body ∧
      ('/' :: '*' :: cs).drop (n + 2) = rest :=
  ⟨cs.take n, cs.drop n, (List.take_append_drop n cs).symm, List.length_take_of_le fits, rfl, rfl⟩

theorem Mode.read_trivia {mode mode' : Mode} {cs : List Char} {l : Lexeme}
    (h : mode.read cs = (mode', l)) (nonempty : cs ≠ [])
    (trivia : l.kind.isTrivia) : ReadsTrivia mode (cs.drop l.size) (cs.take l.size) mode' := by
  obtain ⟨c, cs, rfl⟩ := List.exists_cons_of_ne_nil nonempty
  rcases mode.read_starts (by rw [h]; exact trivia) with white | ⟨rfl, starts⟩
  · obtain ⟨l', read, _, _, whites⟩ := mode.read_white white cs
    rw [h] at read
    cases read
    exact .white whites
  obtain ⟨second, cs, rfl⟩ : ∃ second more, cs = second :: more := by
    cases cs with
    | nil => simp at starts
    | cons second more => exact ⟨second, more, rfl⟩
  rcases starts with ⟨⟨⟩⟩ | ⟨⟨⟩⟩
  · rw [Mode.read_line] at h
    cases h
    obtain ⟨body, rest, rfl, size, all, head⟩ := runLength_split (· != '\n') cs
    rw [← size]
    dsimp only
    rw [List.drop_succ_cons, List.drop_succ_cons, List.drop_left, List.take_succ_cons,
      List.take_succ_cons, List.take_left]
    refine .line (fun member => absurd (List.all_eq_true.mp all _ member) (by decide))
      fun d first => ?_
    rw [first] at head
    simpa using head
  · rw [Mode.read_block] at h
    have normal : mode' = .normal → l = Lexeme.normal ('/' :: '*' :: cs) →
        (mode ≠ .normal → Lexeme.closeHexComment? cs = none) →
        ReadsTrivia mode (('/' :: '*' :: cs).drop l.size) (('/' :: '*' :: cs).take l.size)
          mode' := by
      rintro rfl rfl left
      rw [Lexeme.normal_block] at trivia ⊢
      cases closed : Lexeme.closeComment? cs with
      | none =>
        rw [closed] at trivia
        cases trivia
      | some n =>
        obtain ⟨body, rest, rfl, rfl, taken, dropped⟩ :=
          exists_comment (Lexeme.closeComment?_le closed)
        dsimp only
        rw [taken, dropped]
        exact .block (Lexeme.closeComment?_own.mp closed) left
    split at h
    · cases h
      exact normal rfl rfl fun other => absurd ‹_› other
    cases closed : Lexeme.closeHexComment? cs with
    | none =>
      rw [closed] at h
      cases h
      exact normal rfl rfl fun _ => closed
    | some n =>
      rw [closed] at h
      cases h
      obtain ⟨body, rest, rfl, rfl, taken, dropped⟩ :=
        exists_comment (Lexeme.closeHexComment?_le closed)
      dsimp only
      rw [taken, dropped]
      exact .hexBlock ‹_› (Lexeme.closeHexComment?_own.mp closed)

theorem Cursor.next?_trivia {c after : Cursor} {t : Token} (h : c.next? = some (t, after))
    (trivia : t.kind.isTrivia) :
    ReadsTrivia c.mode after.rest t.text after.mode := by
  have nonempty := rest_ne_nil h
  cases reading : c.mode.read c.rest with
  | mk mode l =>
    rw [next?_of_read nonempty reading] at h
    cases h
    exact Mode.read_trivia reading nonempty trivia

/-- Of a text the next token with a meaning is the one of what is left of it. -/
def Passes (mode : Mode) (text : List Char) (mode' : Mode) (rest : List Char) : Prop :=
  ∃ gap, text = gap ++ rest ∧ ∀ offset, (⟨mode, offset, text⟩ : Cursor).nextSolid? =
    (⟨mode', offset + byteLength gap, rest⟩ : Cursor).nextSolid?

namespace Passes

variable {mode mode' mode'' : Mode} {text rest more : List Char}

theorem refl (mode : Mode) (text : List Char) : Passes mode text mode text :=
  ⟨[], rfl, fun _ => rfl⟩

theorem trans (h : Passes mode text mode' rest) (h' : Passes mode' rest mode'' more) :
    Passes mode text mode'' more := by
  obtain ⟨gap, rfl, same⟩ := h
  obtain ⟨gap', rfl, same'⟩ := h'
  refine ⟨gap ++ gap', (List.append_assoc ..).symm, fun offset => ?_⟩
  rw [same, same', byteLength_append, Nat.add_assoc]

theorem whites {ws : List Char} (white : ws.all isWhite) : Passes mode (ws ++ rest) mode rest :=
  ⟨ws, rfl, fun offset => Cursor.nextSolid?_whites mode offset white rest⟩

theorem comment (front : List Char) (nonempty : front ≠ [])
    (read : mode.read (front ++ rest) = (mode', ⟨.comment, front.length⟩)) :
    Passes mode (front ++ rest) mode' rest :=
  ⟨front, rfl, fun offset => Cursor.nextSolid?_comment nonempty offset read⟩

theorem line {body : List Char} (single : '\n' ∉ body) (ends : ∀ c ∈ rest.head?, c = '\n') :
    Passes mode ('/' :: '/' :: (body ++ rest)) mode.commenting rest := by
  refine .comment ('/' :: '/' :: body) (List.cons_ne_nil _ _) ?_
  have all : body.all (· != '\n') :=
    List.all_eq_true.mpr fun c member => bne_iff_ne.mpr fun newline => single (newline ▸ member)
  have none : runLength (· != '\n') rest = 0 := runLength_eq_zero.mpr (by cases rest with
    | nil => rfl
    | cons c rest => rw [ends c rfl]; rfl)
  rw [List.cons_append, List.cons_append, Mode.read_line, runLength_of_all all, none]
  rfl

theorem block {body : List Char} (closed : Lexeme.closeComment? body = some body.length)
    (left : mode ≠ .normal → Lexeme.closeHexComment? (body ++ rest) = none) :
    Passes mode ('/' :: '*' :: (body ++ rest)) .normal rest := by
  refine .comment ('/' :: '*' :: body) (List.cons_ne_nil _ _) ?_
  rw [List.cons_append, List.cons_append, Mode.read_block, Lexeme.normal_block,
    Lexeme.closeComment?_own.mpr closed]
  split
  · rfl
  · rw [left ‹_›]
    rfl

theorem hexBlock {body : List Char} (inside : mode ≠ .normal)
    (closed : Lexeme.closeHexComment? body = some body.length) :
    Passes mode ('/' :: '*' :: (body ++ rest)) .hex rest := by
  refine .comment ('/' :: '*' :: body) (List.cons_ne_nil _ _) ?_
  rw [List.cons_append, List.cons_append, Mode.read_block, if_neg inside,
    Lexeme.closeHexComment?_own.mpr closed]
  rfl

end Passes

section Descent

variable {ended : Prop} {tail tail' : List Char} (tails : Tails ended tail tail')

include tails

/-- What means nothing is passed in both texts. -/
theorem Respaced.trivia {mode mode' : Mode} {cs rest cs' : List Char}
    (reads : ReadsTrivia mode (rest ++ tail) cs mode') (spaced : Respaced ended (cs ++ rest) cs') :
    ∃ rest', Passes mode (cs' ++ tail') mode' (rest' ++ tail') ∧ Respaced ended rest rest' := by
  cases reads with
  | white white =>
    obtain ⟨v, rest', rfl, white', spaced⟩ := spaced.whites white
    exact ⟨rest', by rw [List.append_assoc]; exact .whites white', spaced⟩
  | @line body single ends =>
    obtain ⟨v, later, white, rfl, reflowed⟩ := spaced.cons_solid (c := '/') rfl
    obtain ⟨later, rfl, inner⟩ := reflowed.cons_solid (c := '/') rfl
    have ends : rest.head? = some '\n' ∨ rest = [] ∧ ended := by
      cases rest with
      | cons d rest => exact .inl (congrArg some (ends d rfl))
      | nil =>
        refine .inr ⟨rfl, tails.ended_iff.mpr ?_⟩
        cases tail with
        | nil => rfl
        | cons d tail =>
          have newline := (tails.solid d rfl).1
          rw [ends d rfl] at newline
          cases newline
    obtain ⟨body', w, rest', rfl, rfl, _, ends', spaced⟩ := inner.to_newline single ends
    have single' : '\n' ∉ body' := fun member => single (List.mem_append_left _ member)
    refine ⟨rest', ?_, spaced⟩
    rw [List.append_assoc, List.cons_append, List.cons_append, List.append_assoc]
    refine (Passes.whites white).trans (.line single' ?_)
    rcases ends' with head | ⟨rfl, done⟩
    · rw [List.head?_append, head]
      rintro c ⟨⟩
      rfl
    · rw [tails.nothing done]
      nofun
  | @block body closed left =>
    obtain ⟨v, later, white, rfl, reflowed⟩ := spaced.cons_solid (c := '/') rfl
    obtain ⟨later, rfl, inner⟩ := reflowed.cons_solid (c := '*') rfl
    have whole : Respaced ended (body ++ rest) later := inner.respaced
    obtain ⟨body', rest', rfl, closed', reflowed⟩ := Reflowed.comment inner closed
    refine ⟨rest', ?_, reflowed.respaced⟩
    rw [List.append_assoc, List.cons_append, List.cons_append, List.append_assoc]
    refine (Passes.whites white).trans (.block closed' fun inside => ?_)
    rw [← List.append_assoc] at left ⊢
    exact whole.stillOpen tails (left inside)
  | @hexBlock body inside closed =>
    obtain ⟨v, later, white, rfl, reflowed⟩ := spaced.cons_solid (c := '/') rfl
    obtain ⟨later, rfl, inner⟩ := reflowed.cons_solid (c := '*') rfl
    obtain ⟨body', rest', rfl, closed', spaced⟩ := Respaced.hexComment inner.respaced closed
    refine ⟨rest', ?_, spaced⟩
    rw [List.append_assoc, List.cons_append, List.cons_append, List.append_assoc]
    exact (Passes.whites white).trans (.hexBlock inside closed')

/-- From a place of a text up to its next token with a meaning, within a piece of the
text: what stands before the token is passed in both texts. -/
theorem Respaced.descend (c : Cursor) :
    ∀ {cs cs' : List Char}, c.rest = cs ++ tail → Respaced ended cs cs' →
    (∀ t after, c.nextSolid? = some (t, after) → t.start ≤ c.offset + byteLength cs) →
      (c.nextSolid? = none → ended) →
    ∃ gap front front' mode, cs = gap ++ front ∧
      Passes c.mode (cs' ++ tail') mode (front' ++ tail') ∧ Respaced ended front front' ∧
      (⟨mode, c.offset + byteLength gap, front ++ tail⟩ : Cursor).next? = c.nextSolid? ∧
      (c.mode = .normal → mode = .normal) ∧
      ∀ t after, c.nextSolid? = some (t, after) → ¬ t.kind.isTrivia := by
  refine Cursor.nextSolid?_induct (motive := fun c o => ∀ {cs cs' : List Char},
    c.rest = cs ++ tail → Respaced ended cs cs' →
    (∀ t after, o = some (t, after) → t.start ≤ c.offset + byteLength cs) → (o = none → ended) →
    ∃ gap front front' mode, cs = gap ++ front ∧
      Passes c.mode (cs' ++ tail') mode (front' ++ tail') ∧ Respaced ended front front' ∧
      (⟨mode, c.offset + byteLength gap, front ++ tail⟩ : Cursor).next? = o ∧
        (c.mode = .normal → mode = .normal) ∧ ∀ t after, o = some (t, after) → ¬ t.kind.isTrivia)
    ?_ ?_ ?_ c
  · intro c none cs cs' text spaced _ _
    exact ⟨[], cs, cs', c.mode, rfl, .refl _ _, spaced, by rw [← text]; exact none, id, nofun⟩
  · intro c u mid read trivia ih cs cs' text spaced within last
    obtain ⟨start, stop, place⟩ := Cursor.next?_place read
    -- the token without a meaning lies within the piece, since the next one starts there
    obtain ⟨rest, rfl, later⟩ : ∃ rest, cs = u.text ++ rest ∧ mid.rest = rest ++ tail := by
      refine exists_append_of_byteLength_le (text.symm.trans place) ?_
      cases next : mid.nextSolid? with
      | none =>
        rw [tails.ended_iff.mp (last next), List.append_nil] at text
        rw [← text, place, byteLength_append]
        exact Nat.le_add_right _ _
      | some entry =>
        obtain ⟨t, after⟩ := entry
        have inside := within t after next
        have behind := (Cursor.nextSolid?_place next).1
        rw [stop, Token.stop, start] at behind
        omega
    have reads := Cursor.next?_trivia read trivia
    rw [later] at reads
    obtain ⟨rest', passes, spaced⟩ := Respaced.trivia tails reads spaced
    have bytes : mid.offset + byteLength rest = c.offset + byteLength (u.text ++ rest) := by
      rw [stop, Token.stop, start, byteLength_append, Nat.add_assoc]
    obtain ⟨gap, front, front', mode, rfl, passes', spaced, found, stays, meant⟩ :=
      ih later spaced (fun t after next => bytes ▸ within t after next) last
    refine ⟨u.text ++ gap, front, front', mode, (List.append_assoc ..).symm, passes.trans passes',
      spaced, ?_, fun normal => stays (reads.normal normal), meant⟩
    rw [← found, stop, Token.stop, start, byteLength_append, Nat.add_assoc]
  · rintro c t after read meant cs cs' text spaced _ _
    refine ⟨[], cs, cs', c.mode, rfl, .refl _ _, spaced, by rw [← text]; exact read, id, ?_⟩
    rintro _ _ ⟨⟩
    exact meant

/-- Where nothing with a meaning is left, nothing is left in the other text. -/
theorem Respaced.none {c c' : Cursor} {cs cs' : List Char} (spaced : Respaced ended cs cs')
    (text : c.rest = cs ++ tail)
    (text' : c'.rest = cs' ++ tail') (mode : c.mode = c'.mode) (done : ended)
    (next : c.nextSolid? = none) : c'.nextSolid? = none := by
  obtain ⟨gap, front, front', mode', rfl, ⟨passed, split, passes⟩, spaced, found, _, _⟩ :=
    Respaced.descend tails c text spaced (fun t after other => by rw [next] at other; cases other)
      (fun _ => done)
  rw [next, Cursor.next?_eq_none] at found
  obtain ⟨rfl, _⟩ := List.append_eq_nil_iff.mp found
  have known := passes c'.offset
  rw [← text', mode, tails.nothing done, List.append_nil] at known
  refine known.trans ?_
  rw [← List.append_nil front', Cursor.nextSolid?_whites _ _ spaced.nil_white]
  exact Cursor.nextSolid?_of_none (Cursor.next?_eq_none.mpr rfl)

omit tails in
/-- A piece within a line with no blanks at its ends. -/
theorem Respaced.front {piece rest cs' : List Char} (spaced : Respaced ended (piece ++ rest) cs')
    (nonempty : piece ≠ []) (compact : Compact piece) :
    ∃ v rest', v.all isWhite ∧ cs' = v ++ (piece ++ rest') ∧ Reflowed ended rest rest' := by
  obtain ⟨c, others, rfl⟩ := List.exists_cons_of_ne_nil nonempty
  have solid : isBlank c = false := compact.head c rfl
  obtain ⟨v, more, white, rfl, reflowed⟩ := spaced.cons_solid solid
  have whole : Reflowed ended (c :: others ++ rest) (c :: more) :=
    .same (by rintro rfl; cases solid) reflowed
  obtain ⟨rest', split, inner⟩ := whole.piece compact.single compact.last
  exact ⟨v, rest', white, by rw [split], inner⟩

/-- A whole token at the front of a piece. -/
theorem Respaced.token {mode : Mode} {offset : Nat} {cs cs' : List Char} {t : Token}
    {after : Cursor} (spaced : Respaced ended cs cs')
    (read : (⟨mode, offset, cs ++ tail⟩ : Cursor).next? = some (t, after)) (whole : t.kind.isWhole)
    (inside : t.text <+: cs) :
    ∃ v rest rest', v.all isWhite ∧ cs = t.text ++ rest ∧ after.rest = rest ++ tail ∧
      cs' = v ++ (t.text ++ rest') ∧ Reflowed ended rest rest' ∧
      ∀ offset', (⟨mode, offset', t.text ++ (rest' ++ tail')⟩ : Cursor).next? =
        some (⟨t.kind, offset', t.text⟩,
          ⟨after.mode, offset' + byteLength t.text, rest' ++ tail'⟩) := by
  have compact := Cursor.next?_compact read whole
  obtain ⟨nonempty, _, _, place⟩ := Cursor.next?_eq_some read
  obtain ⟨rest, rfl⟩ := inside
  have place : t.text ++ rest ++ tail = t.text ++ after.rest := place
  have later : after.rest = rest ++ tail := by
    rw [List.append_assoc] at place
    exact (List.append_cancel_left place).symm
  obtain ⟨v, rest', white, rfl, inner⟩ := spaced.front nonempty compact
  refine ⟨v, rest, rest', white, rfl, later, rfl, inner, fun offset' => ?_⟩
  -- the line goes on in the same way up to its end, which touches no token
  obtain ⟨line, more, more', rfl, rfl, ends⟩ := inner.line
  have loose : Loose (more' ++ tail') := by
    rcases ends with head | ⟨rfl, done⟩
    · obtain ⟨more', rfl⟩ := List.head?_eq_some_iff.mp head
      exact .white _ rfl
    · rw [tails.nothing done]
      exact .ended
  have read : (⟨mode, offset, (t.text ++ line) ++ (more ++ tail)⟩ : Cursor).next? =
      some (t, after) := by
    rw [← read]
    simp only [List.append_assoc]
  refine Cursor.next?_loose read whole (List.prefix_append _ _) loose offset' ?_
  simp only [List.append_assoc]

/-- The next token, which lies in a piece and is whole. -/
theorem Respaced.next {c c' after : Cursor} {cs cs' : List Char} {t : Token}
    (spaced : Respaced ended cs cs') (text : c.rest = cs ++ tail)
    (text' : c'.rest = cs' ++ tail') (mode : c.mode = c'.mode)
    (next : c.nextSolid? = some (t, after)) (whole : t.kind.isWhole)
    (inside : t.stop ≤ c.offset + byteLength cs) :
    ∃ rest rest' start, after.rest = rest ++ tail ∧ Reflowed ended rest rest' ∧
      c'.nextSolid? = some
        (⟨t.kind, start, t.text⟩, ⟨after.mode, start + byteLength t.text, rest' ++ tail'⟩) := by
  have starts : t.start ≤ t.stop := Nat.le_add_right _ _
  obtain ⟨gap, front, front', mode', rfl, ⟨passed, split, passes⟩, spaced, found, _, meant⟩ :=
    Respaced.descend tails c text spaced
      (fun u _ other => by rw [next] at other; cases other; omega)
      (fun other => by rw [next] at other; cases other)
  rw [next] at found
  obtain ⟨_, start, _, place⟩ := Cursor.next?_eq_some found
  have fits : t.text <+: front := by
    obtain ⟨more, longer, _⟩ := exists_append_of_byteLength_le (a := front) (b := tail) place (by
      rw [Token.stop, byteLength_append] at inside
      have start : t.start = c.offset + byteLength gap := start
      omega)
    exact ⟨more, longer.symm⟩
  obtain ⟨v, rest, rest', white, rfl, later, rfl, reflowed, read⟩ :=
    Respaced.token tails spaced found whole fits
  refine ⟨rest, rest', c'.offset + byteLength passed + byteLength v, later, reflowed, ?_⟩
  have solid := Cursor.nextSolid?_of_solid (read (c'.offset + byteLength passed + byteLength v))
    (meant t after next)
  have known := passes c'.offset
  rw [← text', mode, List.append_assoc, Cursor.nextSolid?_whites _ _ white, List.append_assoc,
    solid] at known
  exact known

/-- The next token stands behind the piece. -/
theorem Respaced.beyond {c c' after : Cursor} {cs cs' : List Char} {t : Token}
    (spaced : Respaced ended cs cs') (text : c.rest = cs ++ tail)
    (text' : c'.rest = cs' ++ tail') (mode : c.mode = c'.mode)
    (next : c.nextSolid? = some (t, after)) (behind : t.start = c.offset + byteLength cs) :
    ∃ mode', (c.mode = .normal → mode' = .normal) ∧
      (⟨mode', t.start, tail⟩ : Cursor).next? = some (t, after) ∧ ¬ t.kind.isTrivia ∧
      c'.nextSolid? = (⟨mode', c'.offset + byteLength cs', tail'⟩ : Cursor).nextSolid? := by
  obtain ⟨gap, front, front', mode', rfl, ⟨passed, split, passes⟩, left, found, stays, meant⟩ :=
    Respaced.descend tails c text spaced
      (fun u _ other => by rw [next] at other; cases other; exact Nat.le_of_eq behind)
      (fun other => by rw [next] at other; cases other)
  rw [next] at found
  obtain ⟨_, start, _, _⟩ := Cursor.next?_eq_some found
  have start : t.start = c.offset + byteLength gap := start
  rw [byteLength_append] at behind
  obtain rfl : front = [] :=
    List.eq_nil_of_length_eq_zero (by have := length_le_byteLength front; omega)
  refine ⟨mode', stays, by rw [start]; exact found, meant t after next, ?_⟩
  have known := passes c'.offset
  obtain rfl : cs' = passed ++ front' := by
    rw [← List.append_assoc] at split
    exact List.append_cancel_right split
  rw [← text', mode, Cursor.nextSolid?_whites _ _ left.nil_white] at known
  rw [known, byteLength_append, Nat.add_assoc]

end Descent

end RuleDesk
