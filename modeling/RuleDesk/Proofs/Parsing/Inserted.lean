import RuleDesk.Proofs.Lexing.HexComments
import RuleDesk.Proofs.Parsing.Beside
import RuleDesk.Proofs.Parsing.Resume

namespace RuleDesk

/-! ## White space and comments between two tokens -/

/-- A place in a text: right behind a token that the parse of the text reads, and
outside of hex patterns. Tokens that have to touch are not parted there. -/
structure Insertion.Place (front rest : List Char) (later : List Token) (t : Token)
    (earlier : List Token) : Prop where
  read : (finalState (front ++ rest)).read = later ++ t :: earlier
  stop : t.stop = byteLength front
  normal : SurelyNormal (t :: earlier)
  apart : ∀ u ∈ later.getLast?, t.kind.joins u.kind → u.start ≠ t.stop
  -- among the arguments of a modifier there may be literals that are not closed
  whole : ∀ u ∈ t :: earlier, u.kind.isWhole

/-- White space and comments for a place in a text without errors. -/
structure Insertion (front inserted rest : List Char) : Prop where
  clean : (parse (front ++ rest)).errors = []
  place : ∃ later t earlier, Insertion.Place front rest later t earlier
  trivia : Trivia inserted
  -- a comment in a hex pattern that only the normal mode can close must not find an end
  -- in what is put in
  stillOpen : ∀ before body, front = before ++ '/' :: '*' :: body →
    Lexeme.closeHexComment? (body ++ rest) = none →
    Lexeme.closeHexComment? (body ++ (inserted ++ rest)) = none

/-- What may be put in behind a token, in a hex pattern or outside of one, if it is
passed there. -/
structure Insertion.Spot (front inserted rest : List Char) (later : List Token) (t : Token)
    (earlier : List Token) : Prop where
  clean : (parse (front ++ rest)).errors = []
  read : (finalState (front ++ rest)).read = later ++ t :: earlier
  stop : t.stop = byteLength front
  apart : ∀ u ∈ later.getLast?, t.kind.joins u.kind → u.start ≠ t.stop
  whole : ∀ u ∈ t :: earlier, u.kind.isWhole
  trivia : Trivia inserted
  stillOpen : ∀ before body, front = before ++ '/' :: '*' :: body →
    Lexeme.closeHexComment? (body ++ rest) = none →
    Lexeme.closeHexComment? (body ++ (inserted ++ rest)) = none
  passed : ∀ mode, (⟨mode, byteLength front, rest⟩ : Cursor).Behind (front ++ rest) (t :: earlier) →
    (mode = .jump → t.kind.isOfJump) →
      (⟨mode, byteLength front, inserted ++ rest⟩ : Cursor).nextSolid? =
      (⟨mode, byteLength front + byteLength inserted, rest⟩ : Cursor).nextSolid?

/-- Outside of hex patterns all white space and all comments are passed. -/
theorem Insertion.spot {front inserted rest : List Char} {later earlier : List Token} {t : Token}
    (h : Insertion front inserted rest)
    (place : Place front rest later t earlier) : Spot front inserted rest later t earlier where
  clean := h.clean
  read := place.read
  stop := place.stop
  apart := place.apart
  whole := place.whole
  trivia := h.trivia
  stillOpen := h.stillOpen
  passed mode behind _ := by
    obtain rfl : mode = .normal := behind.normal place.normal
    exact Cursor.nextSolid?_trivia h.trivia _ rest

/-- The offset in a text of a place in the text where some bytes are put in. -/
def withoutInserted (place width n : Nat) : Nat := if n ≤ place then n else max place (n - width)

section Offsets

variable {place width : Nat}

theorem withoutInserted_before {n : Nat} (h : n ≤ place) :
    withoutInserted place width n = n := if_pos h

theorem withoutInserted_behind {n : Nat} (h : place ≤ n) :
    withoutInserted place width (n + width) = n := by
  unfold withoutInserted
  split <;> omega

theorem withoutInserted_nothing : withoutInserted place (byteLength []) = id := by
  funext n
  show (if n ≤ place then n else max place n) = n
  split <;> omega

theorem withoutInserted_max (m n : Nat) : withoutInserted place width (max m n) =
    max (withoutInserted place width m) (withoutInserted place width n) := by
  unfold withoutInserted
  split <;> split <;> split <;> omega

end Offsets

namespace Insertion

variable {front inserted rest : List Char}

/-- Cursors in the text and in the one with the insertion, of which the first is
behind some tokens: before the place, at the place behind its tokens, or behind it. -/
inductive Near (front inserted rest : List Char) (tokens : List Token) :
    List Token → Cursor → Cursor → Prop
  | before {earlier : List Token} (mode : Mode) (passed left : List Char) (nonempty : left ≠ [])
    (split : front = passed ++ left) :
    Near front inserted rest tokens earlier ⟨mode, byteLength passed, left ++ rest⟩
        ⟨mode, byteLength passed, left ++ (inserted ++ rest)⟩
  | here (mode : Mode) (jump : mode = .jump → ∀ t ∈ tokens.head?, t.kind.isOfJump) :
    Near front inserted rest tokens tokens ⟨mode, byteLength front, rest⟩
        ⟨mode, byteLength front, inserted ++ rest⟩
  | behind {earlier : List Token} (c : Cursor) (later : byteLength front ≤ c.offset) :
    Near front inserted rest tokens earlier c (c.shifted (byteLength inserted))

namespace Near

variable {tokens earlier : List Token} {c c' : Cursor}

theorem offset (h : Near front inserted rest tokens earlier c c') :
    c.offset = withoutInserted (byteLength front) (byteLength inserted) c'.offset := by
  cases h with
  | before mode passed left nonempty split =>
    refine (withoutInserted_before ?_).symm
    rw [split, byteLength_append]
    exact Nat.le_add_right _ _
  | here mode jump => exact (withoutInserted_before (Nat.le_refl _)).symm
  | behind c later => exact (withoutInserted_behind later).symm

end Near

/-- The next tokens before the place. -/
theorem next_before {passed left : List Char} {mode : Mode} {t : Token} {after : Cursor}
    (some_inserted : inserted ≠ [])
    (trivia : Trivia inserted)
      (open_ : ∀ before body, passed ++ left = before ++ '/' :: '*' :: body →
      Lexeme.closeHexComment? (body ++ rest) = none →
        Lexeme.closeHexComment? (body ++ (inserted ++ rest)) = none)
    (next : (⟨mode, byteLength passed, left ++ rest⟩ : Cursor).nextSolid? = some (t, after))
    (whole : t.kind.isWhole) (inside : t.stop ≤ byteLength (passed ++ left)) :
    ∃ gap more, left = gap ++ (t.text ++ more) ∧
      after = ⟨after.mode, byteLength (passed ++ gap ++ t.text), more ++ rest⟩ ∧
      (⟨mode, byteLength passed, left ++ (inserted ++ rest)⟩ : Cursor).nextSolid? =
        some (t, ⟨after.mode, byteLength (passed ++ gap ++ t.text),
          more ++ (inserted ++ rest)⟩) := by
  obtain ⟨gap, _, text, start, passes, _⟩ := Cursor.gap_of_nextSolid? next
  obtain ⟨_, stop, _⟩ := Cursor.nextSolid?_place next
  have text : left ++ rest = gap ++ (t.text ++ after.rest) := text
  have start : t.start = byteLength passed + byteLength gap := start
  rw [byteLength_append, Token.stop, start, Nat.add_assoc, ← byteLength_append gap] at inside
  rw [← List.append_assoc] at text
  obtain ⟨more, split, last⟩ :=
    exists_append_of_byteLength_le text (Nat.le_of_add_le_add_left inside)
  rw [List.append_assoc] at split text
  subst split
  have place : after.offset = byteLength (passed ++ gap ++ t.text) := by
    rw [stop, Token.stop, start, byteLength_append, byteLength_append]
  refine ⟨gap, more, rfl, ?_, ?_⟩
  · rw [← place, ← last]
  have found := Cursor.nextSolid?_relaid gap next whole
    (show _ = (t.text ++ more) ++ rest by rw [last, List.append_assoc])
    (List.append_assoc _ _ (inserted ++ rest)) (List.prefix_append _ _)
      (trivia.loose some_inserted rest)
    (fun other mode' same passes' => ?_) (byteLength passed)
  · rw [List.append_assoc, List.append_assoc, found, ← start, ← place, stop]
    rfl
  · have same : gap ++ (t.text ++ more) ++ rest = other ++ (t.text ++ after.rest) := same
    rw [last, ← List.append_assoc t.text, ← List.append_assoc other] at same
    obtain rfl := List.append_cancel_right (List.append_cancel_right same)
    refine passes'.refollow fun front body split open' => ?_
    subst split
    have still := open_ (passed ++ front) (body ++ (t.text ++ more))
      (by simp only [List.append_assoc, List.cons_append])
    simp only [List.append_assoc] at still
    exact still (by rw [last] at open'; exact open')

section Spot

variable {later earlier : List Token} {t : Token} (spot : Spot front inserted rest later t earlier)

include spot

theorem Spot.readFrom : ReadFrom (front ++ rest) (t :: earlier) := by
  have all := (finalState_tracked (front ++ rest)).read
  rw [spot.read] at all
  exact all.earlier

/-- Tokens that are read before the place is reached. -/
theorem Spot.upto {later' earlier' : List Token} {u : Token}
    (split : (finalState (front ++ rest)).read = later' ++ u :: earlier')
    (before : stopOf earlier' < byteLength front) :
    ∃ between, t :: earlier = between ++ u :: earlier' := by
  have all := (finalState_tracked (front ++ rest)).read
  rw [split] at all
  have before_u : ReadFrom (front ++ rest) earlier' := @ReadFrom.earlier _ _ [u] all.earlier
  rcases List.append_eq_append_iff.mp (split.symm.trans spot.read)
    with ⟨as, _, rest⟩ | ⟨between, _, rest⟩
  · cases as with
    | nil => exact ⟨[], rest.symm⟩
    | cons _ as =>
      cases rest
      have le := before_u.stop_le t (List.mem_append_right _ (List.mem_cons_self ..))
      exact absurd (spot.stop ▸ le) (Nat.not_le_of_lt before)
  · exact ⟨between, rest⟩

/-- The only token that ends at the place is the one right before it. -/
theorem Spot.last {between earlier' : List Token} {u : Token}
    (split : t :: earlier = between ++ u :: earlier')
    (stop : u.stop = byteLength front) : t :: earlier = u :: earlier' := by
  cases between with
  | nil => exact split
  | cons _ between =>
    cases split
    have le := spot.readFrom.ordered
    have ends := (List.pairwise_cons.mp le).1 u (List.mem_append_right _ (List.mem_cons_self ..))
    have width := List.length_pos_iff.mpr (spot.readFrom.nonempty t (List.mem_cons_self ..))
    have bytes := length_le_byteLength t.text
    have stop' := spot.stop
    unfold Token.stop at stop' stop ends
    omega

end Spot

section Next

variable {later earlier later' earlier' : List Token} {t u : Token} {c c' after : Cursor}

/-- The tokens of the text with the insertion that are read before the place and
behind it. -/
theorem next_unmoved (stop : u.stop ≤ byteLength front) :
    u.Alike False .same (.of (withoutInserted (byteLength front) (byteLength inserted))) u := by
  refine ⟨rfl, ?_, fun _ => rfl, fun _ _ => rfl⟩
  have start : u.start ≤ u.stop := Nat.le_add_right _ _
  exact congrArg₂ Span.mk (withoutInserted_before (Nat.le_trans start stop)).symm
    (withoutInserted_before stop).symm

theorem next_moved (start : byteLength front ≤ u.start) :
    u.Alike False .same (.of (withoutInserted (byteLength front) (byteLength inserted)))
      (u.shifted (byteLength inserted)) := by
  refine ⟨rfl, ?_, fun _ => rfl, fun _ _ => rfl⟩
  have stop : byteLength front ≤ u.stop := Nat.le_trans start (Nat.le_add_right _ _)
  refine congrArg₂ Span.mk (withoutInserted_behind start).symm ?_
  show u.stop = withoutInserted _ _ (u.shifted _).stop
  rw [Token.shifted_stop, withoutInserted_behind stop]

theorem Spot.next (spot : Spot front inserted rest later t earlier) (some_inserted : inserted ≠ [])
    (read : (finalState (front ++ rest)).read = later' ++ u :: earlier')
    (near : Near front inserted rest (t :: earlier) earlier' c c')
    (behind : c.Behind (front ++ rest) earlier')
    (next : c.nextSolid? = some (u, after)) : ∃ u' after', c'.nextSolid? = some (u', after') ∧
      u.Alike False .same (.of (withoutInserted (byteLength front) (byteLength inserted))) u' ∧
      (∀ v ∈ earlier'.head?, v.kind.joins u.kind → (u.start = c.offset ↔ u'.start = c'.offset)) ∧
      ∀ mode, (mode = .jump → u.kind = .symbol .lbracket) →
        Near front inserted rest (t :: earlier) (u :: earlier') (after.enter mode)
          (after'.enter mode) := by
  have starts := (Cursor.nextSolid?_place next).1
  have stops := (Cursor.nextSolid?_place next).2.1
  cases near with
  | before mode passed left nonempty split =>
    have bytes := congrArg byteLength split
    rw [byteLength_append] at bytes
    have some_left := List.length_pos_iff.mpr nonempty
    have wide := length_le_byteLength left
    obtain ⟨between, upto⟩ :=
      spot.upto read (by rw [← behind.stop]; show byteLength passed < _; omega)
    have member : u ∈ t :: earlier := upto ▸ List.mem_append_right _ (List.mem_cons_self ..)
    have inside : u.stop ≤ byteLength front := spot.stop ▸ spot.readFrom.stop_le u member
    obtain ⟨gap, more, text, mid, found⟩ :=
      next_before some_inserted spot.trivia (split ▸ spot.stillOpen) next (spot.whole u member)
      (split ▸ inside)
    refine ⟨u, _, found, next_unmoved inside, fun _ _ _ => Iff.rfl, fun mode bracket => ?_⟩
    have jump : (after.enter mode).mode = .jump → u.kind.isOfJump := fun inside =>
      (Cursor.enter_jump inside).elim (Cursor.nextSolid?_jump next) fun jump => bracket jump ▸ rfl
    rw [mid] at stops jump ⊢
    obtain ⟨entered, same⟩ := Cursor.enter_uniform after.mode mode
    rw [same] at jump
    rw [same, same]
    have all : front = passed ++ gap ++ u.text ++ more := by
      rw [split, text]; simp only [List.append_assoc]
    by_cases done : more = []
    · subst done
      rw [List.append_nil] at all
      rw [spot.last upto (stops.symm.trans (congrArg byteLength all.symm)), ← all]
      exact .here entered fun inside v first => Option.some.inj first ▸ jump inside
    · exact .before entered _ more done all
  | here mode jump =>
    have found := Cursor.nextSolid?_shifted (byteLength inserted) ⟨mode, byteLength front, rest⟩
    rw [next] at found
    refine ⟨_, _, (spot.passed mode behind fun inside => jump inside t rfl).trans found,
      next_moved starts, fun v last joins => ?_, fun mode _ => ?_⟩
    · have later : later = later' ++ [u] := by
        have both := read.symm.trans spot.read
        rw [← List.singleton_append, ← List.append_assoc] at both
        exact (List.append_cancel_right both).symm
      cases last
      have apart := spot.apart u (by rw [later, List.getLast?_concat]; rfl) joins
      rw [spot.stop] at apart
      have wide := length_le_byteLength inserted
      have positive := List.length_pos_iff.mpr some_inserted
      refine iff_of_false apart ?_
      rw [Token.shifted_start]
      dsimp only at starts ⊢
      omega
    · rw [← Cursor.enter_shifted]
      exact .behind _
        (by rw [Cursor.enter_offset]; exact stops ▸ Nat.le_trans starts (Nat.le_add_right _ _))
  | behind c far =>
    have found := Cursor.nextSolid?_shifted (byteLength inserted) c
    rw [next] at found
    have start := Nat.le_trans far starts
    refine ⟨_, _, found, next_moved start, fun _ _ _ => ?_, fun mode _ => ?_⟩
    · rw [Token.shifted_start]
      exact (Nat.add_right_cancel_iff).symm
    · rw [← Cursor.enter_shifted]
      exact .behind _
        (by rw [Cursor.enter_offset]; exact stops ▸ Nat.le_trans start (Nat.le_add_right _ _))

theorem Spot.ended (spot : Spot front inserted rest later t earlier)
    (near : Near front inserted rest (t :: earlier) (finalState (front ++ rest)).read c c')
    (behind : c.Behind (front ++ rest) (finalState (front ++ rest)).read)
    (last : c.nextSolid? = none) :
    c'.nextSolid? = none ∧ c.offset + byteLength c.rest =
      withoutInserted (byteLength front) (byteLength inserted)
        (c'.offset + byteLength c'.rest) := by
  have moved : ∀ d : Cursor, d.nextSolid? = none →
      (d.shifted (byteLength inserted)).nextSolid? = none := fun d last => by
    rw [Cursor.nextSolid?_shifted, last]
    rfl
  generalize all : (finalState (front ++ rest)).read = read at near behind
  cases near with
  | before mode passed left nonempty split =>
    have member : t ∈ read := all ▸ spot.read ▸ List.mem_append_right _ (List.mem_cons_self ..)
    have le := (all ▸ (finalState_tracked (front ++ rest)).read : ReadFrom _ read).stop_le t member
    rw [spot.stop, ← behind.stop, split, byteLength_append] at le
    have some_left := List.length_pos_iff.mpr nonempty
    have wide := length_le_byteLength left
    dsimp only at le
    omega
  | here mode jump =>
    refine ⟨(spot.passed mode behind fun inside => jump inside t rfl).trans (moved _ last), ?_⟩
    dsimp only
    rw [byteLength_append, Nat.add_comm (byteLength inserted), ← Nat.add_assoc,
      withoutInserted_behind (Nat.le_add_right _ _)]
  | behind c far =>
    refine ⟨moved c last, ?_⟩
    rw [Cursor.shifted, Nat.add_right_comm,
      withoutInserted_behind (Nat.le_trans far (Nat.le_add_right _ _))]

end Next

section Beside

variable {later earlier : List Token} {t : Token}

/-- The text stands beside the one with the insertion. -/
def Spot.beside (spot : Spot front inserted rest later t earlier) (some_inserted : inserted ≠ []) :
    Beside (front ++ rest) (finalState (front ++ rest)) where
  left := .same
  right := .of (withoutInserted (byteLength front) (byteLength inserted))
  ends first second := by
    show max _ _ = withoutInserted _ _ _
    rw [withoutInserted_max]
    exact congrArg₂ max first second
  keeps := View.of_keepsNames _
  unnamed := View.same_unnamed
  clean := spot.clean
  tracked := finalState_tracked _
  compared _ := True
  plain _ := trivial
  near := Near front inserted rest (t :: earlier)
  here near := near.offset
  next read near behind next :=
    have ⟨t', after', found, alike, touching, near⟩ := spot.next some_inserted read near behind next
    ⟨t', after', found, alike, touching, fun _ => near⟩
  ended near :=
    have none := finalState_nextSolid? (front ++ rest)
    have ⟨none', stop⟩ := spot.ended near (finalState_tracked _).behind none
    .text none none' stop

theorem Spot.near_start (spot : Spot front inserted rest later t earlier) :
    Near front inserted rest (t :: earlier)
      [] (Cursor.start (front ++ rest)) (Cursor.start (front ++ (inserted ++ rest))) := by
  have nonempty : front ≠ [] := by
    rintro rfl
    have width := List.length_pos_iff.mpr (spot.readFrom.nonempty t (List.mem_cons_self ..))
    have bytes := length_le_byteLength t.text
    have stop : t.start + byteLength t.text = 0 := spot.stop
    omega
  exact .before .normal [] front nonempty rfl

/-- What may be put in at a place changes nothing but where the tokens are. -/
theorem Spot.parse (spot : Spot front inserted rest later t earlier) :
    (parse (front ++ (inserted ++ rest))).errors = [] ∧
    (parse (front ++ (inserted ++ rest))).rebase
      (.of (withoutInserted (byteLength front) (byteLength inserted))) = parse (front ++ rest) := by
  by_cases none : inserted = []
  · subst none
    refine ⟨spot.clean, ?_⟩
    rw [List.nil_append, withoutInserted_nothing]
    exact SourceFile.rebase_same _
  obtain ⟨errors, same⟩ := (spot.beside none).parse (fun _ => trivial) spot.near_start
    fun r _ => ⟨fun i _ j _ same => same, fun i _ j _ same => same⟩
  exact ⟨errors, same.trans (SourceFile.rebase_same _)⟩

end Beside

end Insertion

/-- White space and comments between two tokens change nothing but where the
tokens are. -/
theorem parse_inserted {front inserted rest : List Char} (h : Insertion front inserted rest) :
    (parse (front ++ (inserted ++ rest))).errors = [] ∧
      (parse (front ++ (inserted ++ rest))).rebase
        (.of (withoutInserted (byteLength front) (byteLength inserted))) =
        parse (front ++ rest) := by
  obtain ⟨later, t, earlier, place⟩ := h.place
  exact (h.spot place).parse

/-- A comment behind the colon of a condition. -/
theorem parse_inserted_comment :
    Insertion "rule a \x7b condition:".toList " /* b */".toList " true \x7d".toList ∧
      (parse "rule a \x7b condition: /* b */ true \x7d".toList).errors = [] ∧
      (parse "rule a \x7b condition: /* b */ true \x7d".toList).rebase
        (.of (withoutInserted 19 8)) = parse "rule a \x7b condition: true \x7d".toList := by
  have read : (finalState "rule a \x7b condition: true \x7d".toList).read =
      [⟨.symbol .rbrace, 25, ['}']⟩, ⟨.keyword .kwTrue, 20, "true".toList⟩] ++
        ⟨.symbol .colon, 18, [':']⟩ ::
        [⟨.keyword .kwCondition, 9, "condition".toList⟩, ⟨.symbol .lbrace, 7, ['{']⟩,
          ⟨.ident, 5, ['a']⟩, ⟨.keyword .kwRule, 0, "rule".toList⟩] := by decide +kernel
  have insertion :
      Insertion "rule a \x7b condition:".toList " /* b */".toList " true \x7d".toList := by
    refine ⟨by decide +kernel, ⟨_, _, _, read, by decide +kernel,
      ⟨by decide, .inl (by decide)⟩, by decide, by decide⟩, ?_, ?_⟩
    · have comment : Trivia ('/' :: '*' :: (" b */".toList ++ [])) := .block (by decide) .nothing
      exact .white rfl comment
    · intro before body split
      have slash : '/' ∈ "rule a \x7b condition:".toList :=
        split ▸ List.mem_append_right _ (List.mem_cons_self ..)
      exact absurd slash (by decide)
  have text : "rule a \x7b condition:".toList ++ (" /* b */".toList ++ " true \x7d".toList) =
      "rule a \x7b condition: /* b */ true \x7d".toList := by decide
  have before : "rule a \x7b condition:".toList ++ " true \x7d".toList =
      "rule a \x7b condition: true \x7d".toList := by decide
  have place : byteLength "rule a \x7b condition:".toList = 19 := by decide
  have width : byteLength " /* b */".toList = 8 := by decide
  have same := parse_inserted insertion
  rw [text, before, place, width] at same
  exact ⟨insertion, same⟩

end RuleDesk
