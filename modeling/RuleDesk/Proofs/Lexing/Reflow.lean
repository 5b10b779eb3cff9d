import RuleDesk.Proofs.Lexing.Compact
import RuleDesk.Proofs.Lexing.HexComments

namespace RuleDesk

/-! ## Text that is laid out anew

The lines of a text are trimmed and indented anew, and blank ones are dropped or put in. What is
read of the text does not change by this: tokens with a meaning lie within their lines, and comments
end where they ended before. -/

/-- A text and the same text with other blanks around its newlines. Behind the text the blanks
differ as well, and there may be none only where everything has `ended`. -/
inductive Reflowed (ended : Prop) : List Char → List Char → Prop
  | last {w v : List Char} (blank : w.all isBlank) (white : v.all isWhite)
    (starts : v.head? = some '\n' ∨ v = [] ∧ ended) :
    Reflowed ended w v
  | same {c : Char} {cs cs' : List Char} (inside : c ≠ '\n') (later : Reflowed ended cs cs') :
      Reflowed ended (c :: cs) (c :: cs')
  | edge {w v cs cs' : List Char} (blank : w.all isBlank) (broken : '\n' ∈ w)
    (white : v.all isWhite) (starts : v.head? = some '\n')
    (later : Reflowed ended cs cs') : Reflowed ended (w ++ cs) (v ++ cs')

/-- The same where in addition the blanks at the front differ. -/
def Respaced (ended : Prop) (cs cs' : List Char) : Prop :=
  ∃ w v rest rest', cs = w ++ rest ∧ cs' = v ++ rest' ∧ w.all isBlank ∧ v.all isWhite ∧
    Reflowed ended rest rest'

namespace Reflowed

variable {ended : Prop} {c : Char} {cs cs' : List Char}

theorem respaced (h : Reflowed ended cs cs') : Respaced ended cs cs' :=
  ⟨[], [], cs, cs', rfl, rfl, rfl, rfl, h⟩

/-- The first character is dropped as a blank, or it stays. -/
theorem cons_cases (h : Reflowed ended (c :: cs) cs') :
    (isBlank c ∧ Respaced ended cs cs' ∧ (cs'.head? = some '\n' ∨ cs' = [] ∧ ended)) ∨
      (c ≠ '\n' ∧ ∃ rest', cs' = c :: rest' ∧ Reflowed ended cs rest') := by
  generalize text : c :: cs = whole at h
  cases h with
  | last blank white starts =>
    subst text
    obtain ⟨first, later⟩ := Bool.and_eq_true_iff.mp blank
    exact .inl ⟨first, (last later white starts).respaced, starts⟩
  | same inside later =>
    cases text
    exact .inr ⟨inside, _, rfl, later⟩
  | @edge w v rest rest' blank broken white starts later =>
    cases w with
    | nil => exact (List.not_mem_nil broken).elim
    | cons d w =>
      cases text
      obtain ⟨first, others⟩ := Bool.and_eq_true_iff.mp blank
      have head : (v ++ rest').head? = some '\n' := by
        cases v with
        | nil => cases starts
        | cons e v => exact starts
      exact .inl ⟨first, ⟨w, v, rest, rest', rfl, rfl, others, white, later⟩, .inl head⟩

theorem cons_solid (h : Reflowed ended (c :: cs) cs') (solid : isBlank c = false) :
    ∃ rest', cs' = c :: rest' ∧ Reflowed ended cs rest' := by
  rcases h.cons_cases with ⟨blank, _⟩ | ⟨_, stays⟩
  · rw [solid] at blank
    cases blank
  · exact stays

/-- A character that is no blank was there before. -/
theorem head_solid (h : Reflowed ended cs (c :: cs')) (solid : isBlank c = false) :
    cs.head? = some c := by
  have other : c ≠ '\n' := by
    rintro rfl
    cases solid
  generalize text : c :: cs' = whole at h
  cases h with
  | last _ _ starts =>
    subst text
    rcases starts with starts | ⟨none, _⟩
    · exact (other (Option.some.inj starts)).elim
    · cases none
  | same =>
    cases text
    rfl
  | @edge w v _ _ _ _ _ starts =>
    cases v with
    | nil => cases starts
    | cons d v =>
      cases text
      exact (other (Option.some.inj starts)).elim

/-- Nothing becomes blanks. -/
theorem nil_white (h : Reflowed ended cs cs') (nothing : cs = []) :
    cs'.all isWhite ∧ (cs'.head? = some '\n' ∨ cs' = [] ∧ ended) := by
  cases h with
  | last _ white starts => exact ⟨white, starts⟩
  | same => cases nothing
  | edge blank broken =>
    rw [(List.append_eq_nil_iff.mp nothing).1] at broken
    exact (List.not_mem_nil broken).elim

/-- A piece within a line that does not end in a blank stays. -/
theorem piece {front : List Char} (h : Reflowed ended (front ++ cs) cs') (single : '\n' ∉ front)
    (solid : ∀ d ∈ front.getLast?, isBlank d = false) : ∃ rest', cs' = front ++ rest' ∧
    Reflowed ended cs rest' := by
  generalize text : front ++ cs = whole at h
  induction h generalizing front with
  | @last w v blank white starts =>
    cases last : front.getLast? with
    | none =>
      cases List.getLast?_eq_none_iff.mp last
      subst text
      exact ⟨v, rfl, .last blank white starts⟩
    | some d =>
      have inside : d ∈ w := text ▸ List.mem_append_left _ (List.mem_of_getLast? last)
      exact absurd (List.all_eq_true.mp blank d inside) (by rw [solid d last]; decide)
  | @same c rest rest' inside later ih =>
    cases front with
    | nil =>
      subst text
      exact ⟨c :: rest', rfl, .same inside later⟩
    | cons d front =>
      cases text
      have solid' : ∀ e ∈ front.getLast?, isBlank e = false := fun e last => solid e <| by
        cases front with
        | nil => cases last
        | cons => exact last
      obtain ⟨more, rfl, left⟩ :=
        ih (fun member => single (List.mem_cons_of_mem _ member)) solid' rfl
      exact ⟨more, rfl, left⟩
  | @edge w v rest rest' blank broken white starts later ih =>
    cases last : front.getLast? with
    | none =>
      cases List.getLast?_eq_none_iff.mp last
      subst text
      exact ⟨v ++ rest', rfl, .edge blank broken white starts later⟩
    | some d =>
      -- the piece would have to end among the blanks, or to reach over the newline
      rcases List.append_eq_append_iff.mp text with ⟨more, longer, _⟩ | ⟨more, longer, _⟩
      · have inside : d ∈ w := longer ▸ List.mem_append_left _ (List.mem_of_getLast? last)
        exact absurd (List.all_eq_true.mp blank d inside) (by rw [solid d last]; decide)
      · exact (single (longer ▸ List.mem_append_left _ broken)).elim

/-- What is left of the line, and then a newline or the end. -/
theorem line (h : Reflowed ended cs cs') :
    ∃ front rest rest', cs = front ++ rest ∧ cs' = front ++ rest' ∧
    (rest'.head? = some '\n' ∨ rest' = [] ∧ ended) := by
  induction h with
  | @last w v blank white starts => exact ⟨[], w, v, rfl, rfl, starts⟩
  | @same c _ _ _ _ ih =>
    obtain ⟨front, rest, rest', rfl, rfl, starts⟩ := ih
    exact ⟨c :: front, rest, rest', rfl, rfl, starts⟩
  | @edge w v rest rest' blank broken white starts later =>
    refine ⟨[], _, v ++ rest', rfl, rfl, .inl ?_⟩
    cases v with
    | nil => cases starts
    | cons => exact starts

/-- What is left of a line loses the blanks at its end. -/
theorem to_newline {body rest : List Char} (h : Reflowed ended (body ++ rest) cs')
    (single : '\n' ∉ body)
    (ends : rest.head? = some '\n' ∨ rest = [] ∧ ended) : ∃ body' w rest', body = body' ++ w ∧
      cs' = body' ++ rest' ∧ w.all isBlank ∧
      (rest'.head? = some '\n' ∨ rest' = [] ∧ ended) ∧ Respaced ended rest rest' := by
  generalize text : body ++ rest = whole at h
  induction h generalizing body with
  | @last w v blank white starts =>
    subst text
    rw [List.all_append, Bool.and_eq_true] at blank
    exact ⟨[], body, v, rfl, rfl, blank.1, starts, (Reflowed.last blank.2 white starts).respaced⟩
  | @same c later later' inside _ ih =>
    cases body with
    | nil =>
      subst text
      rcases ends with ends | ⟨none, _⟩
      · exact (inside (Option.some.inj ends)).elim
      · cases none
    | cons d body =>
      cases text
      obtain ⟨body', w, rest', rfl, rfl, blank, ends', spaced⟩ :=
        ih (fun member => single (List.mem_cons_of_mem _ member)) rfl
      exact ⟨c :: body', w, rest', rfl, rfl, blank, ends', spaced⟩
  | @edge w v later later' blank broken white starts more ih =>
    have head : (v ++ later').head? = some '\n' := by
      cases v with
      | nil => cases starts
      | cons => exact starts
    rcases List.append_eq_append_iff.mp text with ⟨w', split, split'⟩ | ⟨w', split, _⟩
    · rw [split, List.all_append, Bool.and_eq_true] at blank
      exact ⟨[], body, v ++ later', rfl, rfl, blank.1, .inl head, w', v, later, later', split', rfl,
        blank.2, white, more⟩
    · exact (single (split ▸ List.mem_append_left _ broken)).elim

end Reflowed

namespace Respaced

variable {ended : Prop} {c : Char} {cs cs' : List Char}

theorem cons_cases (h : Respaced ended (c :: cs) cs') : (isBlank c ∧ Respaced ended cs cs') ∨
    ∃ v rest', v.all isWhite ∧ c ≠ '\n' ∧ cs' = v ++ c :: rest' ∧ Reflowed ended cs rest' := by
  obtain ⟨w, v, rest, rest', text, rfl, blank, white, later⟩ := h
  cases w with
  | nil =>
    cases text
    rcases later.cons_cases with ⟨first, ⟨w, v', more, more', rfl, rfl, blank', white', reflowed⟩,
      _⟩ | ⟨inside, more', rfl, reflowed⟩
    · exact .inl ⟨first, w, v ++ v', more, more', rfl, (List.append_assoc ..).symm,
        blank', by rw [List.all_append, white, white']; rfl, reflowed⟩
    · exact .inr ⟨v, more', white, inside, rfl, reflowed⟩
  | cons d w =>
    cases text
    obtain ⟨first, others⟩ := Bool.and_eq_true_iff.mp blank
    exact .inl ⟨first, w, v, rest, rest', rfl, rfl, others, white, later⟩

theorem cons_solid (h : Respaced ended (c :: cs) cs') (solid : isBlank c = false) :
    ∃ v rest', v.all isWhite ∧ cs' = v ++ c :: rest' ∧ Reflowed ended cs rest' := by
  rcases h.cons_cases with ⟨blank, _⟩ | ⟨v, rest', white, _, text, later⟩
  · rw [solid] at blank
    cases blank
  · exact ⟨v, rest', white, text, later⟩

theorem nil_white (h : Respaced ended [] cs') : cs'.all isWhite := by
  obtain ⟨w, v, rest, rest', text, rfl, _, white, later⟩ := h
  rw [List.all_append, white, (later.nil_white (List.append_eq_nil_iff.mp text.symm).2).1]
  rfl

/-- White space at the front may be dropped on one side together with some of it on the other. -/
theorem whites {ws : List Char} (h : Respaced ended (ws ++ cs) cs') (white : ws.all isWhite) :
    ∃ v rest', cs' = v ++ rest' ∧ v.all isWhite ∧ Respaced ended cs rest' := by
  induction ws generalizing cs' with
  | nil => exact ⟨[], cs', rfl, rfl, h⟩
  | cons c ws ih =>
    obtain ⟨first, others⟩ := Bool.and_eq_true_iff.mp white
    rcases h.cons_cases with ⟨_, later⟩ | ⟨v, rest', white', _, rfl, later⟩
    · exact ih later others
    · obtain ⟨v', more, rfl, white'', spaced⟩ := ih later.respaced others
      refine ⟨v ++ c :: v', more, by simp only [List.append_assoc, List.cons_append], ?_, spaced⟩
      rw [List.all_append, List.all_cons, white', first, white'']
      rfl

end Respaced

/-! ### Comments -/

namespace Lexeme

variable {front : List Char}

theorem closeComment?_behind (plain : '*' ∉ front) (cs : List Char) :
    closeComment? (front ++ cs) = (closeComment? cs).map (· + front.length) := by
  induction front with
  | nil => simp
  | cons c front ih =>
    have other : '*' ≠ c := fun same => plain (same ▸ List.mem_cons_self ..)
    have plain : '*' ∉ front := fun member => plain (List.mem_cons_of_mem _ member)
    rw [List.cons_append, closeComment?.eq_2 _ _ fun _ star => (other star.symm).elim, ih plain,
      Option.map_map]
    congr 1

theorem closeHexComment?_behind (plain : '*' ∉ front) (cs : List Char) :
    closeHexComment? (front ++ cs) = (closeHexComment? cs).map (· + front.length) := by
  induction front with
  | nil => simp
  | cons c front ih =>
    have other : '*' ≠ c := fun same => plain (same ▸ List.mem_cons_self ..)
    have plain : '*' ∉ front := fun member => plain (List.mem_cons_of_mem _ member)
    rw [List.cons_append, closeHexComment?_plain _ fun star => other star.symm, ih plain,
      Option.map_map]
    congr 1

theorem closeHexComment?_pair {e : Char} (other : e ≠ '/') (cs : List Char) :
    closeHexComment? ('*' :: e :: cs) = (closeHexComment? cs).map (· + 2) := by
  rw [closeHexComment?_star, List.head?_cons, if_neg fun head => other (Option.some.inj head),
    List.tail_cons]

/-- A comment that is left open is so from a place on where it could not end. -/
theorem closeHexComment?_later {c : Char} {rest : List Char} (other : c ≠ '*') (slash : c ≠ '/')
    (open_ : closeHexComment? (front ++ c :: rest) = none) :
    closeHexComment? (c :: rest) = none := by
  induction size : front.length using Nat.strongRecOn generalizing front with
  | _ size ih =>
    subst size
    cases front with
    | nil => exact open_
    | cons d front =>
      by_cases star : d = '*'
      · subst star
        cases front with
        | nil =>
          rw [List.cons_append, List.nil_append, closeHexComment?_pair slash,
            Option.map_eq_none_iff] at open_
          rw [closeHexComment?_plain _ other, open_]
          rfl
        | cons e front =>
          by_cases closed : e = '/'
          · subst closed
            cases open_
          · rw [List.cons_append, List.cons_append, closeHexComment?_pair closed,
              Option.map_eq_none_iff] at open_
            exact ih front.length (by simp only [List.length_cons]; omega) open_ rfl
      · rw [List.cons_append, closeHexComment?_plain _ star, Option.map_eq_none_iff] at open_
        exact ih front.length (Nat.lt_succ_self _) open_ rfl

theorem closeComment?_nothing (plain : '*' ∉ front) : closeComment? front = none := by
  rw [← List.append_nil front, closeComment?_behind plain]
  rfl

end Lexeme

theorem not_mem_of_blank {c : Char} {cs : List Char} (solid : isBlank c = false)
    (blank : cs.all isBlank) : c ∉ cs := fun member => by
  have := List.all_eq_true.mp blank c member
  rw [solid] at this
  cases this

theorem blank_of_white {cs : List Char} (white : cs.all isWhite) : cs.all isBlank :=
  List.all_eq_true.mpr fun c member => isBlank_of_isWhite (List.all_eq_true.mp white c member)

/-- A block comment that is closed. -/
theorem Reflowed.comment {ended : Prop} {body rest cs' : List Char}
    (h : Reflowed ended (body ++ rest) cs')
    (closed : Lexeme.closeComment? body = some body.length) : ∃ body' rest', cs' = body' ++ rest' ∧
      Lexeme.closeComment? body' = some body'.length ∧ Reflowed ended rest rest' := by
  have star : isBlank '*' = false := rfl
  generalize text : body ++ rest = whole at h
  induction h generalizing body with
  | @last w v blank white starts =>
    rw [← text, List.all_append, Bool.and_eq_true] at blank
    rw [Lexeme.closeComment?_nothing (not_mem_of_blank star blank.1)] at closed
    cases closed
  | @same c later later' inside reflowed ih =>
    cases body with
    | nil => cases closed
    | cons d body =>
      cases text
      by_cases close : c = '*' ∧ body.head? = some '/'
      · obtain ⟨rfl, head⟩ := close
        obtain ⟨body, rfl⟩ := List.head?_eq_some_iff.mp head
        obtain rfl := Lexeme.nothing_behind closed
        obtain ⟨rest', rfl, left⟩ := reflowed.cons_solid rfl
        exact ⟨['*', '/'], rest', rfl, rfl, left⟩
      · obtain ⟨body', rest', rfl, closed', left⟩ :=
          ih (Lexeme.closeComment?_cons closed fun star head => close ⟨star, head⟩) rfl
        refine ⟨c :: body', rest', rfl, ?_, left⟩
        rw [Lexeme.closeComment?.eq_2, closed']
        · rfl
        -- a slash that follows the asterisk now followed it before
        rintro more rfl rfl
        cases body with
        | nil => cases closed
        | cons d body => exact close ⟨rfl, reflowed.head_solid rfl⟩
  | @edge w v later later' blank broken white starts reflowed ih =>
    rcases List.append_eq_append_iff.mp text with ⟨more, split, _⟩ | ⟨more, rfl, rfl⟩
    · rw [split, List.all_append, Bool.and_eq_true] at blank
      rw [Lexeme.closeComment?_nothing (not_mem_of_blank star blank.1)] at closed
      cases closed
    · have plain := not_mem_of_blank star blank
      have plain' := not_mem_of_blank star (blank_of_white white)
      rw [Lexeme.closeComment?_behind plain, List.length_append, Nat.add_comm] at closed
      obtain ⟨body', rest', rfl, closed', left⟩ := ih (Lexeme.map_add_eq_some.mp closed) rfl
      refine ⟨v ++ body', rest', (List.append_assoc ..).symm, ?_, left⟩
      rw [Lexeme.closeComment?_behind plain', closed', List.length_append, Nat.add_comm]
      rfl

/-- A block comment that is closed as in a hex pattern. There an asterisk takes a blank with it. -/
theorem Respaced.hexComment {ended : Prop} {body rest cs' : List Char}
    (h : Respaced ended (body ++ rest) cs')
    (closed : Lexeme.closeHexComment? body = some body.length) :
      ∃ body' rest', cs' = body' ++ rest' ∧
      Lexeme.closeHexComment? body' = some body'.length ∧ Respaced ended rest rest' := by
  have star : isBlank '*' = false := rfl
  induction size : body.length using Nat.strongRecOn generalizing body cs' with
  | _ size ih =>
    subst size
    cases body with
    | nil => cases closed
    | cons c body =>
      by_cases other : c = '*'
      · subst other
        obtain ⟨v, later, white, rfl, reflowed⟩ := h.cons_solid star
        have plain := not_mem_of_blank star (blank_of_white white)
        rw [Lexeme.closeHexComment?_star] at closed
        split at closed
        · rename_i head
          obtain ⟨body, rfl⟩ := List.head?_eq_some_iff.mp head
          obtain rfl : body = [] := List.eq_nil_of_length_eq_zero (by simpa using closed)
          obtain ⟨rest', rfl, left⟩ := reflowed.cons_solid rfl
          refine ⟨v ++ ['*', '/'], rest', by rw [List.append_assoc]; rfl, ?_, left.respaced⟩
          rw [Lexeme.closeHexComment?_behind plain, List.length_append, Nat.add_comm v.length]
          rfl
        · rename_i open_
          cases body with
          | nil => cases closed
          | cons d body =>
            have slash : d ≠ '/' := fun same => open_ (congrArg some same)
            have closed : Lexeme.closeHexComment? body = some body.length :=
              Lexeme.map_add_eq_some.mp closed
            -- the character that the asterisk takes with it, and what is left of the comment
            have pair : ∀ e more, e ≠ '/' → Lexeme.closeHexComment? more = some more.length →
                Lexeme.closeHexComment? (v ++ '*' :: e :: more) =
                  some (v ++ '*' :: e :: more).length := by
              intro e more other closed
              rw [Lexeme.closeHexComment?_behind plain, Lexeme.closeHexComment?_pair other, closed]
              simp only [Option.map_some, List.length_append, List.length_cons]
              congr 1
              omega
            rcases reflowed.cons_cases with ⟨_, spaced, starts⟩ | ⟨_, later, rfl, inner⟩
            · obtain ⟨body', rest', rfl, closed', left⟩ :=
                ih body.length (by simp only [List.length_cons]; omega) spaced closed rfl
              obtain ⟨e, more, rfl⟩ :=
                List.exists_cons_of_ne_nil (l := body') (by rintro rfl; cases closed')
              have newline : e = '\n' := by simpa using starts
              subst newline
              rw [Lexeme.closeHexComment?_plain _ (by decide)] at closed'
              exact ⟨v ++ '*' :: '\n' :: more,
                rest', by simp only [List.append_assoc, List.cons_append],
                pair '\n' more (by decide) (Lexeme.map_add_eq_some.mp closed'), left⟩
            · obtain ⟨body', rest', rfl, closed', left⟩ :=
                ih body.length (by simp only [List.length_cons]; omega) inner.respaced closed rfl
              exact ⟨v ++ '*' :: d :: body',
                rest', by simp only [List.append_assoc, List.cons_append],
                pair d body' slash closed', left⟩
      · rw [Lexeme.closeHexComment?_plain _ other] at closed
        have closed := Lexeme.map_add_eq_some.mp closed
        rcases h.cons_cases with ⟨_, spaced⟩ | ⟨v, later, white, _, rfl, reflowed⟩
        · exact ih body.length (Nat.lt_succ_self _) spaced closed rfl
        · obtain ⟨body', rest', rfl, closed', left⟩ :=
            ih body.length (Nat.lt_succ_self _) reflowed.respaced closed rfl
          refine ⟨v ++ c :: body',
            rest', by simp only [List.append_assoc, List.cons_append], ?_, left⟩
          rw [Lexeme.closeHexComment?_behind (not_mem_of_blank star (blank_of_white white)),
            Lexeme.closeHexComment?_plain _ other, closed']
          simp only [Option.map_some, List.length_append, List.length_cons]
          congr 1
          omega

/-- What stands behind two texts of which one is the other one laid out anew. -/
structure Tails (ended : Prop) (tail tail' : List Char) : Prop where
  ended_iff : ended ↔ tail = []
  nothing : ended → tail' = []
  solid : ∀ c ∈ tail.head?, isBlank c = false ∧ c ≠ '*' ∧ c ≠ '/' ∧ c ≠ '\\'
  -- a hex pattern looks for the end of a comment in all the text behind it
  stillOpen : Lexeme.closeHexComment? tail = none → Lexeme.closeHexComment? tail' = none

/-- A comment that a hex pattern leaves open. -/
theorem Respaced.stillOpen {ended : Prop} {cs cs' tail tail' : List Char}
    (h : Respaced ended cs cs') (tails : Tails ended tail tail')
    (left : Lexeme.closeHexComment? (cs ++ tail) = none) :
    Lexeme.closeHexComment? (cs' ++ tail') = none := by
  have star : isBlank '*' = false := rfl
  have behind : ∀ v more : List Char, v.all isWhite →
    (Lexeme.closeHexComment? (v ++ more) = none ↔ Lexeme.closeHexComment? more = none) :=
    fun v more white => by
      rw [Lexeme.closeHexComment?_behind (not_mem_of_blank star (blank_of_white white)),
        Option.map_eq_none_iff]
  -- a newline is taken by the asterisk before it, and counts for nothing without that
  have newline : ∀ more : List Char, (more.head? = some '\n' ∨ more = []) →
      Lexeme.closeHexComment? more = none → Lexeme.closeHexComment? ('*' :: more) = none := by
    rintro more starts none
    cases more with
    | nil => rfl
    | cons d more =>
      have first : d = '\n' := by simpa using starts
      subst first
      rw [Lexeme.closeHexComment?_plain _ (by decide), Option.map_eq_none_iff] at none
      rw [Lexeme.closeHexComment?_pair (by decide), none]
      rfl
  induction size : cs.length using Nat.strongRecOn generalizing cs cs' with
  | _ size ih =>
    subst size
    cases cs with
    | nil => exact (behind cs' tail' h.nil_white).mpr (tails.stillOpen left)
    | cons c cs =>
      by_cases other : c = '*'
      · subst other
        obtain ⟨v, later, white, rfl, reflowed⟩ := h.cons_solid star
        rw [List.append_assoc, behind v _ white]
        have begins : (later.head? = some '\n' ∨ later = [] ∧ ended) →
            (later ++ tail').head? = some '\n' ∨ later ++ tail' = [] := by
          rintro (starts | ⟨rfl, done⟩)
          · exact .inl (by rw [List.head?_append, starts]; rfl)
          · exact .inr (tails.nothing done)
        cases cs with
        | nil =>
          obtain ⟨white', starts⟩ := reflowed.nil_white rfl
          have open_ : Lexeme.closeHexComment? tail = none := by
            cases tail with
            | nil => rfl
            | cons d tail =>
              have other := tails.solid d rfl
              rw [List.cons_append, List.nil_append, Lexeme.closeHexComment?_pair other.2.2.1,
                Option.map_eq_none_iff] at left
              rw [Lexeme.closeHexComment?_plain _ other.2.1, left]
              rfl
          exact newline _ (begins starts) ((behind later tail' white').mpr (tails.stillOpen open_))
        | cons d cs =>
          have slash : d ≠ '/' := by
            rintro rfl
            cases left
          rw [List.cons_append, List.cons_append, Lexeme.closeHexComment?_pair slash,
            Option.map_eq_none_iff] at left
          have shorter : cs.length < (('*' :: d :: cs).length) := by
            simp only [List.length_cons]; omega
          rcases reflowed.cons_cases with ⟨_, spaced, starts⟩ | ⟨_, later, rfl, inner⟩
          · exact newline _ (begins starts) (ih cs.length shorter spaced left rfl)
          · rw [List.cons_append, List.cons_append, Lexeme.closeHexComment?_pair slash,
              Option.map_eq_none_iff]
            exact ih cs.length shorter inner.respaced left rfl
      · rw [List.cons_append, Lexeme.closeHexComment?_plain _ other, Option.map_eq_none_iff] at left
        rcases h.cons_cases with ⟨_, spaced⟩ | ⟨v, later, white, _, rfl, reflowed⟩
        · exact ih cs.length (Nat.lt_succ_self _) spaced left rfl
        · rw [List.append_assoc, behind v _ white, List.cons_append,
            Lexeme.closeHexComment?_plain _ other, Option.map_eq_none_iff]
          exact ih cs.length (Nat.lt_succ_self _) reflowed.respaced left rfl

end RuleDesk
