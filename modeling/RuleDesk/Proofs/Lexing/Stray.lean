import RuleDesk.Proofs.Lexing.Break
import RuleDesk.Proofs.Lexing.Reread

namespace RuleDesk

/-! ## Tokens that are not whole

A literal without its closing delimiter goes on to the end of its line, and what nothing
else claims ends at a blank. Where a line loses the blanks at its end, such tokens may
become shorter, fall apart or go away, but no other tokens come of them. -/

/-- Kinds of tokens that are not whole, and of the backslash that an open literal may
leave over. -/
def Kind.isStray : Kind → Bool
  | unknown | openString | openRegexp | symbol .backslash => true
  | _ => false

theorem Kind.not_trivia_of_isStray {k : Kind} (h : k.isStray) : ¬ k.isTrivia := by
  cases k <;> first | exact Bool.false_ne_true | cases h

/-- From one place to another there are tokens of some kinds only. -/
inductive Cursor.Skips (p : Kind → Prop) : Cursor → Cursor → Prop
  | pass {c d : Cursor} (same : c.nextSolid? = d.nextSolid?) : Skips p c d
  | token {c d e : Cursor} {t : Token} (next : c.nextSolid? = some (t, d)) (kind : p t.kind)
      (later : Skips p d e) : Skips p c e

namespace Cursor.Skips

variable {p : Kind → Prop} {c d : Cursor}

theorem behind (same : c.nextSolid? = d.nextSolid?) {e : Cursor} (h : Skips p d e) :
    Skips p c e := by
  cases h with
  | pass next => exact .pass (same.trans next)
  | token next kind later => exact .token (same.trans next) kind later

theorem trans {e : Cursor} (h : Skips p c d) (h' : Skips p d e) : Skips p c e := by
  induction h with
  | pass same => exact h'.behind same
  | token next kind _ ih => exact .token next kind (ih h')

theorem whites {ws rest : List Char} (white : ws.all isWhite) (mode : Mode) (offset : Nat) :
    Skips p ⟨mode, offset, ws ++ rest⟩ ⟨mode, offset + byteLength ws, rest⟩ :=
  .pass (nextSolid?_whites mode offset white rest)

/-- A token at the front of a text. -/
theorem read {k : Kind} {word rest : List Char} {offset : Nat} (nonempty : word ≠ [])
    (read : Lexeme.normal (word ++ rest) = ⟨k, word.length⟩) (kind : p k) (meant : ¬ k.isTrivia)
    (later : Skips p ⟨.normal, offset + byteLength word, rest⟩ d) :
    Skips p ⟨.normal, offset, word ++ rest⟩ d := by
  have reading : Mode.normal.read (word ++ rest) = (.normal, ⟨k, word.length⟩) := by
    rw [Mode.read, read]
  have first := next?_of_read (c := ⟨.normal, offset, word ++ rest⟩)
    (List.append_ne_nil_of_left_ne_nil nonempty rest) reading
  rw [List.take_left, List.drop_left] at first
  exact .token (nextSolid?_of_solid first meant) kind later

end Cursor.Skips

namespace Lexeme

variable {p : Char → Bool} {body rest : List Char} {c : Char}

/-- The text of a literal up to the end of its line, where it is still open. A backslash
at the end is not in the literal. -/
def OpenBody (p : Char → Bool) (body : List Char) : Prop :=
  ∃ front back, body = front ++ back ∧ escapedRunLength p body = front.length ∧
    (back = [] ∨ back = ['\\'])

/-- A literal that is open stays so when the line ends before. -/
theorem openBody_of_le {w : List Char} (long : body.length ≤ escapedRunLength p (body ++ w)) :
    OpenBody p body := by
  induction size : body.length using Nat.strongRecOn generalizing body with
  | _ size ih =>
    match body with
    | [] => exact ⟨[], [], rfl, rfl, .inl rfl⟩
    | c :: body =>
      by_cases escape : c = '\\'
      · subst escape
        match body with
        | [] => exact ⟨[], ['\\'], rfl, rfl, .inr rfl⟩
        | d :: body =>
          simp only [List.cons_append, escapedRunLength, List.length_cons] at long size
          split at long
          · omega
          · rename_i inside
            obtain ⟨front, back, rfl, run, last⟩ := ih body.length (by omega) (by omega) rfl
            refine ⟨'\\' :: d :: front, back, rfl, ?_, last⟩
            rw [escapedRunLength, if_neg inside, run]
            rfl
      · rw [List.cons_append, escapedRunLength_plain _ escape] at long
        simp only [List.length_cons] at long size
        split at long
        · rename_i taken
          obtain ⟨front, back, rfl, run, last⟩ :=
            ih body.length (by omega) (Nat.le_of_add_le_add_right long) rfl
          refine ⟨c :: front, back, rfl, ?_, last⟩
          rw [escapedRunLength_plain _ escape, if_pos taken, run]
          rfl
        · omega

theorem normal_quote (cs : List Char) : some (normal ('"' :: cs)) = string? ('"' :: cs) := by
  have found : (string? ('"' :: cs)).isSome := by
    rw [string?_quote]
    dsimp only
    split <;> rfl
  obtain ⟨l, read⟩ := Option.isSome_iff_exists.mp found
  rw [normal, word?_eq_none.mpr rfl, number?_of_not_digit rfl, show symbol? ('"' :: cs) = none
    from rfl, sigil?_eq_none.mpr rfl, read]
  simp only [Option.none_or, Option.some_or, Option.getD_some]

theorem normal_backslash (cs : List Char) : normal ('\\' :: cs) = ⟨.symbol .backslash, 1⟩ := by
  rw [normal, word?_eq_none.mpr rfl, number?_of_not_digit rfl,
    show symbol? ('\\' :: cs) = some ⟨.symbol .backslash, 1⟩ from rfl]
  simp only [Option.none_or, Option.some_or, Option.getD_some]

/-- A string that is open at the end of its line. -/
theorem normal_openString {front back : List Char} (split : body = front ++ back)
    (run : escapedRunLength (fun c => c != '"' && c != '\n') body = front.length)
    (last : back = [] ∨ back = ['\\']) (rest : List Char) :
    normal ('"' :: (body ++ '\n' :: rest)) = ⟨.openString, front.length + 1⟩ := by
  subst split
  refine Option.some.inj ((normal_quote _).trans ?_)
  rw [string?_quote]
  dsimp only
  rw [escapedRunLength_break (by decide), run, List.append_assoc, List.drop_left, if_neg]
  rcases last with rfl | rfl <;> exact fun head => by cases head

/-- A regular expression that is open at the end of its line. It needs a character. -/
theorem normal_openRegexp {front back : List Char} (split : body = front ++ back)
    (run : escapedRunLength (fun c => c != '/' && c != '\n') body = front.length)
    (last : back = [] ∨ back = ['\\'])
    (no_line : body.head? ≠ some '/') (no_block : body.head? ≠ some '*') (rest : List Char) :
    normal ('/' :: (body ++ '\n' :: rest)) = if front = [] then ⟨.unknown, body.length + 1⟩
      else ⟨.openRegexp, front.length + 1⟩ := by
  subst split
  have head : ∀ d, d ≠ '\n' → (front ++ back).head? ≠ some d →
      (front ++ back ++ '\n' :: rest).head? ≠ some d := by
    intro d other none
    rw [List.head?_append]
    cases first : (front ++ back).head? with
    | none => exact fun same => other (Option.some.inj same).symm
    | some e => rwa [first] at none
  rw [normal_slash, slash?_eq, if_neg (head _ (by decide) no_line),
    if_neg (head _ (by decide) no_block), regexp?_eq]
  dsimp only
  rw [escapedRunLength_break (by decide), run]
  by_cases none : front = []
  · subst none
    rw [if_pos rfl, List.length_nil, if_pos rfl]
    rcases last with rfl | rfl <;> rfl
  · rw [if_neg none, if_neg (fun zero => none (List.eq_nil_of_length_eq_zero zero)),
      List.append_assoc, List.drop_left, if_neg]
    · rfl
    · rcases last with rfl | rfl <;> exact fun head => by cases head

/-- A symbol starts with a character that is a symbol alone, or with the sign of a length. -/
theorem symbol?_none {cs : List Char} (h : symbol? (c :: cs) = none) (other : c ≠ '!')
    (cs' : List Char) : symbol? (c :: cs') = none := by
  have single : Symbol.table.all fun entry => entry.2.head? == some '!' || entry.2.head?.all
      fun d => Symbol.table.any (·.2 == [d]) := by decide
  have missing := List.find?_eq_none.mp (Option.map_eq_none_iff.mp h)
  refine Option.map_eq_none_iff.mpr (List.find?_eq_none.mpr fun entry member starts => ?_)
  obtain ⟨more, split⟩ := List.isPrefixOf_iff_prefix.mp starts
  have nonempty : ∀ entry ∈ Symbol.table, entry.2 ≠ [] := by decide
  obtain ⟨d, text, chars⟩ := List.exists_cons_of_ne_nil (nonempty entry member)
  rw [chars] at split
  cases split
  have known := List.all_eq_true.mp single entry member
  rw [chars, Bool.or_eq_true] at known
  rcases known with same | known
  · exact other (Option.some.inj (beq_iff_eq.mp same))
  · obtain ⟨first, inside, text⟩ := List.any_eq_true.mp known
    exact missing first inside
      (by rw [beq_iff_eq.mp text]; exact List.isPrefixOf_iff_prefix.mpr (List.prefix_append [c] cs))

/-- What nothing else claims is known by its first character, but for a slash. -/
theorem normal_unknown {cs : List Char} (h : (normal (c :: cs)).kind = .unknown) (other : c ≠ '/')
    (cs' : List Char) :
    normal (c :: cs') = unknown (c :: cs') := by
  have read := (normal_or (c :: cs)).symm
  generalize normal (c :: cs) = l at h read
  rcases Option.or_eq_some_iff.mp read with word | ⟨word, read⟩
  · have kind := word?_kind word
    rw [h] at kind
    cases kind
  rcases Option.or_eq_some_iff.mp read with number | ⟨number, read⟩
  · rcases number?_kind number with kind | kind <;> cases h.symm.trans kind
  rcases Option.or_eq_some_iff.mp read with symbol | ⟨symbol, read⟩
  · obtain ⟨_, kind⟩ := symbol?_kind symbol
    cases h.symm.trans kind
  rcases Option.or_eq_some_iff.mp read with sigil | ⟨sigil, read⟩
  · obtain ⟨_, kind⟩ := sigil?_kind sigil
    cases h.symm.trans kind
  rcases Option.or_eq_some_iff.mp read with string | ⟨string, read⟩
  · rcases string?_kind string with kind | kind <;> cases h.symm.trans kind
  rcases Option.or_eq_some_iff.mp read with slash | ⟨_, read⟩
  · rw [slash?_other _ other] at slash
    cases slash
  rcases Option.or_eq_some_iff.mp read with newline | ⟨newline, read⟩
  · cases h.symm.trans (newline?_kind newline)
  rcases Option.or_eq_some_iff.mp read with blank | ⟨blank, _⟩
  · cases h.symm.trans (blank?_kind blank)
  have sign : c ≠ '!' := by
    rintro rfl
    cases sigil
  rw [normal, word?_eq_none.mpr (word?_eq_none.mp word),
    number?_of_not_digit (isDigit_of_number? number), symbol?_none symbol sign,
    sigil?_eq_none.mpr (sigil?_eq_none.mp sigil), string?_eq_none.mpr (string?_eq_none.mp string),
      slash?_other _ other,
    newline?_eq_none.mpr (newline?_eq_none.mp newline),
      blank?_eq_none.mpr (blank?_eq_none.mp blank)]
  rfl

theorem normal_openString_starts {cs : List Char} (h : (normal cs).kind = .openString) :
    ∃ rest, cs = '"' :: rest := by
  cases normal_readBy cs with
  | string read =>
    unfold string? at read
    split at read
    · exact ⟨_, rfl⟩
    · cases read
  | word _ kind => rw [h] at kind; cases kind
  | number _ kind => rcases kind with kind | kind <;> cases h.symm.trans kind
  | symbol _ kind | sigil _ kind =>
    obtain ⟨_, kind⟩ := kind
    cases h.symm.trans kind
  | slash read => rcases slash?_kind read with kind | kind | kind | kind <;> cases h.symm.trans kind
  | white _ kind => rcases kind with kind | kind <;> cases h.symm.trans kind
  | unknown kind => cases h.symm.trans kind

theorem normal_openRegexp_starts {cs : List Char} (h : (normal cs).kind = .openRegexp) :
    ∃ rest, cs = '/' :: rest := by
  cases normal_readBy cs with
  | slash read =>
    unfold slash? at read
    split at read
    · exact ⟨_, rfl⟩
    · exact ⟨_, rfl⟩
    · exact ⟨_, rfl⟩
    · cases read
  | word _ kind => rw [h] at kind; cases kind
  | number _ kind => rcases kind with kind | kind <;> cases h.symm.trans kind
  | symbol _ kind | sigil _ kind =>
    obtain ⟨_, kind⟩ := kind
    cases h.symm.trans kind
  | string read => rcases string?_kind read with kind | kind <;> cases h.symm.trans kind
  | white _ kind => rcases kind with kind | kind <;> cases h.symm.trans kind
  | unknown kind => cases h.symm.trans kind

/-- A run of escape pairs and allowed characters ends at the end of the text, at a
character that is not allowed, or at a backslash with nothing to escape. -/
theorem escapedRunLength_stops (p : Char → Bool) (cs : List Char) :
    cs.drop (escapedRunLength p cs) = [] ∨
    (∃ d rest, cs.drop (escapedRunLength p cs) = d :: rest ∧ d ≠ '\\' ∧ p d = false) ∨
    ∃ rest, cs.drop (escapedRunLength p cs) = '\\' :: rest ∧ ∀ d ∈ rest.head?, d = '\n' := by
  fun_induction escapedRunLength p cs with
  | case1 c rest ends =>
    refine .inr (.inr ⟨c :: rest, rfl, ?_⟩)
    rintro d ⟨⟩
    exact beq_iff_eq.mp ends
  | case2 c rest _ ih => exact ih
  | case3 c rest _ _ ih => exact ih
  | case4 c rest single refused =>
    by_cases escape : c = '\\'
    · subst escape
      cases rest with
      | nil => exact .inr (.inr ⟨[], rfl, by rintro d ⟨⟩⟩)
      | cons d rest => exact (single d rest rfl rfl).elim
    · refine .inr (.inl ⟨c, rest, rfl, escape, Bool.eq_false_iff.mpr fun taken => refused ?_⟩)
      rw [taken, Bool.and_true]
      exact bne_iff_ne.mpr escape
  | case5 => exact .inl rfl

end Lexeme

/-- From the front of a text only such tokens are before what is left of it, which is
what is left of another text, laid out anew. -/
def Strays (ended : Prop) (tail' cs' rest : List Char) : Prop :=
  ∃ rest', Respaced ended rest rest' ∧ ∀ offset, ∃ offset',
    Cursor.Skips (Kind.isStray ·) ⟨.normal, offset, cs' ++ tail'⟩ ⟨.normal, offset', rest' ++ tail'⟩

theorem Strays.behind {ended : Prop} {tail' front cs' rest : List Char}
    (passed : ∀ offset, ∃ offset', Cursor.Skips (Kind.isStray ·)
    ⟨.normal, offset, front ++ (cs' ++ tail')⟩ ⟨.normal, offset', cs' ++ tail'⟩)
    (later : Strays ended tail' cs' rest) : Strays ended tail' (front ++ cs') rest := by
  obtain ⟨rest', spaced, skips⟩ := later
  refine ⟨rest', spaced, fun offset => ?_⟩
  obtain ⟨between, first⟩ := passed offset
  obtain ⟨last, second⟩ := skips between
  rw [List.append_assoc]
  exact ⟨last, first.trans second⟩

theorem Strays.behindWhites {ended : Prop} {tail' ws cs' rest : List Char} (white : ws.all isWhite)
    (later : Strays ended tail' cs' rest) :
    Strays ended tail' (ws ++ cs') rest := later.behind fun _ => ⟨_, .whites white _ _⟩

/-- A stray token at the front. -/
theorem Strays.token {ended : Prop} {tail' word cs' rest : List Char} {k : Kind}
    (nonempty : word ≠ [])
    (read : Lexeme.normal (word ++ (cs' ++ tail')) = ⟨k, word.length⟩) (stray : k.isStray)
    (later : Strays ended tail' cs' rest) :
    Strays ended tail' (word ++ cs') rest :=
  later.behind fun _ =>
    ⟨_, .read nonempty read stray (Kind.not_trivia_of_isStray stray) (.pass rfl)⟩

section Stray

open Lexeme

variable {ended : Prop} {tail tail' : List Char} (tails : Tails ended tail tail') (alive : ¬ ended)

include tails alive

theorem Tails.not_newline : tail.head?.all (· != '\n') ∧ tail ≠ [] := by
  cases tail with
  | nil => exact (alive (tails.ended_iff.mpr rfl)).elim
  | cons d tail =>
    refine ⟨bne_iff_ne.mpr ?_, List.cons_ne_nil _ _⟩
    rintro rfl
    exact nomatch (tails.solid _ rfl).1

/-- A literal that is not closed within a piece of a text goes on to the end of its
line, but for a backslash there. -/
theorem open_body {p : Char → Bool} {delimiter : Char} {cs : List Char}
    (refused : ∀ d, p d = false → d = delimiter ∨ d = '\n')
    (stops : p '\n' = false) (inside : escapedRunLength p (cs ++ tail) ≤ cs.length)
    (left : ((cs ++ tail).drop (escapedRunLength p (cs ++ tail))).head? ≠ some delimiter) :
    ∃ body rest, cs = body ++ rest ∧ body.length = escapedRunLength p (cs ++ tail) ∧ '\n' ∉ body ∧
      (rest.head? = some '\n' ∨ ∃ more, rest = '\\' :: more ∧ more.head? = some '\n') := by
  obtain ⟨no_newline, nonempty⟩ := tails.not_newline alive
  obtain ⟨d, more, rfl⟩ := List.exists_cons_of_ne_nil nonempty
  have solid := tails.solid d rfl
  have single := escapedRunLength_single stops (cs ++ d :: more)
  have ends := escapedRunLength_stops p (cs ++ d :: more)
  generalize escapedRunLength p (cs ++ d :: more) = n at inside left single ends
  rw [List.drop_append_of_le_length inside] at left ends
  rw [List.take_append_of_le_length inside] at single
  refine ⟨cs.take n, cs.drop n, (List.take_append_drop n cs).symm, List.length_take_of_le inside,
    single, ?_⟩
  generalize cs.drop n = rest at left ends
  cases rest with
  | nil =>
    exfalso
    rcases ends with none | ⟨e, _, chars, _, stop⟩ | ⟨_, chars, _⟩
    · cases none
    · cases chars
      rcases refused d stop with rfl | rfl
      · exact left rfl
      · cases no_newline
    · cases chars
      exact solid.2.2.2 rfl
  | cons e rest =>
    rcases ends with none | ⟨_, _, chars, _, stop⟩ | ⟨_, chars, escape⟩
    · cases none
    · cases chars
      rcases refused e stop with rfl | rfl
      · exact (left rfl).elim
      · exact .inl rfl
    · cases chars
      refine .inr ⟨rest, rfl, ?_⟩
      cases rest with
      | nil =>
        rw [escape d rfl] at no_newline
        cases no_newline
      | cons f rest => rw [escape f rfl]; rfl

omit tails in
/-- Where the literal stood there is an open one now, which may leave a backslash over
before the newline. -/
theorem Reflowed.open_body {p : Char → Bool} {body rest cs' : List Char}
    (h : Reflowed ended (body ++ rest) cs') (stops : p '\n' = false)
    (run : escapedRunLength p (body ++ (rest ++ tail)) = body.length) (single : '\n' ∉ body)
    (ends : rest.head? = some '\n' ∨ ∃ more, rest = '\\' :: more ∧ more.head? = some '\n') :
    ∃ front back more', cs' = front ++ (back ++ '\n' :: more') ∧
      escapedRunLength p (front ++ back) = front.length ∧ (back = [] ∨ back = ['\\']) ∧
      (∀ d ∈ (front ++ back).head?, d = '\\' ∨ body.head? = some d) ∧
      (Respaced ended rest ('\n' :: more') ∨ front = body ∧
        Respaced ended rest (back ++ '\n' :: more')) := by
  rcases ends with newline | ⟨more, rfl, newline⟩
  · obtain ⟨body', w, rest', rfl, rfl, _, starts, spaced⟩ := h.to_newline single (.inl newline)
    obtain ⟨more', rfl⟩ := List.head?_eq_some_iff.mp (starts.resolve_right fun none => alive none.2)
    rw [List.append_assoc] at run
    obtain ⟨front, back, rfl, run', last⟩ := openBody_of_le (p := p) (w := w ++ (rest ++ tail))
      (by rw [run, List.length_append]; exact Nat.le_add_right _ _)
    refine ⟨front, back, more', List.append_assoc .., run', last, fun d head => .inr ?_,
      .inl spaced⟩
    rw [List.head?_append, head]
    rfl
  · obtain ⟨more, rfl⟩ := List.head?_eq_some_iff.mp newline
    have piece : Reflowed ended ((body ++ ['\\']) ++ '\n' :: more) cs' := by rwa [List.append_assoc]
    obtain ⟨rest', rfl, inner⟩ := piece.piece
      (fun member => (List.mem_append.mp member).elim single
        fun last => by cases List.mem_singleton.mp last)
      (fun d last => by rw [List.getLast?_concat] at last; cases last; rfl)
    obtain ⟨more', rfl⟩ : ∃ more', rest' = '\n' :: more' := by
      rcases inner.cons_cases with ⟨_, _, starts⟩ | ⟨other, _⟩
      · exact List.head?_eq_some_iff.mp (starts.resolve_right fun none => alive none.2)
      · exact (other rfl).elim
    have before :
        body ++ ('\\' :: '\n' :: more ++ tail) = (body ++ ['\\']) ++ '\n' :: (more ++ tail) := by
      simp only [List.append_assoc, List.cons_append, List.nil_append]
    rw [before, escapedRunLength_break stops] at run
    refine ⟨body, ['\\'], more', List.append_assoc .., run, .inr rfl, fun d head => ?_,
      .inr ⟨rfl, (Reflowed.same (by decide) inner).respaced⟩⟩
    rw [List.head?_append] at head
    cases first : body.head? with
    | none =>
      rw [first] at head
      cases head
      exact .inl rfl
    | some e =>
      rw [first] at head
      exact .inr head

omit tails alive in
/-- What follows an open literal, which may be a backslash that was in it. -/
theorem Strays.behindLiteral {rest front body back more' : List Char}
    (last : back = [] ∨ back = ['\\'])
    (next : Respaced ended rest ('\n' :: more') ∨ front = body ∧
    Respaced ended rest (back ++ '\n' :: more')) :
    Strays ended tail' (back ++ '\n' :: more') rest := by
  rcases next with spaced | ⟨_, spaced⟩
  · have newline : Strays ended tail' ('\n' :: more') rest :=
      ⟨_, spaced, fun offset => ⟨offset, .pass rfl⟩⟩
    rcases last with rfl | rfl
    · exact newline
    · exact newline.token (List.cons_ne_nil _ _) (normal_backslash _) rfl
  · exact ⟨_, spaced, fun offset => ⟨offset, .pass rfl⟩⟩

/-- A string that is left open. -/
theorem Respaced.openString {cs cs' : List Char} (spaced : Respaced ended ('"' :: cs) cs')
    (kind : (normal ('"' :: (cs ++ tail))).kind = .openString)
    (inside : (normal ('"' :: (cs ++ tail))).size ≤ cs.length + 1) :
    Strays ended tail' cs' (('"' :: cs).drop (normal ('"' :: (cs ++ tail))).size) := by
  have read := normal_quote (cs ++ tail)
  rw [string?_quote] at read
  dsimp only at read
  generalize normal ('"' :: (cs ++ tail)) = l at kind inside read ⊢
  split at read
  · cases read
    cases kind
  rename_i left
  cases read
  obtain ⟨body, rest, rfl, length, single, ends⟩ := open_body tails alive
    (fun d refused => by simpa [or_comm, imp_iff_not_or] using refused) (by decide)
      (Nat.le_of_succ_le_succ inside) left
  obtain ⟨v, whole, white, rfl, reflowed⟩ := spaced.cons_solid (c := '"') rfl
  dsimp only
  rw [List.drop_succ_cons, ← length, List.drop_left]
  rw [List.append_assoc] at length
  obtain ⟨front, back, more', rfl, run, last, _, next⟩ :=
    reflowed.open_body alive (by decide) length.symm single ends
  refine Strays.behindWhites white ?_
  rw [← List.cons_append]
  refine Strays.token (k := .openString) (List.cons_ne_nil _ _) ?_ rfl (.behindLiteral last next)
  rw [List.length_cons, ← normal_openString rfl run last (more' ++ tail')]
  simp only [List.cons_append, List.append_assoc]

/-- A regular expression that is left open. -/
theorem Respaced.openRegexp {cs cs' : List Char} (spaced : Respaced ended ('/' :: cs) cs')
    (kind : (normal ('/' :: (cs ++ tail))).kind = .openRegexp)
    (inside : (normal ('/' :: (cs ++ tail))).size ≤ cs.length + 1) :
    Strays ended tail' cs' (('/' :: cs).drop (normal ('/' :: (cs ++ tail))).size) := by
  have read := normal_slash (cs ++ tail)
  rw [slash?_eq, regexp?_eq] at read
  dsimp only at read
  generalize normal ('/' :: (cs ++ tail)) = l at kind inside read ⊢
  split at read
  · subst read
    cases kind
  rename_i no_line
  split at read
  · subst read
    rw [Option.getD_some] at kind
    split at kind <;> cases kind
  rename_i no_block
  split at read
  · subst read
    cases kind
  rename_i some_char
  split at read
  · subst read
    cases kind
  rename_i left
  subst read
  rw [Option.getD_some] at inside ⊢
  obtain ⟨body, rest, rfl, length, single, ends⟩ := open_body tails alive
    (fun d refused => by simpa [or_comm, imp_iff_not_or] using refused) (by decide)
      (Nat.le_of_succ_le_succ inside) left
  obtain ⟨v, whole, white, rfl, reflowed⟩ := spaced.cons_solid (c := '/') rfl
  dsimp only
  rw [List.drop_succ_cons, ← length, List.drop_left]
  rw [← length] at some_char
  obtain ⟨c, body, rfl⟩ := List.exists_cons_of_length_pos (Nat.pos_of_ne_zero some_char)
  rw [List.append_assoc] at length
  obtain ⟨front, back, more', rfl, run, last, heads, next⟩ :=
    reflowed.open_body alive (by decide) length.symm single ends
  refine Strays.behindWhites white ?_
  have other : ∀ d, d ≠ '\\' → c ≠ d → (front ++ back).head? ≠ some d := fun d plain other head =>
    (heads d head).elim plain fun same => other (Option.some.inj same)
  have reads :=
    normal_openRegexp rfl run last (other '/' (by decide) fun same => no_line (congrArg some same))
    (other '*' (by decide) fun same => no_block (congrArg some same)) (more' ++ tail')
  by_cases none : front = []
  · subst none
    rw [if_pos rfl] at reads
    have spaced : Respaced ended rest ('\n' :: more') := next.resolve_right fun same => by
      cases same.1
    rw [List.nil_append, ← List.cons_append]
    refine Strays.token (k := .unknown) (List.cons_ne_nil _ _) ?_ rfl
      (⟨_, spaced, fun offset => ⟨offset, .pass rfl⟩⟩ : Strays ended tail' ('\n' :: more') rest)
    exact reads
  · rw [if_neg none] at reads
    rw [← List.cons_append]
    refine Strays.token (k := .openRegexp) (List.cons_ne_nil _ _) ?_ rfl (.behindLiteral last next)
    rw [List.length_cons, ← reads]
    simp only [List.cons_append, List.append_assoc]

/-- A slash that starts neither a comment nor a regular expression stands at the end of
its line, and so does a backslash behind it. -/
theorem normal_unknown_slash {cs : List Char}
    (kind : (normal ('/' :: (cs ++ tail))).kind = .unknown)
    (inside : (normal ('/' :: (cs ++ tail))).size ≤ cs.length + 1) :
      ∃ back rest, cs = back ++ '\n' :: rest ∧ (back = [] ∨ back = ['\\']) ∧
      ∀ more, normal ('/' :: (back ++ '\n' :: more)) = ⟨.unknown, back.length + 1⟩ := by
  have nonempty := (tails.not_newline alive).2
  have read := normal_slash (cs ++ tail)
  rw [slash?_eq, regexp?_eq] at read
  dsimp only at read
  generalize normal ('/' :: (cs ++ tail)) = l at kind inside read
  split at read
  · subst read
    cases kind
  rename_i no_line
  split at read
  · subst read
    rename_i block
    rw [Option.getD_some] at kind inside
    cases closed : closeComment? (cs ++ tail).tail with
    | some n =>
      rw [closed] at kind
      cases kind
    | none =>
      -- the comment would go on to the end of the text
      rw [closed] at inside
      have some_char := List.length_pos_iff.mpr nonempty
      simp only [List.length_tail, List.length_append] at inside
      omega
  split at read
  · rename_i none
    have first : ∃ back rest, cs = back ++ '\n' :: rest ∧ (back = [] ∨ back = ['\\']) := by
      have refused : ∀ d, (fun c => c != '/' && c != '\n') d = false → d = '/' ∨ d = '\n' :=
        fun d refused => by
        simpa [or_comm, imp_iff_not_or] using refused
      obtain ⟨body, rest, rfl, length, _, ends⟩ :=
        open_body tails alive refused (by decide) (none ▸ Nat.zero_le _)
        (by rw [none]; exact no_line)
      obtain rfl := List.eq_nil_of_length_eq_zero (length.trans none)
      rcases ends with head | ⟨more, rfl, head⟩
      · obtain ⟨more, rfl⟩ := List.head?_eq_some_iff.mp head
        exact ⟨[], more, rfl, .inl rfl⟩
      · obtain ⟨more, rfl⟩ := List.head?_eq_some_iff.mp head
        exact ⟨['\\'], more, rfl, .inr rfl⟩
    obtain ⟨back, rest, split, last⟩ := first
    refine ⟨back, rest, split, last, fun more => ?_⟩
    have reads := @normal_openRegexp back [] back rfl (by rcases last with rfl | rfl <;> rfl) last
      (by rcases last with rfl | rfl <;> decide) (by rcases last with rfl | rfl <;> decide) more
    rwa [if_pos rfl] at reads
  · split at read <;> subst read <;> cases kind

/-- What nothing else claims. -/
theorem Respaced.unknown {c : Char} {cs cs' : List Char} (spaced : Respaced ended (c :: cs) cs')
    (kind : (normal (c :: (cs ++ tail))).kind = .unknown)
    (inside : (normal (c :: (cs ++ tail))).size ≤ cs.length + 1) :
    Strays ended tail' cs' ((c :: cs).drop (normal (c :: (cs ++ tail))).size) := by
  by_cases slash : c = '/'
  · subst slash
    obtain ⟨back, rest, rfl, last, reads⟩ := normal_unknown_slash tails alive kind inside
    have compact : Compact ('/' :: back) := by
      refine .ofAll (List.forall_mem_cons.mpr ⟨rfl, ?_⟩)
      rcases last with rfl | rfl
      · exact nofun
      · exact List.forall_mem_singleton.mpr rfl
    obtain ⟨v, rest', white, rfl, reflowed⟩ := spaced.front (List.cons_ne_nil _ _) compact
    have own : normal ('/' :: (back ++ '\n' :: rest ++ tail)) = ⟨.unknown, back.length + 1⟩ := by
      rw [List.append_assoc]
      exact reads _
    rw [own, ← List.cons_append, show back.length + 1 = ('/' :: back).length from rfl,
      List.drop_left]
    obtain ⟨more', rfl⟩ : ∃ more', rest' = '\n' :: more' := by
      rcases reflowed.cons_cases with ⟨_, _, starts⟩ | ⟨other, _⟩
      · exact List.head?_eq_some_iff.mp (starts.resolve_right fun none => alive none.2)
      · exact (other rfl).elim
    refine Strays.behindWhites white (Strays.token (k := .unknown) (List.cons_ne_nil _ _) ?_ rfl
      ⟨_, reflowed.respaced, fun offset => ⟨offset, .pass rfl⟩⟩)
    exact reads _
  rw [normal_unknown kind slash] at inside ⊢
  by_cases blank : isBlank c
  -- a blank that is no white space is a token alone, which may go away
  · have single : ∀ more, Lexeme.unknown (c :: more) = ⟨.unknown, 1⟩ := fun more => by
      rw [Lexeme.unknown, runLength, blank]
      rfl
    rw [single, List.drop_succ_cons, List.drop_zero]
    rcases spaced.cons_cases with ⟨_, left⟩ | ⟨v, rest', white, _, rfl, reflowed⟩
    · exact ⟨_, left, fun offset => ⟨offset, .pass rfl⟩⟩
    · refine Strays.behindWhites white ?_
      refine Strays.token (k := .unknown) (List.cons_ne_nil c []) ?_ rfl
        ⟨_, reflowed.respaced, fun offset => ⟨offset, .pass rfl⟩⟩
      rw [List.singleton_append, normal_unknown kind slash, single]
      rfl
  · have solid := Bool.eq_false_iff.mpr blank
    have run : ∀ more, Lexeme.unknown (c :: more) =
        ⟨.unknown, runLength (fun c => !isBlank c) more + 1⟩ := fun more => by
      rw [Lexeme.unknown, runLength, if_pos (by rw [solid]; rfl),
        Nat.max_eq_right (Nat.le_add_left ..)]
    rw [run] at inside ⊢
    obtain ⟨front, rest, split, length, all, head⟩ :=
      runLength_split (fun c => !isBlank c) (cs ++ tail)
    rw [← length] at inside ⊢
    obtain ⟨more, rfl, rfl⟩ : ∃ more, cs = front ++ more ∧ rest = more ++ tail := by
      rcases List.append_eq_append_iff.mp split with ⟨more, longer, rfl⟩ | ⟨more, longer, rfl⟩
      · have none : more = [] := List.eq_nil_of_length_eq_zero (by
          have := congrArg List.length longer
          rw [List.length_append] at this
          dsimp only at inside
          omega)
        subst none
        exact ⟨[], by rw [longer, List.append_nil, List.append_nil], rfl⟩
      · exact ⟨more, longer, rfl⟩
    have compact : Compact (c :: front) := .ofAll fun d member => by
      rcases List.mem_cons.mp member with rfl | inside
      · exact solid
      · exact Bool.not_eq_true' _ ▸ List.all_eq_true.mp all d inside
    obtain ⟨v, rest', white, rfl, reflowed⟩ := spaced.front (List.cons_ne_nil _ _) compact
    dsimp only
    rw [List.drop_succ_cons, List.drop_left]
    refine Strays.behindWhites white (Strays.token (k := .unknown) (List.cons_ne_nil _ _) ?_ rfl
      ⟨_, reflowed.respaced, fun offset => ⟨offset, .pass rfl⟩⟩)
    have ends : runLength (fun c => !isBlank c) (rest' ++ tail') = 0 := runLength_eq_zero.mpr ?_
    · rw [List.cons_append, normal_unknown kind slash, run, runLength_of_all all, ends]
      rfl
    have newline : (rest'.head? = some '\n' ∨ rest' = [] ∧ ended) →
        (rest' ++ tail').head?.any (fun c => !isBlank c) = false := fun starts => by
      obtain ⟨more', rfl⟩ :=
        List.head?_eq_some_iff.mp (starts.resolve_right fun none => alive none.2)
      rfl
    cases more with
    | nil => exact newline (reflowed.nil_white rfl).2
    | cons d more =>
      rcases reflowed.cons_cases with ⟨_, _, starts⟩ | ⟨_, more', rfl, _⟩
      · exact newline starts
      · exact head

/-- A token that is not whole, in a piece of a text in normal mode. -/
theorem Respaced.stray {c c' after : Cursor} {cs cs' : List Char} {t : Token}
    (spaced : Respaced ended cs cs') (text : c.rest = cs ++ tail)
    (text' : c'.rest = cs' ++ tail') (normal : c.mode = .normal) (normal' : c'.mode = .normal)
    (next : c.nextSolid? = some (t, after))
    (other : ¬ t.kind.isWhole) (inside : t.stop ≤ c.offset + byteLength cs) :
    ∃ rest rest' offset', after.rest = rest ++ tail ∧ after.mode = .normal ∧
      Respaced ended rest rest' ∧
      Cursor.Skips (Kind.isStray ·) c' ⟨.normal, offset', rest' ++ tail'⟩ := by
  have starts : t.start ≤ t.stop := Nat.le_add_right _ _
  obtain ⟨gap, front, front', mode', rfl, ⟨passed, split, passes⟩, spaced, found, stays, meant⟩ :=
    Respaced.descend tails c text spaced (fun u _ same => by rw [next] at same; cases same; omega)
      (fun none => by rw [next] at none; cases none)
  obtain rfl := stays normal
  rw [next] at found
  have known := passes c'.offset
  have same : c' = ⟨.normal, c'.offset, cs' ++ tail'⟩ := by rw [← normal', ← text']
  rw [normal, ← same] at known
  have meant := meant t after next
  have nonempty := Cursor.rest_ne_nil found
  have fits : (Lexeme.normal (front ++ tail)).size ≤ (front ++ tail).length :=
    (Mode.normal.read_fits nonempty).2
  rw [Cursor.next?_of_read nonempty rfl] at found
  cases found
  -- the token ends within the piece
  have short : (Lexeme.normal (front ++ tail)).size ≤ front.length := by
    obtain ⟨more, longer, _⟩ := exists_append_of_byteLength_le (a := front) (b := tail)
      (List.take_append_drop (Lexeme.normal (front ++ tail)).size (front ++ tail)).symm (by
        simp only [Token.stop, byteLength_append] at inside
        omega)
    have length := congrArg List.length longer
    rw [List.length_append, List.length_take_of_le fits] at length
    omega
  have strays : Strays ended tail' front' (front.drop (Lexeme.normal (front ++ tail)).size) := by
    have kind : ∀ k : Kind, ¬ k.isWhole → ¬ k.isTrivia → k = .openString ∨ k = .openRegexp ∨
        k = .unknown := by
      intro k other meant
      cases k <;> first | exact (other rfl).elim | exact (meant rfl).elim | simp
    cases front with
    | nil => exact absurd (Mode.normal.read_fits nonempty).1 (Nat.not_lt.mpr short)
    | cons d front =>
      rcases kind _ other meant with kind | kind | kind
      · obtain ⟨rest, starts⟩ := normal_openString_starts kind
        cases starts
        exact spaced.openString tails alive kind short
      · obtain ⟨rest, starts⟩ := normal_openRegexp_starts kind
        cases starts
        exact spaced.openRegexp tails alive kind short
      · exact spaced.unknown tails alive kind short
  obtain ⟨rest', left, skips⟩ := strays
  obtain ⟨offset', skips⟩ := skips (c'.offset + byteLength passed)
  exact ⟨_, rest', offset', List.drop_append_of_le_length short, rfl, left, skips.behind known⟩

end Stray

end RuleDesk