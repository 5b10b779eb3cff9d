import RuleDesk.Proofs.Lexing.Cover

namespace RuleDesk

/-- Kinds of tokens that a hex pattern or a jump can have. -/
def Kind.isOfHex : Kind → Bool
  | hexByte | integer | comment | newline | blank => true
  | symbol s =>
    s == .pipe || s == .lparen || s == .rparen || s == .lbracket || s == .rbracket || s == .hyphen
  | _ => false

/-- Kinds of tokens that are words: the reserved ones and the identifiers. -/
def Kind.isWord : Kind → Bool
  | keyword _ | ident => true
  | _ => false

theorem Keyword.text_of_ofText? {s : String} {w : Keyword} (h : ofText? s = some w) :
    s = w.text := by
  have spelled : ∀ entry ∈ table, entry.2 = entry.1.text := by decide
  obtain ⟨entry, found, rfl⟩ := Option.map_eq_some_iff.mp h
  have same : (entry.2 == s) = true :=
    List.find?_some (p := fun entry : Keyword × String => entry.2 == s) found
  rw [← spelled entry (List.mem_of_find?_eq_some found), beq_iff_eq.mp same]

namespace Lexeme

variable {cs : List Char} {l : Lexeme}

theorem newline?_kind (h : newline? cs = some l) : l.kind = .newline := by
  unfold newline? at h
  split at h <;> cases h <;> rfl

theorem blank?_kind (h : blank? cs = some l) : l.kind = .blank := by
  unfold blank? at h
  dsimp only at h
  split at h <;> cases h
  rfl

theorem word?_kind (h : word? cs = some l) : l.kind.isWord := by
  unfold word? at h
  dsimp only at h
  split at h
  · cases h
  · split at h
    · split at h <;> cases h <;> rfl
    · cases h

theorem number?_kind (h : number? cs = some l) : l.kind = .integer ∨ l.kind = .float := by
  rcases Option.or_eq_some_iff.mp h with based | ⟨_, digits⟩
  · unfold prefixed? at based
    dsimp only at based
    split at based <;> (try split at based) <;> cases based <;> exact .inl rfl
  · dsimp only at digits
    split at digits <;> cases digits
    unfold afterDigits
    dsimp only
    split <;> (try split) <;> first | exact .inl rfl | exact .inr rfl

theorem symbol?_kind (h : symbol? cs = some l) : ∃ s, l.kind = .symbol s := by
  obtain ⟨entry, _, rfl⟩ := Option.map_eq_some_iff.mp h
  exact ⟨entry.1, rfl⟩

theorem sigil?_kind (h : sigil? cs = some l) : ∃ s, l.kind = .sigil s := by
  unfold sigil? at h
  split at h
  · cases h
  · obtain ⟨s, _, rfl⟩ := Option.map_eq_some_iff.mp h
    exact ⟨s, rfl⟩

theorem string?_kind (h : string? cs = some l) : l.kind = .string ∨ l.kind = .openString := by
  unfold string? at h
  dsimp only at h
  split at h <;> (try split at h) <;> cases h <;> first | exact .inl rfl | exact .inr rfl

theorem slash?_kind (h : slash? cs = some l) :
    l.kind = .comment ∨ l.kind = .unknown ∨ l.kind = .regexp ∨ l.kind = .openRegexp := by
  unfold slash? regexp? at h
  dsimp only at h
  split at h
  · cases h
    exact .inl rfl
  · split at h <;> cases h
    · exact .inl rfl
    · exact .inr (.inl rfl)
  · split at h
    · cases h
    · split at h <;> cases h
      · exact .inr (.inr (.inl rfl))
      · exact .inr (.inr (.inr rfl))
  · cases h

/-- The reader that a token of normal mode comes from, with what it makes of it. -/
inductive ReadBy (cs : List Char) (l : Lexeme) : Prop
  | word (read : word? cs = some l) (kind : l.kind.isWord)
  | number (read : number? cs = some l) (kind : l.kind = .integer ∨ l.kind = .float)
  | symbol (read : symbol? cs = some l) (kind : ∃ s, l.kind = .symbol s)
  | sigil (read : sigil? cs = some l) (kind : ∃ s, l.kind = .sigil s)
  | string (read : string? cs = some l) (kind : l.kind = .string ∨ l.kind = .openString)
  | slash (read : slash? cs = some l)
      (kind : l.kind = .comment ∨ l.kind = .unknown ∨ l.kind = .regexp ∨ l.kind = .openRegexp)
  | white (read : (newline? cs).or (blank? cs) = some l)
      (kind : l.kind = .newline ∨ l.kind = .blank)
  | unknown (kind : l.kind = .unknown)

theorem normal_or (cs : List Char) : some (normal cs) =
    (word? cs).or ((number? cs).or ((symbol? cs).or ((sigil? cs).or ((string? cs).or ((slash? cs).or
      ((newline? cs).or ((blank? cs).or (some (unknown cs))))))))) := by
  have step : ∀ (o : Option Lexeme) (l : Lexeme), some (o.getD l) = o.or (some l) := fun o l => by
    cases o <;> rfl
  rw [normal, step]
  simp only [Option.or_assoc]

theorem normal_readBy (cs : List Char) : ReadBy cs (normal cs) := by
  have read := (normal_or cs).symm
  generalize normal cs = l at read ⊢
  rcases Option.or_eq_some_iff.mp read with word | ⟨_, read⟩
  · exact .word word (word?_kind word)
  rcases Option.or_eq_some_iff.mp read with number | ⟨_, read⟩
  · exact .number number (number?_kind number)
  rcases Option.or_eq_some_iff.mp read with symbol | ⟨_, read⟩
  · exact .symbol symbol (symbol?_kind symbol)
  rcases Option.or_eq_some_iff.mp read with sigil | ⟨_, read⟩
  · exact .sigil sigil (sigil?_kind sigil)
  rcases Option.or_eq_some_iff.mp read with string | ⟨_, read⟩
  · exact .string string (string?_kind string)
  rcases Option.or_eq_some_iff.mp read with slash | ⟨_, read⟩
  · exact .slash slash (slash?_kind slash)
  rw [← Option.or_assoc] at read
  rcases Option.or_eq_some_iff.mp read with white | ⟨_, unknown⟩
  · refine .white white ((Option.or_eq_some_iff.mp white).imp newline?_kind fun blank =>
      blank?_kind blank.2)
  · cases unknown
    exact .unknown rfl

/-- Only words are read as words. -/
theorem word?_of_normal (h : (normal cs).kind.isWord) : word? cs = some (normal cs) := by
  cases normal_readBy cs with
  | word read => exact read
  | number _ kind | string _ kind | white _ kind =>
    rcases kind with kind | kind <;> rw [kind] at h <;> cases h
  | symbol _ kind | sigil _ kind =>
    obtain ⟨_, kind⟩ := kind
    rw [kind] at h
    cases h
  | slash _ kind => rcases kind with kind | kind | kind | kind <;> rw [kind] at h <;> cases h
  | unknown kind =>
    rw [kind] at h
    cases h

/-- A reserved word is spelled as it is. -/
theorem text_of_keyword {w : Keyword} (h : (normal cs).kind = .keyword w) :
    cs.take (normal cs).size = w.text.toList := by
  have word := word?_of_normal (h ▸ rfl : (normal cs).kind.isWord)
  generalize normal cs = l at h word
  unfold word? at word
  split at word
  · cases word
  dsimp only at word
  split at word
  · split at word
    · rename_i found
      cases word
      cases h
      have text := congrArg String.toList (Keyword.text_of_ofText? found)
      rwa [String.toList_ofList] at text
    · cases word
      cases h
  · cases word

/-- Numbers are read only inside of a jump. -/
theorem hex?_kind (h : hex? cs = some l) : l.kind.isOfHex ∧ l.kind ≠ .integer := by
  unfold hex? at h
  rcases Option.or_eq_some_iff.mp h with byte | ⟨_, h⟩
  · unfold hexByte? at byte
    split at byte <;> first | (split at byte <;> cases byte; exact ⟨rfl, nofun⟩) | cases byte
  rcases Option.or_eq_some_iff.mp h with symbol | ⟨_, h⟩
  · unfold hexSymbol? at symbol
    split at symbol <;> cases symbol <;> exact ⟨rfl, nofun⟩
  rcases Option.or_eq_some_iff.mp h with comment | ⟨_, h⟩
  · unfold hexComment? at comment
    split at comment
    · cases comment
      exact ⟨rfl, nofun⟩
    · obtain ⟨_, _, rfl⟩ := Option.map_eq_some_iff.mp comment
      exact ⟨rfl, nofun⟩
    · cases comment
  rcases Option.or_eq_some_iff.mp h with newline | ⟨_, blank⟩
  · rw [newline?_kind newline]
    exact ⟨rfl, nofun⟩
  · rw [blank?_kind blank]
    exact ⟨rfl, nofun⟩

theorem jump?_kind (h : jump? cs = some l) : l.kind.isOfHex := by
  unfold jump? at h
  rcases Option.or_eq_some_iff.mp h with hyphen | ⟨_, h⟩
  · unfold jumpHyphen? at hyphen
    split at hyphen <;> cases hyphen
    rfl
  rcases Option.or_eq_some_iff.mp h with integer | ⟨_, h⟩
  · unfold jumpInteger? at integer
    rcases Option.or_eq_some_iff.mp integer with based | ⟨_, digits⟩
    · unfold prefixed? at based
      split at based
      · dsimp only at based
        split at based <;> cases based
        rfl
      · dsimp only at based
        split at based <;> cases based
        rfl
      · cases based
    · dsimp only at digits
      split at digits <;> cases digits
      rfl
  rcases Option.or_eq_some_iff.mp h with newline | ⟨_, blank⟩
  · rw [newline?_kind newline]
    rfl
  · rw [blank?_kind blank]
    rfl

end Lexeme

/-- Other kinds of tokens end a hex pattern and are read in normal mode. -/
theorem Mode.read_normal {mode : Mode} {cs : List Char} (h : ¬ (mode.read cs).2.kind.isOfHex) :
    mode.read cs = (.normal, .normal cs) := by
  cases mode with
  | normal => rfl
  | hex =>
    simp only [read] at h ⊢
    cases found : Lexeme.hex? cs with
    | some l =>
      rw [found] at h
      exact (h (Lexeme.hex?_kind found).1).elim
    | none => rfl
  | jump =>
    simp only [read] at h ⊢
    cases found : Lexeme.jump? cs with
    | some l =>
      rw [found] at h
      exact (h (Lexeme.jump?_kind found)).elim
    | none =>
      rw [found] at h
      cases found : Lexeme.hex? cs with
      | some l =>
        rw [found] at h
        exact (h (Lexeme.hex?_kind found).1).elim
      | none => rfl

namespace Cursor

variable {c after : Cursor} {t : Token}

/-- What one token is, by what its mode reads. -/
theorem next?_of_read {mode : Mode} {l : Lexeme} (nonempty : c.rest ≠ [])
    (h : c.mode.read c.rest = (mode, l)) :
    c.next? = some (⟨l.kind, c.offset, c.rest.take l.size⟩,
      ⟨mode, (⟨l.kind, c.offset, c.rest.take l.size⟩ : Token).stop, c.rest.drop l.size⟩) := by
  unfold next?
  rw [if_neg fun empty => nonempty (List.isEmpty_iff.mp empty), h]

theorem rest_ne_nil (h : c.next? = some (t, after)) : c.rest ≠ [] := fun empty => by
  rw [next?_eq_none.mpr empty] at h
  cases h

/-- Tokens that are none of a hex pattern are read in normal mode. -/
theorem next?_normal (h : c.next? = some (t, after)) (other : ¬ t.kind.isOfHex) :
    ({ c with mode := .normal } : Cursor).next? = some (t, after) := by
  have nonempty := rest_ne_nil h
  cases reading : c.mode.read c.rest with
  | mk mode l =>
    rw [next?_of_read nonempty reading] at h
    cases h
    have normal : c.mode.read c.rest = _ := Mode.read_normal (by rw [reading]; exact other)
    rw [reading] at normal
    cases normal
    exact next?_of_read nonempty rfl

theorem next?_ends_hex (h : c.next? = some (t, after)) (other : ¬ t.kind.isOfHex) :
    after.mode = .normal := by
  have normal := next?_normal h other
  rw [next?_of_read (c := { c with mode := .normal }) (rest_ne_nil normal) rfl] at normal
  cases normal
  rfl

/-! ### The tokens with a meaning -/

theorem tokens_of_none (h : c.next? = none) : c.tokens = [] := by
  rw [tokens, tokensEntering, next?_eq_none.mp h]
  rfl

theorem tokens_of_next (h : c.next? = some (t, after)) : c.tokens = t :: after.tokens := by
  have shorter := next?_rest_lt h
  obtain ⟨left, count⟩ : ∃ left, c.rest.length = left + 1 := ⟨c.rest.length - 1, by omega⟩
  have first : c.tokens = t :: tokensFrom (fun _ => []) left 1 after := by
    simp only [tokens, tokensEntering, count, tokensFrom, List.foldl_nil, h]
  have shift :
      ∀ fuel n c, tokensFrom (fun _ => []) fuel n c = tokensFrom (fun _ => []) fuel 0 c := by
    intro fuel
    induction fuel with
    | zero => exact fun _ _ => rfl
    | succ fuel ih =>
      intro n c
      simp only [tokensFrom, List.foldl_nil]
      cases c.next? with
      | none => rfl
      | some entry => exact congrArg (_ :: ·) ((ih _ _).trans (ih _ _).symm)
  rw [first, shift, tokensFrom_ends _ (by omega)]
  rfl

/-- The tokens from a cursor to the end that mean something to the grammar. -/
def solid (c : Cursor) : List Token := c.tokens.filter fun t => !t.kind.isTrivia

theorem solid_of_trivia (h : c.next? = some (t, after)) (trivia : t.kind.isTrivia) :
    c.solid = after.solid := by
  rw [solid, tokens_of_next h, List.filter_cons_of_neg (by rw [trivia]; decide)]
  rfl

/-! ### The next token with a meaning -/

/-- Any fuel will do that is enough for the text left. -/
theorem skipTrivia_fuel {n m : Nat} {c : Cursor} (enough : c.rest.length ≤ n)
    (enough' : c.rest.length ≤ m) :
    skipTrivia n c = skipTrivia m c := by
  induction n generalizing m c with
  | zero =>
    have ended := next?_eq_none.mpr (List.eq_nil_of_length_eq_zero (Nat.le_zero.mp enough))
    cases m with
    | zero => rfl
    | succ m => rw [skipTrivia, skipTrivia, ended]
  | succ n ih =>
    cases m with
    | zero =>
      have ended := next?_eq_none.mpr (List.eq_nil_of_length_eq_zero (Nat.le_zero.mp enough'))
      rw [skipTrivia, skipTrivia, ended]
    | succ m =>
      rw [skipTrivia, skipTrivia]
      cases read : c.next? with
      | none => rfl
      | some entry =>
        have shorter := next?_rest_lt read
        dsimp only
        split
        · exact ih (by omega) (by omega)
        · rfl

theorem nextSolid?_eq (c : Cursor) :
    c.nextSolid? = match c.next? with
      | none => none
      | some (t, after) => if t.kind.isTrivia then after.nextSolid? else some (t, after) := by
  rw [nextSolid?, skipTrivia_fuel (Nat.le_refl _) (Nat.le_succ _), skipTrivia]
  cases read : c.next? with
  | none => rfl
  | some entry =>
    have shorter := next?_rest_lt read
    dsimp only
    split
    · exact skipTrivia_fuel (by omega) (Nat.le_refl _)
    · rfl

theorem nextSolid?_of_none (h : c.next? = none) : c.nextSolid? = none := by
  rw [nextSolid?_eq, h]

theorem nextSolid?_of_trivia (h : c.next? = some (t, after)) (trivia : t.kind.isTrivia) :
    c.nextSolid? = after.nextSolid? := by
  rw [nextSolid?_eq, h]
  exact if_pos trivia

theorem nextSolid?_of_solid (h : c.next? = some (t, after)) (meant : ¬ t.kind.isTrivia) :
    c.nextSolid? = some (t, after) := by
  rw [nextSolid?_eq, h]
  exact if_neg meant

/-- The trivia before a token are passed one by one. -/
theorem nextSolid?_induct {motive : Cursor → Option (Token × Cursor) → Prop}
    (ended : ∀ c, c.next? = none → motive c none)
    (trivia : ∀ c t after, c.next? = some (t, after) → t.kind.isTrivia →
      motive after after.nextSolid? → motive c after.nextSolid?)
    (found : ∀ c t after, c.next? = some (t, after) → ¬ t.kind.isTrivia →
    motive c (some (t, after))) (c : Cursor) :
    motive c c.nextSolid? := by
  induction size : c.rest.length using Nat.strongRecOn generalizing c with
  | _ size ih =>
    cases read : c.next? with
    | none => exact nextSolid?_of_none read ▸ ended c read
    | some entry =>
      obtain ⟨t, after⟩ := entry
      by_cases passed : t.kind.isTrivia
      · exact nextSolid?_of_trivia read passed ▸ trivia c t after read passed
          (ih _ (size ▸ next?_rest_lt read) after rfl)
      · exact nextSolid?_of_solid read passed ▸ found c t after read passed

theorem solid_of_next (h : c.nextSolid? = some (t, after)) : c.solid = t :: after.solid := by
  revert h
  refine nextSolid?_induct (motive := fun c o => o = some (t, after) → c.solid = t :: after.solid)
    ?_ ?_ ?_ c
  · exact fun _ _ => nofun
  · exact fun c u between read trivia ih h => (solid_of_trivia read trivia).trans (ih h)
  · rintro c _ _ read meant ⟨⟩
    rw [solid, tokens_of_next read,
      List.filter_cons_of_pos (by rw [Bool.not_eq_true] at meant; rw [meant]; rfl)]
    rfl

theorem solid_of_none (h : c.nextSolid? = none) : c.solid = [] := by
  revert h
  refine nextSolid?_induct (motive := fun c o => o = none → c.solid = []) ?_ ?_ ?_ c
  · intro c read _
    rw [solid, tokens_of_none read]
    rfl
  · exact fun c u between read trivia ih h => (solid_of_trivia read trivia).trans (ih h)
  · exact fun _ _ _ _ _ => nofun

/-- The next token with a meaning is read at some place behind the cursor. -/
theorem nextSolid?_stands (h : c.nextSolid? = some (t, after)) :
    ∃ d, c.Reaches d ∧ d.next? = some (t, after) ∧ ¬ t.kind.isTrivia := by
  revert h
  refine nextSolid?_induct (motive := fun c o => o = some (t, after) →
    ∃ d, c.Reaches d ∧ d.next? = some (t, after) ∧ ¬ t.kind.isTrivia) ?_ ?_ ?_ c
  · exact fun _ _ none => nomatch none
  · intro c u between read trivia ih found
    obtain ⟨d, reaches, known⟩ := ih found
    exact ⟨d, (next?_reaches read).trans reaches, known⟩
  · rintro c _ _ read meant ⟨⟩
    exact ⟨c, .refl c, read, meant⟩

theorem nextSolid?_nonempty (h : c.nextSolid? = some (t, after)) : t.text ≠ [] := by
  obtain ⟨d, _, read, _⟩ := nextSolid?_stands h
  exact (next?_eq_some read).1

/-- Where a token with a meaning stands, what it is does not depend on what is
before it, unless it may be one of a hex pattern. -/
theorem nextSolid?_alone (h : c.nextSolid? = some (t, after)) (other : ¬ t.kind.isOfHex) :
    ∃ rest, c.Reaches ⟨.normal, t.start, rest⟩ ∧
      (⟨.normal, t.start, rest⟩ : Cursor).solid = t :: after.solid := by
  revert h
  refine nextSolid?_induct (motive := fun c o => o = some (t, after) → ∃ rest,
    c.Reaches ⟨.normal, t.start, rest⟩ ∧
      (⟨.normal, t.start, rest⟩ : Cursor).solid = t :: after.solid) ?_ ?_ ?_ c
  · exact fun _ _ => nofun
  · intro c u between read trivia ih h
    obtain ⟨rest, reaches, solid⟩ := ih h
    exact ⟨rest, (next?_reaches read).trans reaches, solid⟩
  · rintro c _ _ read meant ⟨⟩
    obtain ⟨start, _, _⟩ := next?_place read
    refine ⟨c.rest, ⟨[], rfl, start⟩, solid_of_next (nextSolid?_of_solid ?_ meant)⟩
    rw [start]
    exact next?_normal read other

/-- Tokens from a cursor start behind it. -/
theorem offset_le_of_solid (member : t ∈ c.solid) : c.offset ≤ t.start := by
  have chain := (tokensFrom_chain (fun _ => []) (n := 0) (c := c) (Nat.le_refl _)).1
  obtain ⟨_, _, _, place⟩ := chain.start_of_mem (List.mem_filter.mp member).1
  exact place ▸ Nat.le_add_right _ _

end Cursor

end RuleDesk
