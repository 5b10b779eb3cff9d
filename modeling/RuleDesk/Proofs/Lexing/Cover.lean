import RuleDesk.Proofs.Lexing.Size

namespace RuleDesk

/-- Tokens that have a text each, where each one starts where the one before
it stops. The first starts at the first offset and the last stops at the other. -/
inductive Token.Chain : Nat → List Token → Nat → Prop
  | nil (n : Nat) : Chain n [] n
  | cons {t : Token} {tokens : List Token} {stop : Nat} (nonempty : t.text ≠ [])
      (tail : Chain t.stop tokens stop) : Chain t.start (t :: tokens) stop

def Token.texts (tokens : List Token) : List Char := tokens.flatMap (·.text)

namespace Token.Chain

variable {start stop : Nat} {tokens : List Token}

/-- A token of a chain starts behind the texts of the tokens before it. -/
theorem start_of_mem (chain : Chain start tokens stop) {t : Token} (member : t ∈ tokens) :
    ∃ earlier later, tokens = earlier ++ t :: later ∧
      t.start = start + byteLength (texts earlier) := by
  induction chain with
  | nil => cases member
  | @cons u tokens stop _ _ ih =>
    rcases List.mem_cons.mp member with rfl | member
    · exact ⟨[], tokens, rfl, rfl⟩
    · obtain ⟨earlier, later, rfl, place⟩ := ih member
      refine ⟨u :: earlier, later, rfl, ?_⟩
      rw [place, texts, texts, List.flatMap_cons, byteLength_append, ← Nat.add_assoc]
      rfl

/-- In the text that a chain fills, the bytes of each of its tokens are the
text of the token. Both of its ends are boundaries of characters. -/
theorem slice (chain : Chain 0 tokens stop) {t : Token} (member : t ∈ tokens) :
    sliceBytes? (texts tokens) t.start t.stop = some t.text := by
  obtain ⟨earlier, later, rfl, place⟩ := chain.start_of_mem member
  rw [Nat.zero_add] at place
  have text : texts (earlier ++ t :: later) = texts earlier ++ (t.text ++ texts later) := by
    simp only [texts, List.flatMap_append, List.flatMap_cons]
  have width : t.stop - t.start = byteLength t.text := Nat.add_sub_cancel_left t.start _
  have ordered : t.start ≤ t.stop := Nat.le_add_right t.start _
  rw [sliceBytes?, if_pos ordered, width, text, place, dropBytes?_byteLength_append]
  exact takeBytes?_byteLength_append t.text (texts later)

end Token.Chain

namespace Cursor

@[simp] theorem foldl_enter_rest (modes : List Mode) (c : Cursor) :
    (modes.foldl enter c).rest = c.rest := by
  induction modes generalizing c with
  | nil => rfl
  | cons mode modes ih => rw [List.foldl_cons, ih, enter_rest]

@[simp] theorem foldl_enter_offset (modes : List Mode) (c : Cursor) :
    (modes.foldl enter c).offset = c.offset := by
  induction modes generalizing c with
  | nil => rfl
  | cons mode modes ih => rw [List.foldl_cons, ih, enter_offset]

theorem next?_eq_none {c : Cursor} : c.next? = none ↔ c.rest = [] := by
  unfold next?
  split
  · rename_i empty
    exact ⟨fun _ => List.isEmpty_iff.mp empty, fun _ => rfl⟩
  · rename_i some_left
    exact ⟨(fun none => nomatch none), fun empty => (some_left (List.isEmpty_iff.mpr empty)).elim⟩

/-- What one token takes off a text: the token has a text, starts at the
cursor, and the cursor after it has its end and what follows its text. -/
theorem next?_eq_some {c after : Cursor} {t : Token} (h : c.next? = some (t, after)) :
    t.text ≠ [] ∧ t.start = c.offset ∧ after.offset = t.stop ∧ c.rest = t.text ++ after.rest := by
  obtain ⟨start, stop, text⟩ := next?_place h
  refine ⟨?_, start, stop, text⟩
  unfold next? at h
  split at h
  · cases h
  · rename_i some_left
    have nonempty : c.rest ≠ [] := fun empty => some_left (List.isEmpty_iff.mpr empty)
    have fits := c.mode.read_fits nonempty
    generalize c.mode.read c.rest = reading at h fits
    cases h
    intro empty
    have count := congrArg List.length empty
    rw [List.length_take, Nat.min_eq_left fits.2, List.length_nil] at count
    exact Nat.ne_of_gt fits.1 count

theorem next?_rest_lt {c after : Cursor} {t : Token} (h : c.next? = some (t, after)) :
    after.rest.length < c.rest.length := by
  obtain ⟨nonempty, _, _, split⟩ := next?_eq_some h
  have taken := List.length_pos_iff.mpr nonempty
  rw [split, List.length_append]
  omega

variable (entered : Nat → List Mode)

/-- What is left of a text is filled by the tokens to its end, whenever modes
are gone into on the way. -/
theorem tokensFrom_chain {fuel : Nat} {n : Nat} {c : Cursor} (enough : c.rest.length ≤ fuel) :
    Token.Chain c.offset (tokensFrom entered fuel n c) (c.offset + byteLength c.rest) ∧
      Token.texts (tokensFrom entered fuel n c) = c.rest := by
  induction fuel generalizing n c with
  | zero =>
    have empty := List.eq_nil_of_length_eq_zero (Nat.le_zero.mp enough)
    rw [empty]
    exact ⟨.nil _, rfl⟩
  | succ fuel ih =>
    unfold tokensFrom
    cases read : ((entered n).foldl enter c).next? with
    | none =>
      have empty := next?_eq_none.mp read
      rw [foldl_enter_rest] at empty
      rw [empty]
      exact ⟨.nil _, rfl⟩
    | some entry =>
      obtain ⟨t, after⟩ := entry
      have shorter := next?_rest_lt read
      obtain ⟨nonempty, starts, stops, text⟩ := next?_eq_some read
      simp only [foldl_enter_rest, foldl_enter_offset] at shorter starts text
      obtain ⟨chain, texts⟩ := ih (n := n + 1) (c := after) (by omega)
      have stop : c.offset + byteLength c.rest = after.offset + byteLength after.rest := by
        rw [text, byteLength_append, stops, ← Nat.add_assoc, ← starts]
        rfl
      rw [stop, ← starts]
      refine ⟨.cons nonempty (stops ▸ chain), ?_⟩
      rw [Token.texts, List.flatMap_cons, text]
      exact congrArg (t.text ++ ·) texts

/-- There are no more tokens than characters, however often more are asked for. -/
theorem tokensFrom_ends {fuel : Nat} {n : Nat} {c : Cursor} (enough : c.rest.length ≤ fuel) :
    tokensFrom entered fuel n c = tokensFrom entered c.rest.length n c := by
  induction fuel using Nat.strongRecOn generalizing n c with
  | ind fuel ih =>
    cases fuel with
    | zero => rw [Nat.le_zero.mp enough]
    | succ fuel =>
      cases read : ((entered n).foldl enter c).next? with
      | none =>
        have empty := next?_eq_none.mp read
        rw [foldl_enter_rest] at empty
        simp only [tokensFrom, read, empty, List.length_nil]
      | some entry =>
        obtain ⟨t, after⟩ := entry
        have shorter := next?_rest_lt read
        rw [foldl_enter_rest] at shorter
        obtain ⟨left, count⟩ : ∃ left, c.rest.length = left + 1 := ⟨c.rest.length - 1, by omega⟩
        simp only [count, tokensFrom, read]
        rw [ih fuel (Nat.lt_succ_self _) (by omega), ← ih left (by omega) (by omega)]

end Cursor

/-- The tokens of a text, where modes of the tokenizer are gone into between
them: they come to an end, and one by one they fill the text. -/
structure TokensCover (text : List Char) (entered : Nat → List Mode)
    (tokens : List Token) : Prop where
  /-- However long the tokenizer is asked, it gives these tokens and no more. -/
  finite : ∀ fuel ≥ text.length, Cursor.tokensFrom entered fuel 0 (Cursor.start text) = tokens
  /-- No token is empty, the first starts at the start of the text, each one
  starts where the one before it stops, and the last stops at the end. -/
  chain : Token.Chain 0 tokens (byteLength text)
  texts : Token.texts tokens = text
  /-- Tokens start and stop between two characters of the text. -/
  boundaries : ∀ t ∈ tokens, sliceBytes? text t.start t.stop = some t.text

/-- No byte of a text is lost, repeated or cut out of its character by the
tokenizer, in whatever order and however wrongly its modes are gone into. -/
theorem Cursor.tokensEntering_cover (text : List Char) (entered : Nat → List Mode) :
    TokensCover text entered ((Cursor.start text).tokensEntering entered) := by
  obtain ⟨chain, texts⟩ :
      Token.Chain 0 ((start text).tokensEntering entered) (0 + byteLength text) ∧
      Token.texts ((start text).tokensEntering entered) = text :=
    tokensFrom_chain entered (n := 0) (c := start text) (Nat.le_refl _)
  rw [Nat.zero_add] at chain
  refine ⟨fun fuel enough => tokensFrom_ends entered enough, chain, texts, fun t member => ?_⟩
  have sliced := chain.slice member
  rwa [texts] at sliced

end RuleDesk
