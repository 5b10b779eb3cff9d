import RuleDesk.Proofs.Lexing.Cover
import RuleDesk.Token.Tokenizer

namespace RuleDesk

/-! ## One lexer after the other

A tokenizer changes its mode with a new lexer, started on the rest of the text. Its places count
from there, and are moved to the source by the offset of that start. A cursor goes through the text
once and counts from its front. Both find the same tokens at the same places. -/

/-- Where a mode fails, the enclosing one reads. -/
theorem Mode.read_eq (mode : Mode) (cs : List Char) :
    mode.read cs =
      match mode.lexeme? cs with
      | some lexeme => (mode, lexeme)
      | none => mode.enclosing.read cs := by
  cases mode with
  | normal => rfl
  | hex =>
    rw [read, lexeme?]
    cases Lexeme.hex? cs <;> rfl
  | jump =>
    rw [read, lexeme?]
    cases Lexeme.jump? cs <;> rfl

/-- In the offsets of a text that a span can hold, it is moved without a loss. -/
theorem Span.moveRight_eq {s : Span} {n : Nat} (ordered : s.start ≤ s.stop)
    (fits : n + s.stop ≤ maxOffset) : s.moveRight n = ⟨n + s.start, n + s.stop⟩ := by
  have small : n % 0x100000000 = n := Nat.mod_eq_of_lt (by unfold maxOffset at fits; omega)
  simp only [moveRight, small, Span.mk.injEq]
  constructor <;> omega

namespace Tokenizer

/-- A tokenizer and a cursor at the same place of a text. -/
structure At (text : List Char) (t : Tokenizer) (c : Cursor) : Prop where
  source : t.source = text
  mode : t.mode = c.mode
  started : ∃ front, text = front ++ t.lexer.text ∧ byteLength front = t.startedAt
  rest : ∃ passed, t.lexer.text = passed ++ c.rest ∧ byteLength passed = t.lexer.span.stop
  offset : c.offset = t.startedAt + t.lexer.span.stop

namespace At

variable {text : List Char} {t : Tokenizer} {c : Cursor}

theorem unread (h : At text t c) : dropBytes? t.lexer.text t.lexer.span.stop = some c.rest := by
  obtain ⟨passed, split, place⟩ := h.rest
  rw [split, ← place]
  exact dropBytes?_byteLength_append passed c.rest

/-- A new lexer starts where the one before it stopped. -/
theorem restart (h : At text t c) (mode : Mode) :
    ∃ t', t.restart? t.lexer.span.stop mode = some t' ∧ At text t' { c with mode } := by
  obtain ⟨front, whole, place⟩ := h.started
  obtain ⟨passed, split, place'⟩ := h.rest
  have source : t.source = (front ++ passed) ++ c.rest := by
    rw [h.source, whole, split, List.append_assoc]
  have offset : t.startedAt + t.lexer.span.stop = byteLength (front ++ passed) := by
    rw [byteLength_append, place, place']
  let restarted : Tokenizer :=
    { t with startedAt := t.startedAt + t.lexer.span.stop, mode, lexer := .start c.rest }
  refine ⟨restarted, ?_, h.source, rfl, ⟨front ++ passed, h.source.symm.trans source, offset.symm⟩,
    ⟨[], rfl, rfl⟩, h.offset⟩
  rw [restart?, source, offset, dropBytes?_byteLength_append]
  simp only [restarted, Option.map_some, source, offset]

/-- Going into a mode loses no place. -/
theorem enter (h : At text t c) (mode : Mode) :
    ∃ t', t.enter? mode = some t' ∧ At text t' (c.enter mode) := by
  have stays : c.enter mode = c → ¬ (mode ≠ .normal ∧ t.mode = mode.enclosing) →
      ∃ t', t.enter? mode = some t' ∧ At text t' (c.enter mode) := fun same other =>
    ⟨t, if_neg other, same.symm ▸ h⟩
  have goes : mode ≠ .normal → t.mode = mode.enclosing → c.enter mode = { c with mode } →
      ∃ t', t.enter? mode = some t' ∧ At text t' (c.enter mode) := by
    intro other from_there same
    obtain ⟨t', restarted, place⟩ := h.restart mode
    exact ⟨t', (if_pos ⟨other, from_there⟩).trans restarted, same.symm ▸ place⟩
  cases mode with
  | normal => exact stays rfl fun other => other.1 rfl
  | hex =>
    by_cases outside : c.mode = .normal
    · exact goes nofun (h.mode.trans outside) (if_pos outside)
    · exact stays (if_neg outside) fun other => outside (h.mode.symm.trans other.2)
  | jump =>
    by_cases inside : c.mode = .hex
    · exact goes nofun (h.mode.trans inside) (if_pos inside)
    · exact stays (if_neg inside) fun other => inside (h.mode.symm.trans other.2)

theorem enterAll (h : At text t c) (modes : List Mode) :
    ∃ t', modes.foldlM enter? t = some t' ∧ At text t' (modes.foldl Cursor.enter c) := by
  induction modes generalizing t c with
  | nil => exact ⟨t, rfl, h⟩
  | cons mode modes ih =>
    obtain ⟨between, first, place⟩ := h.enter mode
    obtain ⟨t', others, place'⟩ := ih place
    exact ⟨t', by rw [List.foldlM_cons, first]; exact others, place'⟩

/-- At the end of the text no lexer has a token. -/
theorem next_of_ended (h : At text t c) (ended : c.next? = none) : t.next? = some none := by
  have nothing := h.unread
  rw [Cursor.next?_eq_none.mp ended] at nothing
  rw [next?, nextOf?, Lexer.next?, nothing]
  rfl

/-- Where text is left, the answer of a lexer is the lexeme of its mode. -/
theorem answer (h : At text t c) (some_left : c.rest ≠ []) :
    t.lexer.next? t.mode =
      match c.mode.lexeme? c.rest with
      | none => some .failed
      | some lexeme => some (.token lexeme.kind ⟨t.lexer.text,
          ⟨t.lexer.span.stop, t.lexer.span.stop + byteLength (c.rest.take lexeme.size)⟩⟩) := by
  rw [Lexer.next?, h.unread, h.mode]
  generalize c.rest = cs at some_left ⊢
  cases cs with
  | nil => exact absurd rfl some_left
  | cons d ds => cases found : c.mode.lexeme? (d :: ds) <;> simp only [found]

/-- The lexer of the mode in which a cursor reads its next token finds it. -/
theorem lexed (short : byteLength text ≤ Span.maxOffset) (h : At text t c) (some_left : c.rest ≠ [])
    {lexeme : Lexeme} (found : c.mode.lexeme? c.rest = some lexeme) {token : Token} {after : Cursor}
    (next : c.next? = some (token, after)) :
    ∃ lexer, t.lexer.next? t.mode = some (.token token.kind lexer) ∧
      lexer.span.moveRight t.startedAt = token.span ∧ At text { t with lexer } after := by
  have reading : c.mode.read c.rest = (c.mode, lexeme) := by rw [Mode.read_eq, found]
  rw [Cursor.next?, if_neg (mt List.isEmpty_iff.mp some_left), reading] at next
  cases next
  obtain ⟨front, whole, place⟩ := h.started
  obtain ⟨passed, split, place'⟩ := h.rest
  have cut : c.rest = c.rest.take lexeme.size ++ c.rest.drop lexeme.size :=
    (List.take_append_drop _ _).symm
  refine ⟨⟨t.lexer.text, ⟨t.lexer.span.stop,
    t.lexer.span.stop + byteLength (c.rest.take lexeme.size)⟩⟩, ?_, ?_, ?_⟩
  · rw [h.answer some_left, found]
  · have bytes : byteLength text = byteLength front + (byteLength passed +
        (byteLength (c.rest.take lexeme.size) + byteLength (c.rest.drop lexeme.size))) := by
      rw [whole, split, byteLength_append, byteLength_append, ← byteLength_append (c.rest.take _),
        ← cut]
    rw [Span.moveRight_eq (Nat.le_add_right _ _) (by dsimp only; omega)]
    simp only [Token.span, Token.stop, h.offset, Nat.add_assoc]
  · refine ⟨h.source, h.mode, ⟨front, whole, place⟩, ⟨passed ++ c.rest.take lexeme.size, ?_, ?_⟩, ?_⟩
    · rw [List.append_assoc, ← cut]
      exact split
    · rw [byteLength_append, place']
    · simp only [Token.stop, h.offset, Nat.add_assoc]

/-- A cursor whose mode cannot read goes on in the enclosing mode. -/
theorem next?_of_failed (failed : c.mode.lexeme? c.rest = none) :
    ({ c with mode := c.mode.enclosing } : Cursor).next? = c.next? := by
  rw [Cursor.next?, Cursor.next?, Mode.read_eq c.mode, failed]

/-- With a lexer for each of the modes that are left, the next token is found. -/
theorem nextOf (short : byteLength text ≤ Span.maxOffset) {n : Nat} (h : At text t c)
    (enough : c.mode = .normal ∧ 1 ≤ n ∨ c.mode = .hex ∧ 2 ≤ n ∨ 3 ≤ n) {token : Token}
    {after : Cursor} (next : c.next? = some (token, after)) :
    ∃ t', t.nextOf? n = some (some ((token.kind, token.span), t')) ∧ At text t' after := by
  have some_left : c.rest ≠ [] := fun empty => by
    rw [Cursor.next?_eq_none.mpr empty] at next
    cases next
  induction n generalizing t c with
  | zero => omega
  | succ n ih =>
    rw [nextOf?]
    cases found : c.mode.lexeme? c.rest with
    | some lexeme =>
      obtain ⟨lexer, answer, span, place⟩ := h.lexed short some_left found next
      exact ⟨{ t with lexer }, by rw [answer, ← span]; rfl, place⟩
    | none =>
      obtain ⟨t', restarted, place⟩ := h.restart t.mode.enclosing
      have answer : t.lexer.next? t.mode = some .failed := by rw [h.answer some_left, found]
      rw [h.mode] at place restarted
      have fewer : c.mode.enclosing = .normal ∧ 1 ≤ n ∨ c.mode.enclosing = .hex ∧ 2 ≤ n ∨ 3 ≤ n := by
        cases mode : c.mode with
        | normal =>
          rw [mode] at found
          cases found
        | hex => exact .inl ⟨rfl, by simp [mode] at enough; omega⟩
        | jump => exact .inr (.inl ⟨rfl, by simp [mode] at enough; omega⟩)
      obtain ⟨t'', later, place'⟩ := ih place fewer ((next?_of_failed found).trans next) some_left
      refine ⟨t'', ?_, place'⟩
      rw [answer, h.mode]
      simp only [Option.bind_eq_bind, Option.bind_some, restarted]
      exact later

end At

/-- A tokenizer gives the tokens that a cursor at its place gives, whatever modes are gone into on
the way. -/
theorem tokensFrom?_eq {text : List Char} (short : byteLength text ≤ Span.maxOffset)
    (entered : Nat → List Mode) {fuel n : Nat} {t : Tokenizer} {c : Cursor} (h : At text t c) :
    tokensFrom? entered fuel n t =
      some ((Cursor.tokensFrom entered fuel n c).map fun token => (token.kind, token.span)) := by
  induction fuel generalizing n t c with
  | zero => rfl
  | succ fuel ih =>
    obtain ⟨t', gone, place⟩ := h.enterAll (entered n)
    rw [tokensFrom?, Cursor.tokensFrom, gone]
    cases next : ((entered n).foldl Cursor.enter c).next? with
    | none =>
      rw [Option.bind_eq_bind, Option.bind_some, place.next_of_ended next]
      rfl
    | some entry =>
      obtain ⟨token, after⟩ := entry
      obtain ⟨t'', answer, place'⟩ := place.nextOf short (.inr (.inr (Nat.le_refl 3))) next
      have later := ih (n := n + 1) place'
      simp only [Option.bind_eq_bind, Option.bind_some]
      rw [next?, answer]
      simp only [Option.bind_some, later]
      rfl

/-- The program's tokenizer never slices a text inside of a character, and its tokens are the ones
of the cursor, in any text that it takes and with any modes gone into. -/
theorem tokensEntering?_eq {text : List Char} (short : byteLength text < Span.maxOffset)
    (entered : Nat → List Mode) :
    tokensEntering? entered text =
      some (((Cursor.start text).tokensEntering entered).map fun token =>
        (token.kind, token.span)) := by
  have place : At text ⟨text, 0, .normal, .start text⟩ (Cursor.start text) :=
    ⟨rfl, rfl, ⟨[], rfl, rfl⟩, ⟨[], rfl, rfl⟩, rfl⟩
  rw [tokensEntering?, new?, if_pos short]
  exact tokensFrom?_eq (Nat.le_of_lt short) entered place

/-- Behind the bracket the jump's lexer is started, and at the closing one that of the pattern. -/
example :
    tokensEntering? (fun n => if n = 1 then [.hex] else if n = 2 then [.jump] else [])
        "\x7b[1]\x7d".toList =
      some [(.symbol .lbrace, ⟨0, 1⟩), (.symbol .lbracket, ⟨1, 2⟩), (.integer, ⟨2, 3⟩),
        (.symbol .rbracket, ⟨3, 4⟩), (.symbol .rbrace, ⟨4, 5⟩)] := by
  decide +kernel

end Tokenizer

end RuleDesk
