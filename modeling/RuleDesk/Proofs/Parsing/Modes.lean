import RuleDesk.Proofs.Lexing.Solid
import RuleDesk.Proofs.Parsing.Rules

namespace RuleDesk

/-! ## The tokens that a parse has read

A parse tells which tokens it has read, but not in which modes it read them. Only
behind a brace a hex pattern may start, and a token that no hex pattern has ends
it. So behind most tokens the tokenizer is in normal mode, whatever came before. -/

/-- The offset behind some tokens, the latest one first. -/
def stopOf : List Token → Nat
  | [] => 0
  | t :: _ => t.stop

/-- True behind tokens, the latest one first, where the tokenizer is in normal
mode for sure. A brace behind an equal sign opens a hex pattern. -/
def SurelyNormal : List Token → Prop
  | [] => True
  | t :: earlier =>
    (t.kind = .symbol .lbrace → earlier.head?.map (·.kind) ≠ some (.symbol .equal)) ∧
    (¬ t.kind.isOfHex ∨ SurelyNormal earlier)

theorem Kind.looksBeyond_settled {k : Kind} (h : k.looksBeyond) : ¬ k.OpensMode ∧ ¬ k.isOfHex := by
  refine ⟨?_, ?_⟩
  · rintro ⟨mode, opens⟩
    cases mode <;> cases opens <;> exact Bool.false_ne_true h
  · cases k with
    | keyword w => exact Bool.false_ne_true
    | symbol symbol =>
      cases symbol <;> first | exact Bool.false_ne_true | exact fun _ => Bool.false_ne_true h
    | ident => exact Bool.false_ne_true
    | sigil s => exact Bool.false_ne_true
    | _ => exact (Bool.false_ne_true h).elim

namespace Cursor

variable {c after : Cursor} {t : Token}

theorem next?_stays_normal (h : c.next? = some (t, after)) (normal : c.mode = .normal) :
    after.mode = .normal := by
  rw [next?_of_read (rest_ne_nil h)
    (by rw [normal]; rfl : c.mode.read c.rest = (.normal, .normal c.rest))] at h
  cases h
  rfl

theorem nextSolid?_stays_normal (h : c.nextSolid? = some (t, after)) (normal : c.mode = .normal) :
    after.mode = .normal := by
  revert h normal
  refine nextSolid?_induct (motive := fun c o => o = some (t, after) → c.mode = .normal →
    after.mode = .normal) ?_ ?_ ?_ c
  · exact fun _ _ none => nomatch none
  · exact fun c u between read trivia ih found normal => ih found (next?_stays_normal read normal)
  · rintro c _ _ read _ ⟨⟩ normal
    exact next?_stays_normal read normal

theorem nextSolid?_ends_hex (h : c.nextSolid? = some (t, after)) (other : ¬ t.kind.isOfHex) :
    after.mode = .normal := by
  revert h
  refine nextSolid?_induct (motive := fun _ o => o = some (t, after) → after.mode = .normal)
    ?_ ?_ ?_ c
  · exact fun _ _ none => nomatch none
  · exact fun _ _ _ _ _ ih => ih
  · rintro c _ _ read _ ⟨⟩
    exact next?_ends_hex read other

/-- Which mode is gone into depends on the mode before only. -/
theorem enter_uniform (old mode : Mode) :
    ∃ new, ∀ offset text, (⟨old, offset, text⟩ : Cursor).enter mode = ⟨new, offset, text⟩ := by
  cases mode with
  | normal => exact ⟨old, fun _ _ => rfl⟩
  | hex => cases old <;> exact ⟨_, fun _ _ => rfl⟩
  | jump => cases old <;> exact ⟨_, fun _ _ => rfl⟩

/-- A cursor that may be the one behind some tokens of a text. -/
structure Behind (text : List Char) (tokens : List Token) (c : Cursor) : Prop where
  place : (start text).Reaches c
  stop : c.offset = stopOf tokens
  normal : SurelyNormal tokens → c.mode = .normal

/-- Cursors at one offset have the same text before them. -/
theorem Reaches.rest_eq {c d e : Cursor} (h : c.Reaches d) (h' : c.Reaches e)
    (offset : d.offset = e.offset) : d.rest = e.rest := by
  obtain ⟨front, text, stop⟩ := h
  obtain ⟨front', text', stop'⟩ := h'
  have bytes : byteLength front = byteLength front' := by omega
  have dropped := dropBytes?_byteLength_append front d.rest
  rw [← text, text', bytes, dropBytes?_byteLength_append front' e.rest] at dropped
  exact (Option.some.inj dropped).symm

/-- Where the mode is known there is one cursor only. -/
theorem Behind.eq {text : List Char} {tokens : List Token} {d : Cursor} (h : Behind text tokens c)
    (h' : Behind text tokens d) (normal : SurelyNormal tokens) : c = d := by
  have offset : c.offset = d.offset := h.stop.trans h'.stop.symm
  have rest := h.place.rest_eq h'.place offset
  have mode := (h.normal normal).trans (h'.normal normal).symm
  cases c
  cases d
  subst offset rest mode
  rfl

end Cursor

/-- Tokens of a text, the latest one first, each of which is the next one behind
those before it. -/
inductive ReadFrom (text : List Char) : List Token → Prop
  | nothing : ReadFrom text []
  | token {earlier : List Token} {c after : Cursor} {t : Token} (before : ReadFrom text earlier)
      (behind : c.Behind text earlier) (next : c.nextSolid? = some (t, after)) :
      ReadFrom text (t :: earlier)

namespace ReadFrom

variable {text : List Char} {tokens later : List Token} {t : Token}

theorem earlier (h : ReadFrom text (later ++ tokens)) : ReadFrom text tokens := by
  induction later with
  | nil => exact h
  | cons t later ih =>
    cases h with
    | token before => exact ih before

theorem nonempty (h : ReadFrom text tokens) : ∀ t ∈ tokens, t.text ≠ [] := by
  induction h with
  | nothing => exact fun _ none => (List.not_mem_nil none).elim
  | token _ _ next ih => exact List.forall_mem_cons.mpr ⟨Cursor.nextSolid?_nonempty next, ih⟩

/-- All tokens end before the offset behind the latest one. -/
theorem stop_le (h : ReadFrom text tokens) : ∀ t ∈ tokens, t.stop ≤ stopOf tokens := by
  induction h with
  | nothing => exact fun _ none => (List.not_mem_nil none).elim
  | @token earlier c after u _ behind next ih =>
    refine List.forall_mem_cons.mpr ⟨Nat.le_refl _, fun t member => ?_⟩
    obtain ⟨start, _, _⟩ := Cursor.nextSolid?_place next
    exact Nat.le_trans (ih t member) (Nat.le_trans (behind.stop ▸ start) (Nat.le_add_right _ _))

theorem ordered (h : ReadFrom text tokens) : tokens.Pairwise fun t u => u.stop ≤ t.start := by
  induction h with
  | nothing => exact .nil
  | @token earlier c after t before behind next ih =>
    refine .cons (fun u member => ?_) ih
    obtain ⟨start, _, _⟩ := Cursor.nextSolid?_place next
    exact Nat.le_trans (before.stop_le u member) (behind.stop ▸ start)

/-- A token stands where it says. -/
theorem stands (h : ReadFrom text tokens) :
    ∀ t ∈ tokens, ∃ c after : Cursor, (Cursor.start text).Reaches c ∧
    c.offset = t.start ∧ ¬ t.kind.isTrivia ∧ c.next? = some (t, after) := by
  induction h with
  | nothing => exact fun _ none => (List.not_mem_nil none).elim
  | @token earlier c after t _ behind next ih =>
    refine List.forall_mem_cons.mpr ⟨?_, ih⟩
    obtain ⟨d, reaches, read, meant⟩ := Cursor.nextSolid?_stands next
    exact ⟨d, after, behind.place.trans reaches, (Cursor.next?_place read).1.symm, meant, read⟩

/-- Where the mode is known, the next token is the one that was read. -/
theorem next (h : ReadFrom text (t :: tokens)) {c : Cursor} (behind : c.Behind text tokens)
    (normal : SurelyNormal tokens) :
    ∃ after, c.nextSolid? = some (t, after) := by
  cases h with
  | @token _ d after _ _ behind' next => exact ⟨after, behind.eq behind' normal ▸ next⟩

end ReadFrom

namespace ParseState

/-- What is known of every state of the parse of a text. -/
structure Tracked (text : List Char) (s : ParseState) : Prop where
  behind : s.input.here.Behind text s.read
  read : ReadFrom text s.read

namespace Tracked

variable {text : List Char} {s : ParseState}

theorem initial (text : List Char) : (Parser.initial text).Tracked text :=
  ⟨⟨.refl _, rfl, fun _ => rfl⟩, .nothing⟩

theorem withDepth (h : s.Tracked text) (n : Nat) :
    ({ s with depth := n } : ParseState).Tracked text := ⟨h.behind, h.read⟩

theorem ahead (h : s.Tracked text) {t : Token} {after : Cursor}
    (next : s.input.ahead = some (t, after)) :
    after.Behind text (t :: s.read) := by
  obtain ⟨_, stop, step⟩ := Input.ahead_place next
  have solid := s.input.ahead_eq.symm.trans next
  refine ⟨h.behind.place.trans step, stop, fun ⟨_, normal⟩ => ?_⟩
  rcases normal with other | normal
  · exact Cursor.nextSolid?_ends_hex solid other
  · exact Cursor.nextSolid?_stays_normal solid (h.behind.normal normal)

theorem advanced (h : s.Tracked text) {mode : Mode}
    (braced : mode = .hex → s.kindAhead? = some (.symbol .lbrace) ∧ s.justRead (.symbol .equal)) :
    (s.advanced mode).Tracked text := by
  cases next : s.input.ahead with
  | none =>
    rw [ParseState.advanced_of_none (by rw [next?, next]; rfl)]
    exact h
  | some entry =>
    obtain ⟨t, after⟩ := entry
    have behind := h.ahead next
    have read : ReadFrom text (t :: s.read) :=
      .token h.read h.behind (s.input.ahead_eq.symm.trans next)
    have state : s.advanced mode = s.take t (after.enter mode) := by rw [ParseState.advanced, next]
    rw [state]
    refine ⟨⟨behind.place.enter mode, ?_, fun normal => ?_⟩, read⟩
    · exact (Cursor.enter_offset after mode).trans behind.stop
    · have plain := behind.normal normal
      show (after.enter mode).mode = .normal
      cases mode with
      | normal => exact plain
      | jump => rw [Cursor.enter, Cursor.enterJump, if_neg (by rw [plain]; decide), plain]
      | hex =>
        have kind : s.kindAhead? = some t.kind := kindAhead?_of_next (by rw [next?, next]; rfl)
        exact (normal.1 (Option.some.inj (kind.symm.trans (braced rfl).1)) (braced rfl).2).elim

end Tracked

end ParseState

/-- A parse of a text beside itself, along which all the states are tracked. -/
def tracking (text : List Char) : Lockstep where
  rel s s' := s = s' ∧ s.Tracked text
  parted _ _ := False
  exact := True
  left := .same
  right := .same
  ends := View.same_ends
  exact_keeps _ := View.same_keepsNames
  keeps := View.same_keepsNames
  unnamed := View.same_unnamed
  parted_later parted _ _ := parted
  flawless _ _ := .inl trivial
  calm _ := .inl trivial
  panicking h := congrArg (·.panicking) h.1
  here h := congrArg (·.input.here.offset) h.1
  textStop h _ := congrArg (·.textStop) h.1
  next h := h.1 ▸ Option.rel_alike_refl _
  beyond h _ _ := congrArg (·.kindBeyond?) h.1
  beyondParen h _ _ := congrArg (·.kindBeyond?) h.1
  joined h _ _ := congrArg (·.joined) h.1
  adjacentDots h _ _ := congrArg (·.adjacent) h.1
  adjacentAsterisk h _ _ := congrArg (·.adjacent) h.1
  act {s s' a a'} h same allowed := by
    obtain ⟨rfl, tracked⟩ := h
    refine .inr ?_
    cases same with
    | @report e e' same =>
      obtain rfl : e = e' := by rw [← e.rebase_same, same trivial, e'.rebase_same]
      exact ⟨rfl, tracked.behind, tracked.read⟩
    | @panic e e' same =>
      obtain rfl : e = e' := by rw [← e.rebase_same, same trivial, e'.rebase_same]
      exact ⟨rfl, tracked.behind, tracked.read⟩
    | calm => exact ⟨rfl, tracked.behind, tracked.read⟩
    | depth n => exact ⟨rfl, tracked.behind, tracked.read⟩
    | read => exact ⟨rfl, tracked.advanced fun hex => nomatch hex⟩
    | enter mode =>
      refine ⟨rfl, tracked.advanced ?_⟩
      rintro rfl
      exact allowed

/-- The state in which the parse of a text ends. -/
def finalState (text : List Char) : ParseState :=
  ((Parser.iterate Parser.itemStep ⟨[], [], []⟩).run (Parser.initial text)).2

theorem finalState_tracked (text : List Char) : (finalState text).Tracked text := by
  have keyword : ∀ s, (tracking text).KeywordAt s := fun s =>
    Lockstep.keywordAt_of fun s' related _ => .inr (by
      obtain ⟨rfl, tracked⟩ := related
      exact ⟨rfl, tracked.advanced fun hex => nomatch hex⟩)
  have same : (tracking text).ItemsAlike ⟨[], [], []⟩ ⟨[], [], []⟩ := ⟨rfl, rfl, rfl⟩
  have arguments : (tracking text).TakesArguments :=
    Lockstep.takesArguments_of (Lockstep.advance_exact trivial)
  have follows := Lockstep.items_always arguments keyword same (Parser.initial text)
    (Parser.initial text) ⟨rfl, .initial text⟩ trivial
    fun r _ => Lockstep.distinctNames_of_exact trivial r
  rcases follows with parted | ⟨_, _, tracked⟩
  · exact parted.elim
  · exact tracked

/-- A parse goes on to the end of the text. -/
theorem finalState_next? (text : List Char) : (finalState text).next? = none := by
  obtain ⟨items, t, last⟩ :=
    Parser.run_iterate_ends Parser.itemStep_progress ⟨[], [], []⟩ (Parser.initial text)
  obtain ⟨ended, same⟩ := Parser.itemStep_done last
  exact (congrArg ParseState.next? same).trans ended

end RuleDesk
