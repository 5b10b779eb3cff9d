import RuleDesk.Proofs.Parsing.Modes
import RuleDesk.Proofs.Parsing.Reading

namespace RuleDesk

/-! ## Two texts with the same tokens

If the parse of one text goes to its end without an error, and the parse of
another text meets the same tokens on this way, then the other text says the same.
What has to be known of the texts is only what is read at two places of them. -/

/-- Kinds of tokens for which it matters whether one stands right behind the other. -/
def Kind.joins : Kind → Kind → Bool
  | symbol .dot, symbol .dot => true
  | ident, symbol .asterisk => true
  | sigil .identity, symbol .asterisk => true
  | _, _ => false

/-- Kinds of tokens where a section ends in a rule without errors, or what is in parentheses. -/
def Kind.closesPart : Kind → Bool
  | keyword .kwMeta | keyword .kwStrings | keyword .kwCondition | symbol .rbrace | symbol .rparen =>
    true
  | _ => false

theorem Kind.joins_second {k l : Kind} (h : k.joins l) :
    l = .symbol .dot ∨ l = .symbol .asterisk := by
  unfold joins at h
  split at h
  · exact .inl rfl
  · exact .inr rfl
  · exact .inr rfl
  · cases h

theorem Kind.not_joins_of_closesPart {k l : Kind} (closes : l.closesPart) : ¬ k.joins l :=
  fun joins => by
  rcases joins_second joins with rfl | rfl <;> cases closes

theorem Kind.looksBeyond_plain {k : Kind} (h : k.looksBeyond) : k.isPlain ∧ ¬ k.closesPart := by
  cases k with
  | keyword w => cases w <;> first | exact ⟨rfl, Bool.false_ne_true⟩ | cases h
  | symbol x => cases x <;> first | exact ⟨rfl, Bool.false_ne_true⟩ | cases h
  | sigil | ident => exact ⟨rfl, Bool.false_ne_true⟩
  | _ => cases h

/-- What two parses meet where the first one stops: the ends of both texts, or
tokens at which a part of them ends. -/
inductive Meeting (left right : View) (c c' : Cursor) : Prop
  | text (ended : c.nextSolid? = none) (ended' : c'.nextSolid? = none)
      (stop : left.offset (c.offset + byteLength c.rest) =
      right.offset (c'.offset + byteLength c'.rest))
  | token {t t' : Token} {after after' : Cursor} (next : c.nextSolid? = some (t, after))
      (next' : c'.nextSolid? = some (t', after'))
      (alike : t.Alike False left right t') (closes : t.kind.closesPart)

/-- A parse of a text up to some state without errors, and what is known of another
text: a relation between the cursors in both of them. Where it holds behind tokens
that the first parse has read, the next tokens are alike, and it holds behind those
of some kinds. -/
structure Beside (text : List Char) (last : ParseState) where
  left : View
  right : View
  ends : ∀ {a b c d}, left.offset a = right.offset c → left.offset b = right.offset d →
    left.offset (max a b) = right.offset (max c d)
  keeps : right.KeepsNames
  unnamed : ∀ span name, (left.name span name = "" ↔ name = "") ∧
      (left.name span name = "$" ↔ name = "$")
  clean : last.errors = []
  tracked : last.Tracked text
  compared : Kind → Prop
  plain : ∀ {k : Kind}, k.isPlain → compared k
  near : List Token → Cursor → Cursor → Prop
  here : ∀ {tokens c c'}, near tokens c c' → left.offset c.offset = right.offset c'.offset
  next : ∀ {later earlier : List Token} {t : Token} {c c' after : Cursor},
    last.read = later ++ t :: earlier →
    near earlier c c' → c.Behind text earlier → c.nextSolid? = some (t, after) →
    ∃ t' after', c'.nextSolid? = some (t', after') ∧ t.Alike False left right t' ∧
      (∀ u ∈ earlier.head?, u.kind.joins t.kind → (t.start = c.offset ↔ t'.start = c'.offset)) ∧
      (compared t.kind → ∀ mode, (mode = .jump → t.kind = .symbol .lbracket) →
      near (t :: earlier) (after.enter mode) (after'.enter mode))
  ended : ∀ {c'}, near last.read last.input.here c' → Meeting left right last.input.here c'

namespace ParseState

/-- Later states have read all that was read before. -/
theorem Before.read_later {s t : ParseState} (h : s.Before t) :
    ∃ later, t.read = later ++ s.read := by
  cases h.reads with
  | nothing _ read => exact ⟨[], read⟩
  | @tokens token _ later _ _ read _ =>
    exact ⟨later ++ [token], by rw [read, List.append_assoc]; rfl⟩

end ParseState

namespace Beside

variable {text : List Char} {last : ParseState} (B : Beside text last)

/-- Two states of both parses. The first one is on the way to its last state, so
the tokens before it are those that it will have read. -/
structure Together (s s' : ParseState) : Prop where
  onWay : s.Before last
  tracked : s.Tracked text
  near : B.near s.read s.input.here s'.input.here
  calm : s.panicking = false
  calm' : s'.panicking = false
  quiet' : s'.errors = []

namespace Together

variable {B} {s s' : ParseState} (h : B.Together s s')

include h

/-- Either nothing is left in both texts, or the next tokens are alike. -/
theorem ahead : (s.input.ahead = none ∧ s'.input.ahead = none ∧
    B.left.offset s.textStop = B.right.offset s'.textStop) ∨
    ∃ t t' after after', s.input.ahead = some (t, after) ∧ s'.input.ahead = some (t', after') ∧
      t.Alike False B.left B.right t' ∧
      (∀ u ∈ s.read.head?, u.kind.joins t.kind →
        (t.start = s.input.here.offset ↔ t'.start = s'.input.here.offset)) ∧
      ∀ later, last.read = later ++ t :: s.read → B.compared t.kind →
        ∀ mode, (mode = .jump → t.kind = .symbol .lbracket) →
        B.near (t :: s.read) (after.enter mode) (after'.enter mode) := by
  rw [s.input.ahead_eq, s'.input.ahead_eq]
  cases h.onWay.reads with
  | nothing input read =>
    have near := h.near
    rw [← input, ← read] at near
    rw [← input]
    cases B.ended near with
    | text none none' stop =>
      exact .inl ⟨none, none', by rw [ParseState.textStop, ← input]; exact stop⟩
    | @token t t' after after' next next' alike closes =>
      refine .inr ⟨t, t', after, after', next, next', alike, fun u _ joins =>
        (Kind.not_joins_of_closesPart closes joins).elim, ?_⟩
      intro later longer
      have length := congrArg List.length longer
      rw [read, List.length_append, List.length_cons] at length
      omega
  | @tokens t after later next _ read _ =>
    have solid := s.input.ahead_eq.symm.trans next
    obtain ⟨t', after', found, alike, touching, near⟩ := B.next read h.near h.tracked.behind solid
    exact .inr ⟨t, t', after, after', solid, found, alike, touching, fun _ _ => near⟩

/-- Where the tokenizer is in normal mode for sure, this is so for the token
after the next one. -/
theorem second {t : Token} (next : s.next? = some t) (normal : SurelyNormal (t :: s.read))
    (plain : t.kind.isPlain)
    (inside : ¬ t.kind.closesPart) : ∃ t', s'.next? = some t' ∧
      ((s.second? = none ∧ s'.second? = none) ∨
      ∃ u u', s.second? = some u ∧ s'.second? = some u' ∧ u.kind = u'.kind ∧
        (t.kind.joins u.kind → (u.start = t.stop ↔ u'.start = t'.stop))) := by
  obtain ⟨later, read⟩ : ∃ later, last.read = later ++ t :: s.read := by
    cases h.onWay.reads with
    | nothing input read =>
      have near := h.near
      rw [← input, ← read] at near
      rw [ParseState.next?, s.input.ahead_eq, ← input] at next
      cases B.ended near with
      | text none =>
        rw [none] at next
        cases next
      | token found _ _ closes =>
        rw [found] at next
        cases next
        exact (inside closes).elim
    | @tokens u after later ahead _ read _ =>
      rw [ParseState.next?, ahead] at next
      cases next
      exact ⟨later, read⟩
  rcases h.ahead with ⟨none, _⟩ | ⟨t₁, t', after, after', ahead, ahead', _, _, near⟩
  · rw [ParseState.next?, none] at next
    cases next
  obtain rfl : t₁ = t := by
    rw [ParseState.next?, ahead] at next
    exact Option.some.inj next
  have behind := h.tracked.ahead ahead
  have near : B.near (t₁ :: s.read) after after' :=
    near later read (B.plain plain) .normal fun jump => by cases jump
  rw [ParseState.second?, ahead, ParseState.second?, ahead', Option.bind_some, Option.bind_some]
  refine ⟨t', by rw [ParseState.next?, ahead']; rfl, ?_⟩
  dsimp only
  have stops : after.offset = t₁.stop ∧ after'.offset = t'.stop :=
    ⟨(Input.ahead_place ahead).2.1, (Input.ahead_place ahead').2.1⟩
  rcases List.eq_nil_or_concat later with rfl | ⟨more, u, rfl⟩
  · rw [List.nil_append] at read
    have here : after = last.input.here := by
      rw [← read] at behind normal
      exact behind.eq B.tracked.behind normal
    rw [← read, here] at near
    rw [here]
    cases B.ended near with
    | text none none' =>
      rw [none, none']
      exact .inl ⟨rfl, rfl⟩
    | @token u u' _ _ found found' alike closes =>
      refine .inr ⟨u, u', by rw [found]; rfl, by rw [found']; rfl, alike.kind, fun joins => ?_⟩
      exact (Kind.not_joins_of_closesPart closes joins).elim
  · right
    have from_text := B.tracked.read
    rw [List.concat_eq_append, List.append_assoc, List.singleton_append] at read
    rw [read] at from_text
    obtain ⟨beyond, found⟩ := from_text.earlier.next behind normal
    obtain ⟨u', _, found', alike, touching, _⟩ := B.next read near behind found
    refine ⟨u, u', by rw [found]; rfl, by rw [found']; rfl, alike.kind, fun joins => ?_⟩
    rw [← stops.1, ← stops.2]
    exact touching t₁ rfl joins

theorem kindBeyond? {t : Token} (next : s.next? = some t) (normal : SurelyNormal (t :: s.read))
    (plain : t.kind.isPlain) (inside : ¬ t.kind.closesPart) : s.kindBeyond? = s'.kindBeyond? := by
  rw [ParseState.kindBeyond?, ParseState.kindBeyond?]
  obtain ⟨t', _, ⟨none, none'⟩ | ⟨u, u', found, found', kind, _⟩⟩ :=
    h.second next normal plain inside
  · rw [none, none']
  · rw [found, found']
    exact congrArg some kind

theorem next : Option.Rel (Token.Alike False B.left B.right) s.next? s'.next? := by
  rcases h.ahead with ⟨none, none', _⟩ | ⟨t, t', after, after', ahead, ahead', alike, _⟩
  · rw [ParseState.next?, ParseState.next?, none, none']
    exact .none
  · rw [ParseState.next?, ParseState.next?, ahead, ahead']
    exact .some alike

theorem adjacent {k l : Kind} (behind : s.justRead k) (kind : s.kindAhead? = some l)
    (joins : k.joins l) :
    s.adjacent = s'.adjacent := by
  rw [ParseState.adjacent, ParseState.adjacent, ParseState.next?, ParseState.next?]
  rcases h.ahead with ⟨none, none', _⟩ | ⟨t, t', after, after', ahead, ahead', _, touching, _⟩
  · rw [none, none']
    rfl
  · rw [ahead, ahead']
    obtain ⟨u, last, rfl⟩ := Option.map_eq_some_iff.mp behind
    rw [ParseState.kindAhead?, ParseState.next?, ahead] at kind
    cases kind
    refine Bool.eq_iff_iff.mpr ?_
    simp only [Option.map_some, Option.any_some, beq_iff_eq]
    exact touching u last joins

theorem joined (ahead : s.kindAhead? = some .ident)
    (beyond : s.kindBeyond? = some (.symbol .asterisk)) :
    s.joined = s'.joined := by
  obtain ⟨t, next, kind⟩ := ParseState.kindAhead?_eq_some ahead
  have normal : SurelyNormal (t :: s.read) :=
    ⟨by rw [kind]; exact nofun, .inl (by rw [kind]; exact nofun)⟩
  obtain ⟨t', next', second⟩ := h.second next normal (by rw [kind]; rfl) (by rw [kind]; exact nofun)
  rw [ParseState.joined, ParseState.joined, next, next', Option.any_some, Option.any_some]
  rcases second with ⟨none, none'⟩ | ⟨u, u', found, found', _, touching⟩
  · rw [none, none']
    rfl
  · have asterisk : u.kind = .symbol .asterisk := by
      rw [ParseState.kindBeyond?, found] at beyond
      exact Option.some.inj beyond
    rw [found, found']
    refine Bool.eq_iff_iff.mpr ?_
    simp only [Option.any_some, beq_iff_eq]
    exact touching (by rw [kind, asterisk]; rfl)

theorem advanced {mode : Mode} (onWay : (s.advanced mode).Before last)
    (compared : ∀ k, s.kindAhead? = some k → B.compared k)
    (braced : mode = .hex → s.kindAhead? = some (.symbol .lbrace) ∧ s.justRead (.symbol .equal))
    (bracketed : mode = .jump → s.kindAhead? = some (.symbol .lbracket)) :
    B.Together (s.advanced mode) (s'.advanced mode) := by
  refine ⟨onWay, h.tracked.advanced braced, ?_, ?_, ?_, ?_⟩
  · rcases h.ahead with ⟨none, none', _⟩ | ⟨t, t', after, after', ahead, ahead', _, _, near⟩
    · rw [ParseState.advanced, none, ParseState.advanced, none']
      exact h.near
    · obtain ⟨later, read⟩ := onWay.read_later
      have next : s.next? = some t := by rw [ParseState.next?, ahead]; rfl
      rw [ParseState.advanced_read next] at read
      rw [ParseState.advanced, ahead, ParseState.advanced, ahead']
      have kind := ParseState.kindAhead?_of_next next
      exact near later read (compared _ kind) mode fun jump =>
        Option.some.inj (kind.symm.trans (bracketed jump))
  · rw [ParseState.advanced_panicking, h.calm]
  · rw [ParseState.advanced_panicking, h.calm']
  · rw [ParseState.advanced_errors, h.quiet']

end Together

/-- A parse on its way to an end without errors reports none. -/
theorem not_onWay (B : Beside text last) {s : ParseState} (errors : s.errors ≠ []) :
    ¬ s.Before last :=
  fun onWay => errors (onWay.no_errors B.clean)

theorem surelyNormal_of_looksBeyond {t : Token} (looks : t.kind.looksBeyond)
    (earlier : List Token) :
    SurelyNormal (t :: earlier) := by
  obtain ⟨plain, other⟩ := Kind.looksBeyond_settled looks
  exact ⟨fun brace => (plain ⟨.hex, congrArg some brace.symm⟩).elim, .inl other⟩

/-- The parses of both texts go in lockstep up to the last state of the first one. -/
def lockstep : Lockstep where
  rel := B.Together
  parted s _ := ¬ s.Before last
  exact := False
  left := B.left
  right := B.right
  ends := B.ends
  exact_keeps := False.elim
  keeps := B.keeps
  unnamed := B.unnamed
  parted_later parted later _ := fun onWay => parted (later.trans onWay)
  flawless e _ := .inr (B.not_onWay (ParseState.reported_ne_nil _ e))
  calm h := .inr h.calm
  panicking h := h.calm.trans h.calm'.symm
  here h := B.here h.near
  textStop {s s'} h none := by
    rcases h.ahead with ⟨_, _, stop⟩ | ⟨t, _, after, _, ahead, _⟩
    · exact stop
    · rw [ParseState.next?, ahead] at none
      cases none
  next h := h.next
  beyond {s s' k} h ahead looks := by
    obtain ⟨t, next, rfl⟩ := ParseState.kindAhead?_eq_some ahead
    obtain ⟨plain, inside⟩ := Kind.looksBeyond_plain looks
    exact h.kindBeyond? next (surelyNormal_of_looksBeyond looks _) plain inside
  beyondParen {s s'} h behind ahead := by
    obtain ⟨t, next, kind⟩ := ParseState.kindAhead?_eq_some ahead
    refine h.kindBeyond? next ⟨by rw [kind]; exact nofun, .inr ?_⟩ (by rw [kind]; rfl)
      (by rw [kind]; exact nofun)
    have read : s.justRead (.keyword .kwOf) := behind.resolve_left id
    obtain ⟨u, first, of⟩ := Option.map_eq_some_iff.mp read
    obtain ⟨rest, split⟩ := List.head?_eq_some_iff.mp first
    rw [split]
    exact ⟨by rw [of]; exact nofun, .inl (by rw [of]; exact nofun)⟩
  joined h ahead beyond := h.joined ahead beyond
  adjacentDots h behind ahead := h.adjacent behind ahead rfl
  adjacentAsterisk h behind ahead := h.adjacent behind ahead rfl
  act {s s' a a'} h same allowed := by
    by_cases onWay : (a.apply s).Before last
    · refine .inr ?_
      cases same with
      | @report e => exact (B.not_onWay (s.reported_ne_nil e) onWay).elim
      | @panic e => exact (B.not_onWay (s := s.panicked e) (s.reported_ne_nil e) onWay).elim
      | calm =>
        exact { h with onWay, tracked := ⟨h.tracked.behind, h.tracked.read⟩, calm := rfl, calm' := rfl }
      | depth n => exact { h with onWay, tracked := ⟨h.tracked.behind, h.tracked.read⟩ }
      | read =>
        obtain ⟨k, ahead, plain⟩ := allowed
        refine h.advanced onWay (fun l ahead' => ?_) (fun hex => nomatch hex) fun jump =>
          nomatch jump
        rw [ahead] at ahead'
        exact Option.some.inj ahead' ▸ B.plain (plain.resolve_right fun exact => exact.1)
      | enter mode =>
        have braces : ∀ k, s.kindAhead? = some k → B.compared k := fun k ahead => by
          cases mode with
          | normal => exact allowed.elim
          | hex => exact Option.some.inj (allowed.1.symm.trans ahead) ▸ B.plain rfl
          | jump => exact Option.some.inj ((show _ = _ from allowed).symm.trans ahead) ▸ B.plain rfl
        refine h.advanced onWay braces ?_ ?_
        · rintro rfl
          exact allowed
        · rintro rfl
          exact allowed
    · exact .inl onWay

end Beside

/-- At the end of a text nothing with a meaning is left. -/
theorem finalState_nextSolid? (text : List Char) :
    (finalState text).input.here.nextSolid? = none := by
  have ended := finalState_next? text
  rw [ParseState.next?, (finalState text).input.ahead_eq] at ended
  exact Option.map_eq_none_iff.mp ended

/-- Two whole texts say the same, but for the places and for how names are seen. -/
theorem Beside.parse {text text' : List Char} (B : Beside text (finalState text))
    (all : ∀ k, B.compared k) (start : B.near [] (Cursor.start text) (Cursor.start text'))
    (names : ∀ r ∈ (RuleDesk.parse text).rules, B.lockstep.distinctNames r) :
    (RuleDesk.parse text').errors = [] ∧
      (RuleDesk.parse text').rebase B.right = (RuleDesk.parse text).rebase B.left := by
  have keyword : ∀ s, B.lockstep.KeywordAt s :=
    fun s => Lockstep.keywordAt_of fun s' related _ => by
    by_cases onWay : ((Lockstep.behindFlags s).advanced .normal).Before (finalState text)
    · exact .inr (related.advanced onWay (fun k _ => all k) (fun hex => nomatch hex) fun jump =>
        nomatch jump)
    · exact .inl onWay
  have arguments : B.lockstep.TakesArguments :=
    Lockstep.takesArguments_of fun s s' related _ _ => by
    rw [Lockstep.Follows, Parser.run_advance, Parser.run_advance]
    by_cases onWay : (s.advanced .normal).Before (finalState text)
    · exact .inr ⟨B.lockstep.next related,
        related.advanced onWay (fun k _ => all k) (fun hex => nomatch hex) fun jump => nomatch jump⟩
    · exact .inl onWay
  have start : B.Together (Parser.initial text) (Parser.initial text') :=
    ⟨Parser.forward _ _, .initial text, start, rfl, rfl, rfl⟩
  have same : B.lockstep.ItemsAlike ⟨[], [], []⟩ ⟨[], [], []⟩ := ⟨rfl, rfl, rfl⟩
  have follows := Lockstep.items_always arguments keyword same _ _ start trivial names
  obtain ⟨alike, related⟩ := follows.resolve_left (fun parted => parted (.refl _))
  have errors : (RuleDesk.parse text').errors = [] := related.quiet'
  have clean : (RuleDesk.parse text).errors = [] := B.clean
  obtain ⟨imports, includes, rules⟩ := alike
  have imports : (RuleDesk.parse text).imports.map (·.rebase B.left) =
      (RuleDesk.parse text').imports.map (·.rebase B.right) := imports
  have includes : (RuleDesk.parse text).includes.map (·.rebase B.left) =
    (RuleDesk.parse text').includes.map (·.rebase B.right) :=
    includes
  have rules : (RuleDesk.parse text).rules.map (·.rebase B.left) =
      (RuleDesk.parse text').rules.map (·.rebase B.right) := rules
  refine ⟨errors, ?_⟩
  rw [SourceFile.rebase, SourceFile.rebase, imports, includes, rules, clean, errors]
  rfl

end RuleDesk
