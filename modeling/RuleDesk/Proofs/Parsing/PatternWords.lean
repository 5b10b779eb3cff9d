import Mathlib.Data.List.Forall2
import RuleDesk.Proofs.Parsing.Relaid

namespace RuleDesk

/-! ## The words of a pattern's value

A tree has the place of a value only. What is said by it are the tokens that were read there. -/

/-- A token without its place. -/
def Token.word (t : Token) : Kind × List Char := (t.kind, t.text)

/-- What the tokens say that start in a span, the latest one first. -/
def wordsIn (span : Span) (read : List Token) : List (Kind × List Char) :=
  (read.filter fun t => span.start ≤ t.start && t.start < span.stop).map Token.word

theorem wordsIn_append (span : Span) (later earlier : List Token) :
    wordsIn span (later ++ earlier) = wordsIn span later ++ wordsIn span earlier := by
  rw [wordsIn, List.filter_append, List.map_append]
  rfl

theorem wordsIn_none {span : Span} {tokens : List Token}
    (outside : ∀ t ∈ tokens, t.start < span.start ∨ span.stop ≤ t.start) :
    wordsIn span tokens = [] := by
  rw [wordsIn, List.map_eq_nil_iff, List.filter_eq_nil_iff]
  intro t member
  have := outside t member
  simp only [Bool.and_eq_true, decide_eq_true_eq, not_and, not_lt]
  omega

theorem wordsIn_all {span : Span} {tokens : List Token}
    (inside : ∀ t ∈ tokens, span.start ≤ t.start ∧ t.start < span.stop) :
    wordsIn span tokens = tokens.map Token.word := by
  rw [wordsIn, List.filter_eq_self.mpr]
  intro t member
  simpa only [Bool.and_eq_true, decide_eq_true_eq] using inside t member

namespace ParseState

variable {s t : ParseState}

/-- What is read between two states stands behind the first one. -/
theorem Before.read_behind (h : s.Before t) :
    ∃ later, t.read = later ++ s.read ∧ ∀ u ∈ later, s.input.here.offset ≤ u.start := by
  cases h.reads with
  | nothing _ read => exact ⟨[], read, nofun⟩
  | @tokens token _ later next _ read ordered =>
    have start := (Input.ahead_place next).1
    refine ⟨later ++ [token], by rw [read, List.append_assoc]; rfl, fun u member => ?_⟩
    rcases List.mem_append.mp member with behind | last
    · exact Nat.le_trans start (Nat.le_trans (Nat.le_add_right _ _) (ordered u behind))
    · exact List.mem_singleton.mp last ▸ start

/-- The next token is the first one that is read. -/
theorem Before.read_from (h : s.Before t) {u : Token} (next : s.next? = some u) {later : List Token}
    (read : t.read = later ++ s.read) :
    ∀ v ∈ later, u.start ≤ v.start := by
  cases h.reads with
  | nothing _ same =>
    obtain rfl : later = [] := List.append_left_eq_self.mp (read.symm.trans same)
    exact nofun
  | @tokens token _ more ahead _ same ordered =>
    obtain rfl : token = u := by
      rw [next?, ahead] at next
      exact Option.some.inj next
    have split : later = more ++ [token] := by
      have all : later ++ s.read = (more ++ [token]) ++ s.read := by
        rw [← read, same, List.append_assoc]; rfl
      exact List.append_cancel_right all
    intro v member
    rcases List.mem_append.mp (split ▸ member) with behind | last
    · exact Nat.le_trans (Nat.le_add_right _ _) (ordered v behind)
    · exact Nat.le_of_eq (congrArg Token.start (List.mem_singleton.mp last)).symm

/-- All that was read stands before a state. -/
theorem Tracked.read_before {text : List Char} (h : s.Tracked text) :
    ∀ u ∈ s.read, u.start < s.input.here.offset := by
  intro u member
  have stop := h.read.stop_le u member
  have wide := Nat.lt_of_lt_of_le (List.length_pos_iff.mpr (h.read.nonempty u member))
    (length_le_byteLength u.text)
  rw [← h.behind.stop, Token.stop] at stop
  omega

/-- What lockstep with itself keeps of a parse of a text. -/
theorem Tracked.run {text : List Char} (h : s.Tracked text) {p : Parser α} {alike : α → α → Prop}
    {pre : ParseState → Prop}
    {good : α → Prop} (always : (tracking text).When pre p p alike good) (start : pre s)
    (fine : good (p.run s).1) :
    (p.run s).2.Tracked text := by
  rcases always s s ⟨rfl, h⟩ start fine with parted | ⟨_, _, kept⟩
  · exact parted.elim
  · exact kept

end ParseState

theorem tracking_takesArguments (text : List Char) : (tracking text).TakesArguments :=
  Lockstep.takesArguments_of (Lockstep.advance_exact trivial)

/-- The value of a pattern has been read, and these are its words, the latest one first. -/
structure Pattern.Spells (s : ParseState) (p : Pattern)
    (words : List (Kind × List Char)) : Prop where
  behind : p.value.stop ≤ s.input.here.offset
  words : wordsIn p.value s.read = words

theorem Pattern.Spells.later {s t : ParseState} {p : Pattern} {words : List (Kind × List Char)}
    (h : p.Spells s words) (step : s.Before t) :
    p.Spells t words := by
  obtain ⟨later, read, behind⟩ := step.read_behind
  refine ⟨Nat.le_trans h.behind step.here_le, ?_⟩
  rw [read, wordsIn_append, wordsIn_none fun u member =>
    .inr (Nat.le_trans h.behind (behind u member)), h.words]
  rfl

/-- Two patterns, each in its own parse, with the same words as their values. -/
def SameWords (s s' : ParseState) (p p' : Pattern) : Prop := ∃ words, p.Spells s words ∧
  p'.Spells s' words

theorem SameWords.later {s s' t t' : ParseState} {p p' : Pattern} (h : SameWords s s' p p')
    (step : s.Before t) (step' : s'.Before t') :
    SameWords t t' p p' := by
  obtain ⟨words, first, second⟩ := h
  exact ⟨words, first.later step, second.later step'⟩

namespace Parser

variable {s : ParseState}

/-- Where a hex pattern has ended, the parse has come to its end. -/
def EndsHere (p : HexProgress) (s : ParseState) : Prop :=
  ∀ n, p = .ended n → n = s.input.here.offset

theorem hexStep_stop (lbrace : Span) (p : HexProgress) :
    Ensures (EndsHere p) (hexStep lbrace p) (Ensures.round EndsHere EndsHere) := by
  have here : ∀ s, EndsHere (.ended s.input.here.offset) s :=
    fun s n same => (HexProgress.ended.inj same).symm
  intro s ends
  cases p with
  | ended stop => exact ends
  | within parens =>
    rw [hexStep, run_bind, run_peek]
    cases next : s.next? with
    | none => exact here _
    | some t =>
      dsimp only
      rw [run_ite]
      split
      · exact nofun
      rw [run_ite]
      split
      · exact nofun
      rw [run_ite]
      split
      · exact nofun
      rw [run_ite]
      split
      · exact nofun
      rw [run_ite]
      split
      · exact nofun
      rw [run_ite]
      split
      · rw [run_bind, run_advance]
        rintro n ⟨⟩
        exact (ParseState.advanced_here next .normal).symm
      rw [run_bind, run_atSyncPoint, run_ite]
      split
      · exact here _
      rw [run_bind, run_bind, run_bind, run_eat]
      generalize (skipToSyncPoint.run _).2 = u
      by_cases close : u.kindAhead? = some (.symbol .rbrace)
      · obtain ⟨brace, next, _⟩ := ParseState.kindAhead?_eq_some close
        rw [if_pos close, next]
        rintro n ⟨⟩
        exact (ParseState.advanced_here next .normal).symm
      · rw [if_neg close]
        exact here _

/-- A hex pattern ends where the parse has come to. -/
theorem hexPattern_stop (lbrace : Span) (s : ParseState) :
    ((hexPattern lbrace).run s).1 = ((hexPattern lbrace).run s).2.input.here.offset := by
  have ends := Ensures.iterate (hexStep_progress lbrace) (hexStep_stop lbrace) (.within 0) s nofun
  rw [hexPattern, run_bind]
  generalize (iterate (hexStep lbrace) (.within 0)).run s = r at ends
  obtain ⟨p, u⟩ := r
  cases p with
  | ended n => exact ends n rfl
  | within parens => rfl

/-- A value starts at its first token and ends where the parse has come to. -/
theorem patternValue_place {kind : PatternKind} {value : Span}
    (h : (patternValue.run s).1 = some (kind, value)) :
    ∃ t, s.next? = some t ∧ value = ⟨t.start, (patternValue.run s).2.input.here.offset⟩ := by
  rw [patternValue, run_bind, run_peek] at h ⊢
  cases next : s.next? with
  | none =>
    rw [next] at h
    cases h
  | some t =>
    rw [next] at h
    dsimp only at h ⊢
    have stop : t.span = ⟨t.start, (s.advanced .normal).input.here.offset⟩ :=
      congrArg (Span.mk t.start) (ParseState.advanced_here next .normal).symm
    refine ⟨t, rfl, ?_⟩
    split at h
    iterate 4
      rw [run_bind, run_advance] at h ⊢
      cases h
      exact stop
    · rw [run_bind, run_advanceInto, run_bind] at h ⊢
      cases h
      exact congrArg (Span.mk t.start) (hexPattern_stop t.span _)
    · cases h

/-- A value that is missing is reported. -/
theorem patternValue_none (calm : s.panicking = false) (h : (patternValue.run s).1 = none) :
    (patternValue.run s).2.errors ≠ [] := by
  have reported :
      (unexpected .patternValue).run s = ((), s.panicked (s.unexpectedError .patternValue)) := by
    rw [run_unexpected, calm]
    rfl
  rw [patternValue, run_bind, run_peek] at h ⊢
  cases next : s.next? with
  | none =>
    dsimp only
    rw [run_bind, reported]
    exact ParseState.reported_ne_nil _ _
  | some t =>
    rw [next] at h
    dsimp only at h ⊢
    split at h
    iterate 5 cases h
    rw [run_bind, reported]
    exact ParseState.reported_ne_nil _ _

theorem keepPattern_clean {ps : List Pattern} {p : Pattern}
    (clean : ((keepPattern ps p).run s).2.errors = []) :
    ((keepPattern ps p).run s).1 = ps ++ [p] := by
  unfold keepPattern at clean ⊢
  split
  · rfl
  · rename_i named
    rw [if_neg named] at clean
    cases found : ps.find? (·.ident.name == p.ident.name) with
    | none => rfl
    | some existing =>
      rw [found] at clean
      exact (ParseState.reported_ne_nil _ _ clean).elim

/-- A declaration without errors is one more pattern. -/
theorem declaration_clean {t : Token} {ps : List Pattern} (calm : s.panicking = false)
    (clean : ((declaration t ps).run s).2.errors = []) :
    (s.advanced .normal).kindAhead? = some (.symbol .equal) ∧
      ∃ p : Pattern, (patternValue.run ((s.advanced .normal).advanced .normal)).1 =
        some (p.kind, p.value) ∧ ((declaration t ps).run s).1 = .yield (ps ++ [p]) ∧
          (patternValue.run ((s.advanced .normal).advanced .normal)).2.Before
            ((declaration t ps).run s).2 := by
  rw [declaration, run_bind, run_advance, run_bind] at clean ⊢
  dsimp only at clean ⊢
  by_cases equal : (s.advanced .normal).kindAhead? = some (.symbol .equal)
  · refine ⟨equal, ?_⟩
    obtain ⟨sign, next, _⟩ := ParseState.kindAhead?_eq_some equal
    rw [run_expect equal, next] at clean ⊢
    dsimp only at clean ⊢
    rw [run_bind] at clean ⊢
    have missing := patternValue_none (s := (s.advanced .normal).advanced .normal)
      (by rw [ParseState.advanced_panicking, ParseState.advanced_panicking, calm])
    generalize patternValue.run ((s.advanced .normal).advanced .normal) = v at clean missing ⊢
    obtain ⟨o, v⟩ := v
    cases o with
    | none => exact (missing rfl clean).elim
    | some entry =>
      obtain ⟨kind, value⟩ := entry
      dsimp only at clean ⊢
      refine ⟨⟨t.span.through (.point (modifiers.run v).2.input.here.offset), identOf t, kind,
        value, (modifiers.run v).1⟩, rfl, ?_, ?_⟩
      · exact congrArg ForInStep.yield (keepPattern_clean clean)
      · exact Parser.forward _ v
  · rw [Lockstep.expect_missing equal, run_bind, run_unexpected, ParseState.advanced_panicking,
      calm] at clean
    exact (ParseState.reported_ne_nil _ _ clean).elim

/-- One pattern more, or the end of the patterns, where no error is met. -/
theorem patternStep_clean {ps : List Pattern} (clean : ((patternStep ps).run s).2.errors = []) :
    (∃ t, s.next? = some t ∧ t.kind = .sigil .identity ∧
      (patternStep ps).run s = (declaration t ps).run s) ∨
      (patternStep ps).run s = (.done ps, s) := by
  rw [patternStep, run_bind, run_peek] at clean ⊢
  cases next : s.next? with
  | none => exact .inr rfl
  | some t =>
    rw [next] at clean
    dsimp only at clean ⊢
    by_cases identity : t.kind = .sigil .identity
    · rw [if_pos identity]
      exact .inl ⟨t, rfl, identity, rfl⟩
    · rw [if_neg identity, run_bind, run_declaresMisnamed] at clean ⊢
      cases misnamed : isMisnamed t.kind && s.kindBeyond? == some (.symbol .equal) with
      | false => exact .inr rfl
      | true =>
        rw [misnamed, run_ite, if_pos rfl, dropDeclaration, run_bind, run_report] at clean
        have later := (Parser.forward _ _).no_errors clean
        exact (ParseState.reported_ne_nil _ _ later).elim

end Parser

namespace Lockstep

variable (L : Lockstep)

/-- Two parses have read tokens that say the same since two states. -/
def ReadAlike (first first' s s' : ParseState) : Prop :=
  ∃ later later', s.read = later ++ first.read ∧ s'.read = later' ++ first'.read ∧
    later.map Token.word = later'.map Token.word

variable {L}

theorem token.word {t t' : Token} (h : L.token t t') (keeps : L.left.KeepsNames)
    (compared : L.exact ∨ t.kind.isSound) : t.word = t'.word := by
  have kind : t.kind = t'.kind := h.kind
  have text : t.text = t'.text := by
    by_cases named : t.kind.isName
    · have name : L.left.name t.span t.name = L.right.name t'.span t'.name :=
        Token.Alike.named h compared
      rw [keeps, L.keeps] at name
      exact String.ofList_injective name
    · exact Token.Alike.text h compared named
  rw [Token.word, Token.word, kind, text]

theorem ReadAlike.advanced {first first' s s' : ParseState} (h : ReadAlike first first' s s')
    (related : L.rel s s') (keeps : L.left.KeepsNames)
    (compared : ∀ t, s.next? = some t → L.exact ∨ t.kind.isSound) (mode : Mode) :
    ReadAlike first first' (s.advanced mode) (s'.advanced mode) := by
  have next := L.next related
  cases ahead : s.next? with
  | none =>
    rw [ahead] at next
    cases ahead' : s'.next? with
    | none => rwa [ParseState.advanced_of_none ahead, ParseState.advanced_of_none ahead']
    | some t' =>
      rw [ahead'] at next
      cases next
  | some t =>
    cases ahead' : s'.next? with
    | none =>
      rw [ahead, ahead'] at next
      cases next
    | some t' =>
      rw [ahead, ahead'] at next
      cases next with
      | some alike =>
        obtain ⟨later, later', read, read', same⟩ := h
        refine ⟨t :: later, t' :: later', ?_, ?_, ?_⟩
        · rw [ParseState.advanced_read ahead, read]
          rfl
        · rw [ParseState.advanced_read ahead', read']
          rfl
        · rw [List.map_cons, List.map_cons, same, token.word alike keeps (compared t ahead)]

/-- Lockstep from two states on, where what is read says the same. -/
def along (L : Lockstep) (left_keeps : L.left.KeepsNames) (first first' : ParseState) :
    Lockstep where
  rel s s' := L.rel s s' ∧ ReadAlike first first' s s'
  parted := L.parted
  exact := L.exact
  left := L.left
  right := L.right
  ends := L.ends
  exact_keeps := L.exact_keeps
  keeps := L.keeps
  unnamed := L.unnamed
  parted_later := L.parted_later
  flawless e h := L.flawless e h.1
  calm h := L.calm h.1
  panicking h := L.panicking h.1
  here h := L.here h.1
  textStop h := L.textStop h.1
  next h := L.next h.1
  beyond h := L.beyond h.1
  beyondParen h := L.beyondParen h.1
  joined h := L.joined h.1
  adjacentDots h := L.adjacentDots h.1
  adjacentAsterisk h := L.adjacentAsterisk h.1
  act {s s' a a'} h same allowed := by
    obtain ⟨related, read⟩ := h
    refine (L.act related same allowed).imp_right fun kept => ⟨kept, ?_⟩
    cases same with
    | report | panic | calm | depth => exact read
    | read =>
      obtain ⟨k, ahead, plain⟩ := allowed
      refine read.advanced related left_keeps (fun t next => ?_) .normal
      obtain rfl : t.kind = k :=
        Option.some.inj ((ParseState.kindAhead?_of_next next).symm.trans ahead)
      refine plain.symm.imp And.left fun plain => ?_
      rw [Kind.isPlain, Bool.and_eq_true, Bool.and_eq_true] at plain
      exact plain.1.2
    | enter mode =>
      refine read.advanced related left_keeps (fun t next => .inr ?_) mode
      have kind := ParseState.kindAhead?_of_next next
      cases mode with
      | normal => exact allowed.elim
      | hex => rw [Option.some.inj (kind.symm.trans allowed.1)]; rfl
      | jump =>
        rw [Option.some.inj
          (kind.symm.trans (show s.kindAhead? = some (.symbol .lbracket) from allowed))]
        rfl

end Lockstep

/-- The words of a value are those of the tokens that were read of it. -/
theorem Pattern.spells_read {text : List Char} {s v : ParseState} {p : Pattern}
    (tracked : s.Tracked text) (tracked' : v.Tracked text)
    (step : s.Before v) {t : Token} (next : s.next? = some t)
    (value : p.value = ⟨t.start, v.input.here.offset⟩) {later : List Token}
    (read : v.read = later ++ s.read) : p.Spells v (later.map Token.word) := by
  refine ⟨by rw [value], ?_⟩
  rw [value, read, wordsIn_append, wordsIn_all fun u member =>
    ⟨step.read_from next read u member, ?_⟩, wordsIn_none fun u member => .inl ?_, List.append_nil]
  · exact Nat.lt_of_lt_of_le (tracked.read_before u member) (ParseState.next?_start next)
  · exact tracked'.read_before u (read ▸ List.mem_append_left _ member)

namespace EndsSection

open RuleDesk.Parser

variable {text out : List Char} {last : ParseState} {stop : Nat} {tail tail' : List Char}
  (E : EndsSection text last stop tail tail') {s s' : ParseState} {ps ps' : List Pattern}

include E

/-- The values of two declarations have the same words. -/
theorem value_words (related : E.beside.lockstep.rel s s') (tracked' : s'.Tracked out)
    (behind : s.justRead (.symbol .equal))
    (behind' : s'.justRead (.symbol .equal)) {p p' : Pattern}
    (value : (patternValue.run s).1 = some (p.kind, p.value))
    (value' : (patternValue.run s').1 = some (p'.kind, p'.value))
    (onWay : (patternValue.run s).2.Before last) :
    SameWords (patternValue.run s).2 (patternValue.run s').2 p p' := by
  have h : E.beside.Together s s' := related
  have follows :=
    Lockstep.patternValue_when (L := E.beside.lockstep.along View.placeless_keepsNames s s') s s'
    ⟨related, [], [], rfl, rfl, rfl⟩ behind trivial
  obtain ⟨_, together, later, later', read, read', same⟩ :=
    follows.resolve_left fun parted => parted onWay
  have joined : E.beside.Together (patternValue.run s).2 (patternValue.run s').2 := together
  obtain ⟨t, next, place⟩ := patternValue_place value
  obtain ⟨t', next', place'⟩ := patternValue_place value'
  have tracked'' := tracked'.run Lockstep.patternValue_when behind' trivial
  refine ⟨later.map Token.word, ?_, ?_⟩
  · exact Pattern.spells_read h.tracked joined.tracked (patternValue.forward s) next place read
  · rw [same]
    exact Pattern.spells_read tracked' tracked'' (patternValue.forward s') next' place' read'

/-- A token that is read in both texts. -/
theorem reads (related : E.beside.lockstep.rel s s') {k : Kind} (ahead : s.kindAhead? = some k)
    (plain : k.isPlain)
    (onWay : (s.advanced .normal).Before last) :
    E.beside.lockstep.rel (s.advanced .normal) (s'.advanced .normal) :=
  (E.beside.lockstep.act related .read ⟨k, ahead, .inl plain⟩).resolve_left fun parted =>
    parted onWay

/-- A declaration of a pattern, in both texts. -/
theorem declaration_words (related : E.beside.lockstep.rel s s') (tracked' : s'.Tracked out)
    {t t' : Token} (identity : s.kindAhead? = some (.sigil .identity))
    (clean : ((declaration t ps).run s).2.errors = [])
    (clean' : ((declaration t' ps').run s').2.errors = [])
    (onWay : ((declaration t ps).run s).2.Before last) :
      ∃ p p', ((declaration t ps).run s).1 = .yield (ps ++ [p]) ∧
      ((declaration t' ps').run s').1 = .yield (ps' ++ [p']) ∧
        SameWords ((declaration t ps).run s).2 ((declaration t' ps').run s').2 p p' := by
  have h : E.beside.Together s s' := related
  obtain ⟨equal, p, value, result, later⟩ := declaration_clean h.calm clean
  obtain ⟨equal', p', value', result', later'⟩ := declaration_clean h.calm' clean'
  have valued : (patternValue.run ((s.advanced .normal).advanced .normal)).2.Before last :=
    later.trans onWay
  have second := (patternValue.forward ((s.advanced .normal).advanced .normal)).trans valued
  have first := (ParseState.advanced_before (s.advanced .normal)).trans second
  have named := E.reads related identity rfl first
  have signed := E.reads named equal rfl second
  have named' : (s'.advanced .normal).Tracked out := tracked'.onward
  have signed' : ((s'.advanced .normal).advanced .normal).Tracked out := named'.onward
  have words := E.value_words signed signed' (ParseState.advanced_justRead equal .normal)
    (ParseState.advanced_justRead equal' .normal) value value' valued
  exact ⟨p, p', result, result', words.later later later'⟩

/-- A round of the loop over the patterns, in both texts. -/
theorem patternStep_words (related : E.beside.lockstep.rel s s') (tracked' : s'.Tracked out)
    (lists : E.beside.lockstep.patternLists ps ps')
    (words : List.Forall₂ (SameWords s s') ps ps')
    (onWay : ((patternStep ps).run s).2.Before last) :
    Lockstep.Steps E.beside.lockstep.patternLists ((patternStep ps).run s).1
      ((patternStep ps').run s').1 ∧
      E.beside.lockstep.rel ((patternStep ps).run s).2 ((patternStep ps').run s').2 ∧
        List.Forall₂ (SameWords ((patternStep ps).run s).2 ((patternStep ps').run s').2)
          ((patternStep ps).run s).1.value ((patternStep ps').run s').1.value := by
  have always := Lockstep.patternStep_always E.takesArguments ps ps' lists
  have distinct : E.beside.lockstep.distinctPatterns ((patternStep ps).run s).1.value := by
    intro i _ j _ same
    exact same
  obtain ⟨steps, together⟩ := E.follows always related distinct onWay
  refine ⟨steps, together, ?_⟩
  have joined :
      E.beside.Together ((patternStep ps).run s).2 ((patternStep ps').run s').2 := together
  have clean := onWay.no_errors E.clean
  have clean' := joined.quiet'
  have h : E.beside.Together s s' := related
  have step := (patternStep ps).forward s
  have step' := (patternStep ps').forward s'
  rcases patternStep_clean clean with ⟨t, next, identity, run⟩ | run
    <;> rcases patternStep_clean clean' with ⟨t', next', identity', run'⟩ | run' <;>
    rw [run] at steps step onWay clean ⊢ <;> rw [run'] at steps step' clean' ⊢
  · obtain ⟨p, p', result, result', same⟩ :=
      E.declaration_words related tracked' (identity ▸ ParseState.kindAhead?_of_next next) clean
        clean' onWay
    rw [result, result']
    exact List.rel_append (words.imp fun _ _ known => known.later step step') (.cons same .nil)
  · obtain ⟨_, p, _, result, _⟩ := declaration_clean h.calm clean
    rw [result] at steps
    cases steps
  · obtain ⟨_, p, _, result, _⟩ := declaration_clean h.calm' clean'
    rw [result] at steps
    cases steps
  · exact words

/-- The patterns of a section, in both texts. -/
theorem patterns_words (related : E.beside.lockstep.rel s s') (tracked' : s'.Tracked out)
    (lists : E.beside.lockstep.patternLists ps ps')
    (words : List.Forall₂ (SameWords s s') ps ps')
    (onWay : ((iterate patternStep ps).run s).2.Before last) :
    List.Forall₂ (SameWords ((iterate patternStep ps).run s).2 ((iterate patternStep ps').run s').2)
      ((iterate patternStep ps).run s).1 ((iterate patternStep ps').run s').1 := by
  induction size : s.unread using Nat.strongRecOn generalizing s s' ps ps' with
  | _ size ih =>
    have shorter := patternStep_progress ps s trivial
    have onWay' : ((patternStep ps).run s).2.Before last := by
      cases first : (patternStep ps).run s with
      | mk r t =>
        cases r with
        | done b =>
          rw [run_iterate_done first] at onWay
          exact onWay
        | yield b =>
          rw [run_iterate_yield patternStep_progress first] at onWay
          exact (Parser.forward _ t).trans onWay
    have stepped := E.patternStep_words related tracked' lists words onWay'
    have tracked'' :=
      tracked'.run (Lockstep.patternStep_always (tracking_takesArguments out) ps' ps' rfl) trivial
      (Lockstep.distinct_of_exact trivial _)
    cases first : (patternStep ps).run s with
    | mk r t =>
      cases first' : (patternStep ps').run s' with
      | mk r' t' =>
        rw [first, first'] at stepped
        rw [first'] at tracked''
        rw [first] at shorter
        obtain ⟨steps, together, told⟩ := stepped
        cases steps with
        | done => rwa [run_iterate_done first, run_iterate_done first']
        | @yield qs qs' same =>
          rw [run_iterate_yield patternStep_progress first] at onWay ⊢
          rw [run_iterate_yield patternStep_progress first']
          exact ih t.unread (size ▸ shorter ⟨qs, rfl⟩) together tracked'' same told onWay rfl

end EndsSection

end RuleDesk
