import RuleDesk.Proofs.Parsing.Modes

namespace RuleDesk

/-! ## The stream of tokens

The stream reads ahead of what it gives away, and the tokenizer stands where the last
token that was read ahead ends. A mode that is gone into there is the right one for
the tokens to come only if none of them waits in the buffer. -/

namespace TokenStream

/-- The tokens produced so far that mean something, the latest one first. -/
def solids (s : TokenStream) : List Token := (s.produced.map (·.2)).filter (!·.kind.isTrivia)

/-- The text of the tokens produced so far and behind it the text not read yet. -/
def text (s : TokenStream) : List Char := s.produced.reverse.flatMap (·.2.text) ++ s.tokenizer.rest

variable {text : List Char} {s s' u : TokenStream} {c d after : Cursor} {t : Token}
    {read : List Token}

/-! ### Producing tokens -/

theorem produce_solids (s : TokenStream) (t : Token) (after : Cursor) :
    (s.produce t after).solids = if t.kind.isTrivia then s.solids else t :: s.solids := by
  rw [solids, produce, List.map_cons, List.filter_cons]
  cases t.kind.isTrivia <;> rfl

theorem produce_text (h : s.tokenizer.next? = some (t, after)) :
    (s.produce t after).text = s.text := by
  obtain ⟨_, _, rest⟩ := Cursor.next?_place h
  rw [TokenStream.text, TokenStream.text, rest]
  simp [produce]

/-- What stays when a stream produces tokens: nothing is given away, and no mode other
than the normal one is come to from there. -/
structure Goes (s s' : TokenStream) : Prop where
  lookahead : s'.lookahead = s.lookahead
  taken : s'.taken = s.taken
  text : s'.text = s.text
  produced : s.produced ⊆ s'.produced
  normal : s.tokenizer.mode = .normal → s'.tokenizer.mode = .normal

namespace Goes

theorem refl (s : TokenStream) : s.Goes s := ⟨rfl, rfl, rfl, List.Subset.refl _, id⟩

theorem trans (h : s.Goes s') (h' : s'.Goes u) : s.Goes u :=
  ⟨h'.lookahead.trans h.lookahead, h'.taken.trans h.taken, h'.text.trans h.text,
    List.Subset.trans h.produced h'.produced, h'.normal ∘ h.normal⟩

theorem produce (h : s.tokenizer.next? = some (t, after)) : s.Goes (s.produce t after) :=
  ⟨rfl, rfl, produce_text h, List.subset_cons_self _ _, Cursor.next?_stays_normal h⟩

/-- In normal mode what waits in the buffer stays of the mode that the tokenizer is in. -/
theorem modes (h : s.Goes s') (normal : s.lookahead ≠ [] → s.tokenizer.mode = .normal)
    (modes : ∀ t ∈ s.lookahead, (s.tokenizer.mode, t) ∈ s.produced) :
    ∀ t ∈ s.lookahead, (s'.tokenizer.mode, t) ∈ s'.produced := by
  intro t member
  have stays := normal (List.ne_nil_of_mem member)
  have known := modes t member
  rw [stays] at known
  rw [h.normal stays]
  exact h.produced known

end Goes

/-- The next token with a meaning is the last one that is produced for it. -/
theorem pullIn_some {fuel : Nat} (h : Cursor.skipTrivia fuel s.tokenizer = some (t, after)) :
    ∃ s', pullIn fuel s = (some t, s'.produce t after) ∧ s.Goes s' ∧
      s'.tokenizer.next? = some (t, after) ∧ (s'.produce t after).solids = t :: s.solids := by
  induction fuel generalizing s with
  | zero => cases h
  | succ fuel ih =>
    rw [Cursor.skipTrivia] at h
    rw [pullIn]
    cases next : s.tokenizer.next? with
    | none =>
      rw [next] at h
      cases h
    | some entry =>
      obtain ⟨v, behind⟩ := entry
      simp only [next] at h
      dsimp only
      split at h
      · rename_i trivia
        obtain ⟨s', pulled, goes, found, solids⟩ := ih (s := s.produce v behind) h
        rw [if_pos trivia, pulled]
        refine ⟨s', rfl, (Goes.produce next).trans goes, found, ?_⟩
        rw [solids, produce_solids, if_pos trivia]
      · rename_i meant
        cases h
        rw [if_neg meant]
        exact ⟨s, rfl, .refl s, next, by rw [produce_solids, if_neg meant]⟩

/-- Where no token with a meaning is left all the text is read. -/
theorem pullIn_none {fuel : Nat} (h : Cursor.skipTrivia fuel s.tokenizer = none)
    (enough : s.tokenizer.rest.length ≤ fuel) :
    ∃ s', pullIn fuel s = (none, s') ∧ s.Goes s' ∧ s'.tokenizer.rest = [] ∧
      s'.solids = s.solids := by
  induction fuel generalizing s with
  | zero => exact ⟨s, rfl, .refl s, List.length_eq_zero_iff.mp (Nat.le_zero.mp enough), rfl⟩
  | succ fuel ih =>
    rw [Cursor.skipTrivia] at h
    rw [pullIn]
    cases next : s.tokenizer.next? with
    | none => exact ⟨s, rfl, .refl s, Cursor.next?_eq_none.mp next, rfl⟩
    | some entry =>
      obtain ⟨v, behind⟩ := entry
      have shorter := Cursor.next?_rest_lt next
      simp only [next] at h
      dsimp only
      split at h
      · rename_i trivia
        obtain ⟨s', pulled, goes, ended, solids⟩ :=
          ih (s := s.produce v behind) h (by show behind.rest.length ≤ fuel; omega)
        rw [if_pos trivia, pulled]
        refine ⟨s', rfl, (Goes.produce next).trans goes, ended, ?_⟩
        rw [solids, produce_solids, if_pos trivia]
      · cases h

theorem pull_some (h : s.tokenizer.nextSolid? = some (t, after)) :
    ∃ s', s.pull = (some t, s') ∧ s.Goes s' ∧ s'.tokenizer = after ∧
      s'.produced.head? = some (after.mode, t) ∧ s'.solids = t :: s.solids := by
  obtain ⟨s', pulled, goes, next, solids⟩ := pullIn_some h
  exact ⟨s'.produce t after, pulled, goes.trans (.produce next), rfl, rfl, solids⟩

theorem pull_none (h : s.tokenizer.nextSolid? = none) :
    ∃ s', s.pull = (none, s') ∧ s.Goes s' ∧ s'.tokenizer.rest = [] ∧ s'.solids = s.solids :=
  pullIn_none h (Nat.le_refl _)

theorem nextSolid?_of_end (h : c.rest = []) : c.nextSolid? = none :=
  Cursor.nextSolid?_of_none (Cursor.next?_eq_none.mpr h)

/-! ### The buffer -/

/-- The tokens that stand one after another between two places. -/
inductive Between : Cursor → List Token → Cursor → Prop
  | nothing (c : Cursor) : Between c [] c
  | token {c after d : Cursor} {t : Token} {ts : List Token} (next : c.nextSolid? = some (t, after))
    (rest : Between after ts d) :
    Between c (t :: ts) d

theorem Between.snoc {ts : List Token} (h : Between c ts d)
    (next : d.nextSolid? = some (t, after)) : Between c (ts ++ [t]) after := by
  induction h with
  | nothing => exact .token next (.nothing _)
  | token first _ ih => exact .token first (ih next)

/-- Where the tokenizer is with some tokens in the buffer: behind the last of them, or at
the end of the text if nothing with a meaning is left there. -/
inductive Stands (c : Cursor) (lookahead : List Token) (tokenizer : Cursor) : Prop
  | behind (between : Between c lookahead tokenizer)
  | ended {d : Cursor} (between : Between c lookahead d) (nothing : d.nextSolid? = none)
    (ended : tokenizer.rest = []) (plain : ∀ t ∈ lookahead, ¬ t.kind.OpensMode)

/-- A stream of a text whose next token is the one at a place, behind those that were
`read`. What waits in the buffer was read in the mode that the tokenizer is in, and a
bracket that may open another mode is the last token that was produced. -/
structure Feeds (text : List Char) (s : TokenStream) (c : Cursor) (read : List Token) : Prop where
  stands : Stands c s.lookahead s.tokenizer
  solids : s.solids = s.lookahead.reverse ++ read
  taken : s.taken = read
  text : s.text = text
  modes : ∀ t ∈ s.lookahead, (s.tokenizer.mode, t) ∈ s.produced
  passed : ∀ t ∈ s.lookahead.dropLast, ¬ t.kind.OpensMode
  bracket : ∀ t, s.lookahead.getLast? = some t → t.kind.OpensMode →
      s.produced.head? = some (s.tokenizer.mode, t)

namespace Feeds

theorem start (text : List Char) : (start text).Feeds text (Cursor.start text) [] :=
  ⟨.behind (.nothing _), rfl, rfl, rfl, nofun, nofun, nofun⟩

/-- With an empty buffer the tokenizer has the next token still before it. -/
theorem tokenizer_next (h : s.Feeds text c read) (empty : s.lookahead = []) :
    s.tokenizer.nextSolid? = c.nextSolid? := by
  cases empty ▸ h.stands with
  | behind between => cases between; rfl
  | ended between nothing ended =>
    cases between
    rw [nothing, nextSolid?_of_end ended]

/-- The front of the buffer is the next token. -/
theorem front {ts : List Token} (h : s.Feeds text c read) (buffer : s.lookahead = t :: ts) :
    ∃ after, c.nextSolid? = some (t, after) ∧ Stands after ts s.tokenizer := by
  cases buffer ▸ h.stands with
  | behind between =>
    cases between with
    | token next rest => exact ⟨_, next, .behind rest⟩
  | ended between nothing ended plain =>
    cases between with
    | token next rest =>
      exact ⟨_, next, .ended rest nothing ended fun u member =>
        plain u (List.mem_cons_of_mem _ member)⟩

/-- One more token is brought into the buffer, where no bracket waits. -/
theorem fetch (h : s.Feeds text c read) (plain : ∀ u ∈ s.lookahead, ¬ u.kind.OpensMode)
    (normal : s.lookahead ≠ [] → s.tokenizer.mode = .normal)
    (next : s.tokenizer.nextSolid? = some (t, after)) :
    ∃ s', s.pull = (some t, s') ∧ s'.lookahead = s.lookahead ∧
      ({ s' with lookahead := s'.lookahead ++ [t] } : TokenStream).Feeds text c read := by
  obtain ⟨s', pulled, goes, place, head, solids⟩ := pull_some next
  refine ⟨s', pulled, goes.lookahead, ?_, ?_, goes.taken.trans h.taken, goes.text.trans h.text,
    fun u member => ?_, ?_, ?_⟩
  · rw [goes.lookahead, place]
    cases h.stands with
    | behind between => exact .behind (between.snoc next)
    | ended _ _ ended => exact nomatch next.symm.trans (nextSolid?_of_end ended)
  · show s'.solids = _
    rw [solids, h.solids, goes.lookahead, List.reverse_append]
    rfl
  · rcases List.mem_append.mp member with old | new
    · exact goes.modes normal h.modes u (goes.lookahead ▸ old)
    · rw [List.mem_singleton.mp new, place]
      exact List.mem_of_head? head
  · rw [List.dropLast_concat, goes.lookahead]
    exact plain
  · rw [List.getLast?_concat, place]
    rintro _ ⟨⟩ _
    exact head

/-- At the end of the text nothing is brought into the buffer. -/
theorem fetch_none (h : s.Feeds text c read) (plain : ∀ u ∈ s.lookahead, ¬ u.kind.OpensMode)
    (normal : s.lookahead ≠ [] → s.tokenizer.mode = .normal)
    (next : s.tokenizer.nextSolid? = none) :
    ∃ s', s.pull = (none, s') ∧ s'.lookahead = s.lookahead ∧ s'.Feeds text c read := by
  obtain ⟨s', pulled, goes, ended, solids⟩ := pull_none next
  refine ⟨s', pulled, goes.lookahead, ?_, ?_, goes.taken.trans h.taken, goes.text.trans h.text,
    ?_, ?_, ?_⟩
  · rw [goes.lookahead]
    cases h.stands with
    | behind between => exact .ended between next ended plain
    | ended between nothing _ => exact .ended between nothing ended plain
  · rw [solids, h.solids, goes.lookahead]
  · exact fun u member => goes.modes normal h.modes u (goes.lookahead ▸ member)
  · exact fun u member => plain u (goes.lookahead ▸ List.dropLast_subset _ member)
  · exact fun u last opens => (plain u (goes.lookahead ▸ List.mem_of_getLast? last) opens).elim

/-- What the buffer holds after one more token is asked for. -/
theorem fill (h : s.Feeds text c read) (plain : ∀ u ∈ s.lookahead, ¬ u.kind.OpensMode)
    (normal : s.lookahead ≠ [] → s.tokenizer.mode = .normal) :
    (s.fill 1).lookahead = s.lookahead ++ (s.tokenizer.nextSolid?.map (·.1)).toList ∧
      (s.fill 1).Feeds text c read := by
  cases next : s.tokenizer.nextSolid? with
  | none =>
    obtain ⟨s', pulled, same, feeds⟩ := h.fetch_none plain normal next
    have filled : s.fill 1 = s' := by rw [TokenStream.fill, pulled]
    rw [filled, same]
    exact ⟨(List.append_nil _).symm, feeds⟩
  | some entry =>
    obtain ⟨t, after⟩ := entry
    obtain ⟨s', pulled, same, feeds⟩ := h.fetch plain normal next
    have filled : s.fill 1 = { s' with lookahead := s'.lookahead ++ [t] } := by
      rw [TokenStream.fill, pulled]; rfl
    rw [filled]
    exact ⟨congrArg (· ++ [t]) same, feeds⟩

/-- A look at the next token. -/
theorem peek (h : s.Feeds text c read) :
    (s.peek 0).1 = c.nextSolid?.map (·.1) ∧ (s.peek 0).2.Feeds text c read := by
  cases buffer : s.lookahead with
  | cons t ts =>
    obtain ⟨after, next, _⟩ := h.front buffer
    have filled : s.fill (0 + 1 - s.lookahead.length) = s := by
      rw [buffer, List.length_cons, Nat.sub_eq_zero_of_le (by omega)]
      rfl
    rw [TokenStream.peek, filled, buffer, next]
    exact ⟨rfl, h⟩
  | nil =>
    have count : 0 + 1 - s.lookahead.length = 1 := by rw [buffer]; rfl
    obtain ⟨waits, feeds⟩ := h.fill (buffer ▸ nofun) (absurd buffer)
    rw [TokenStream.peek, count]
    refine ⟨?_, feeds⟩
    rw [waits, buffer, h.tokenizer_next buffer]
    cases c.nextSolid? <;> rfl

/-- With the next token in the buffer, a look at the one after it. -/
theorem peekBehind {ts : List Token} (h : s.Feeds text c read) (buffer : s.lookahead = t :: ts)
    (next : c.nextSolid? = some (t, after))
    (plain : ¬ t.kind.OpensMode) (normal : after.mode = .normal) :
    (s.peek 1).1 = after.nextSolid?.map (·.1) ∧ (s.peek 1).2.Feeds text c read := by
  obtain ⟨behind, first, stands⟩ := h.front buffer
  obtain rfl : after = behind := congrArg Prod.snd (Option.some.inj (next.symm.trans first))
  cases ts with
  | cons u us =>
    have filled : s.fill (1 + 1 - s.lookahead.length) = s := by
      rw [buffer, List.length_cons, List.length_cons, Nat.sub_eq_zero_of_le (by omega)]
      rfl
    rw [TokenStream.peek, filled, buffer]
    refine ⟨?_, h⟩
    cases stands with
    | behind between => cases between with | token second => rw [second]; rfl
    | ended between => cases between with | token second => rw [second]; rfl
  | nil =>
    have count : 1 + 1 - s.lookahead.length = 1 := by rw [buffer]; rfl
    rw [TokenStream.peek, count]
    cases stands with
    | ended between nothing ended =>
      cases between
      have filled : s.fill 1 = s := by
        rw [TokenStream.fill, TokenStream.pull, ended]
        rfl
      rw [filled, buffer, nothing]
      exact ⟨rfl, h⟩
    | behind between =>
      generalize place : s.tokenizer = tokenizer at between
      cases between
      obtain ⟨waits, feeds⟩ := h.fill (buffer ▸ List.forall_mem_singleton.mpr plain) fun _ =>
        place ▸ normal
      refine ⟨?_, feeds⟩
      rw [waits, buffer, place]
      cases after.nextSolid? <;> rfl

/-- A look at the token after the next one. -/
theorem peekSecond (h : s.Feeds text c read) (next : c.nextSolid? = some (t, after))
    (plain : ¬ t.kind.OpensMode)
    (normal : after.mode = .normal) : (s.peek 1).1 = after.nextSolid?.map (·.1) ∧
    (s.peek 1).2.Feeds text c read := by
  cases buffer : s.lookahead with
  | cons u ts =>
    obtain ⟨behind, first, _⟩ := h.front buffer
    obtain rfl : t = u := congrArg Prod.fst (Option.some.inj (next.symm.trans first))
    exact h.peekBehind buffer next plain normal
  | nil =>
    -- the buffer is filled one token at a time
    obtain ⟨s', pulled, same, feeds⟩ :=
      h.fetch (buffer ▸ nofun) (absurd buffer) ((h.tokenizer_next buffer).trans next)
    have waits : s'.lookahead ++ [t] = [t] := by rw [same, buffer]; rfl
    have later :
        s.peek 1 = ({ s' with lookahead := s'.lookahead ++ [t] } : TokenStream).peek 1 := by
      have count : 1 + 1 - s.lookahead.length = 2 := by rw [buffer]; rfl
      have count' : 1 + 1 - (s'.lookahead ++ [t]).length = 1 := by rw [waits]; rfl
      have filled :
          s.fill 2 = ({ s' with lookahead := s'.lookahead ++ [t] } : TokenStream).fill 1 := by
        rw [TokenStream.fill, pulled]
      rw [TokenStream.peek, TokenStream.peek, count, count', filled]
    rw [later]
    exact feeds.peekBehind waits next plain normal

/-- The next token is given away. One that waited in the buffer was read in the mode
that the tokenizer is in, and behind a bracket that may open a mode nothing waits. -/
theorem bump (h : s.Feeds text c read) (next : c.nextSolid? = some (t, after)) :
    ∃ s', s.bump = (some t, s') ∧ s'.Feeds text after (t :: read) ∧
      (s'.tokenizer.mode, t) ∈ s'.produced ∧
      (t.kind.OpensMode → s'.lookahead = [] ∧ s'.tokenizer = after ∧
        s'.produced.head? = some (s'.tokenizer.mode, t)) := by
  cases buffer : s.lookahead with
  | cons u ts =>
    obtain ⟨behind, first, stands⟩ := h.front buffer
    obtain ⟨rfl, rfl⟩ : t = u ∧ after = behind :=
      Prod.mk.inj (Option.some.inj (next.symm.trans first))
    refine ⟨{ s with lookahead := ts, taken := t :: s.taken }, by rw [TokenStream.bump, buffer], ?_,
      h.modes t (buffer ▸ List.mem_cons_self ..), fun opens => ?_⟩
    · refine ⟨stands, ?_, congrArg (t :: ·) h.taken, h.text, fun u member => ?_, fun u member => ?_,
        fun u last => ?_⟩
      · show s.solids = _
        rw [h.solids, buffer, List.reverse_cons, List.append_assoc]
        rfl
      · exact h.modes u (buffer ▸ List.mem_cons_of_mem _ member)
      · refine h.passed u ?_
        rw [buffer, List.dropLast_cons_of_ne_nil
          (List.ne_nil_of_mem (List.dropLast_subset _ member))]
        exact List.mem_cons_of_mem _ member
      · refine h.bracket u ?_
        rw [buffer, List.getLast?_cons, last]
        rfl
    · cases ts with
      | cons v vs =>
        refine (h.passed t ?_ opens).elim
        rw [buffer]
        exact List.mem_cons_self ..
      | nil =>
        have head := h.bracket t (by rw [buffer]; rfl) opens
        cases h.stands with
        | ended _ _ _ plain => exact (plain t (buffer ▸ List.mem_singleton_self t) opens).elim
        | behind between =>
          generalize place : s.tokenizer = tokenizer at between
          rw [buffer] at between
          cases between with
          | token first rest =>
            cases rest
            exact ⟨rfl, congrArg Prod.snd (Option.some.inj (first.symm.trans next)), place ▸ head⟩
  | nil =>
    obtain ⟨s', pulled, goes, place, head, solids⟩ :=
      pull_some ((h.tokenizer_next buffer).trans next)
    have empty : s'.lookahead = [] := goes.lookahead.trans buffer
    refine ⟨{ s' with taken := t :: s'.taken }, by rw [TokenStream.bump, buffer, pulled], ?_,
      List.mem_of_head? (place ▸ head), fun _ => ⟨empty, place, place ▸ head⟩⟩
    refine ⟨.behind ?_, ?_, congrArg (t :: ·) (goes.taken.trans h.taken), goes.text.trans h.text,
      ?_, ?_, ?_⟩
    · show Between after s'.lookahead s'.tokenizer
      rw [empty, place]
      exact .nothing _
    · show s'.solids = s'.lookahead.reverse ++ _
      rw [solids, h.solids, buffer, empty]
      rfl
    all_goals show ∀ u, _
    all_goals exact empty ▸ nofun

theorem empty_of_end (h : s.Feeds text c read) (next : c.nextSolid? = none) : s.lookahead = [] := by
  cases buffer : s.lookahead with
  | nil => rfl
  | cons t ts =>
    obtain ⟨_, first, _⟩ := h.front buffer
    exact nomatch next.symm.trans first

theorem bump_none (h : s.Feeds text c read) (next : c.nextSolid? = none) :
    ∃ s', s.bump = (none, s') ∧ s'.Feeds text c read := by
  have empty := h.empty_of_end next
  obtain ⟨s', pulled, _, feeds⟩ :=
    h.fetch_none (empty ▸ nofun) (absurd empty) ((h.tokenizer_next empty).trans next)
  exact ⟨s', by rw [TokenStream.bump, empty, pulled], feeds⟩

/-- A mode is gone into with an empty buffer. -/
theorem enter (h : s.Feeds text c read) (empty : s.lookahead = []) (place : s.tokenizer = c)
    (mode : Mode) :
    (s.enter mode).Feeds text (c.enter mode) read := by
  refine ⟨.behind ?_, h.solids, h.taken, ?_, empty ▸ nofun, empty ▸ nofun, empty ▸ nofun⟩
  · show Between (c.enter mode) s.lookahead (s.tokenizer.enter mode)
    rw [empty, place]
    exact .nothing _
  · rw [← h.text, TokenStream.text, TokenStream.text, TokenStream.enter, Cursor.enter_rest]

end Feeds

/-! ### Calls -/

/-- A stream answers a call as it should. What it answers was read in the mode that the
tokenizer is in. Where a mode is gone into nothing waits in the buffer, and the last token
that was produced is the bracket that opens the mode, which was given away last. -/
structure Fits (s : TokenStream) (call : Call) : Prop where
  answer : (s.serve call.request).1 = call.answer
  mode : ∀ t, call.answer = some t →
      ((s.serve call.request).2.tokenizer.mode, t) ∈ (s.serve call.request).2.produced
  entering : ∀ mode, call.request = .enter mode → s.lookahead = [] ∧
    ∃ t, mode.opener? = some t.kind ∧ s.taken.head? = some t ∧
        s.produced.head? = some (s.tokenizer.mode, t)

namespace Fits

theorem peek {n : Nat} {o : Option Token} (answer : (s.peek n).1 = o)
    (feeds : (s.peek n).2.Feeds text c read) :
    s.Fits ⟨.peek n, o⟩ where
  answer := answer
  mode t shown := feeds.modes t (List.mem_of_getElem? (answer.trans shown))
  entering _ enters := Request.noConfusion enters

theorem bump {o : Option Token} (bumped : s.bump = (o, s'))
    (mode : ∀ t, o = some t → (s'.tokenizer.mode, t) ∈ s'.produced) :
    s.Fits ⟨.bump, o⟩ where
  answer := congrArg Prod.fst bumped
  mode t shown := by
    rw [serve, bumped]
    exact mode t shown
  entering _ enters := Request.noConfusion enters

theorem enter {mode : Mode} (empty : s.lookahead = []) (opener : mode.opener? = some t.kind)
    (taken : s.taken.head? = some t)
    (produced : s.produced.head? = some (s.tokenizer.mode, t)) : s.Fits ⟨.enter mode, none⟩ where
  answer := rfl
  mode _ shown := by cases shown
  entering _ enters := by
    cases enters
    exact ⟨empty, t, opener, taken, produced⟩

end Fits

/-- Each of some calls fits the stream that those before it leave behind. -/
def Serves : TokenStream → List Call → Prop
  | _, [] => True
  | s, call :: later => s.Fits call ∧ (s.serve call.request).2.Serves later

variable {calls later : List Call}

theorem after_append : s.after (calls ++ later) = (s.after calls).after later :=
  List.foldl_append ..

theorem Serves.append (h : s.Serves calls) (h' : (s.after calls).Serves later) :
    s.Serves (calls ++ later) := by
  induction calls generalizing s with
  | nil => exact h'
  | cons call calls ih => exact ⟨h.1, ih h.2 h'⟩

/-- The tokens that are given away in some calls. -/
def delivered (calls : List Call) : List Token :=
  calls.filterMap fun call => if call.request = .bump then call.answer else none

theorem pullIn_taken (fuel : Nat) (s : TokenStream) : (pullIn fuel s).2.taken = s.taken := by
  induction fuel generalizing s with
  | zero => rfl
  | succ fuel ih =>
    rw [pullIn]
    split
    · rfl
    · split
      · exact ih _
      · rfl

theorem fill_taken (n : Nat) (s : TokenStream) : (s.fill n).taken = s.taken := by
  induction n generalizing s with
  | zero => rfl
  | succ n ih =>
    have pulled : s.pull.2.taken = s.taken := pullIn_taken _ s
    rw [fill]
    split
    · rename_i s' found
      exact (congrArg (·.2.taken) found).symm.trans pulled
    · rename_i t s' found
      exact (ih _).trans ((congrArg (·.2.taken) found).symm.trans pulled)

theorem bump_taken (s : TokenStream) : s.bump.2.taken = s.bump.1.toList ++ s.taken := by
  have pulled : s.pull.2.taken = s.taken := pullIn_taken _ s
  rw [bump]
  split
  · rfl
  · split
    · rename_i s' found
      exact (congrArg (·.2.taken) found).symm.trans pulled
    · rename_i t s' found
      exact congrArg (t :: ·) ((congrArg (·.2.taken) found).symm.trans pulled)

/-- What is given away in calls that a stream serves is what it has taken. -/
theorem Serves.taken (h : s.Serves calls) :
    (s.after calls).taken = (delivered calls).reverse ++ s.taken := by
  induction calls generalizing s with
  | nil => rfl
  | cons call calls ih =>
    obtain ⟨⟨answer, _, _⟩, rest⟩ := h
    rw [after, List.foldl_cons, ← after, ih rest, delivered, delivered, List.filterMap_cons]
    obtain ⟨request, token⟩ := call
    cases request with
    | peek n => exact congrArg _ (fill_taken _ s)
    | enter mode => rfl
    | bump =>
      rw [show s.serve .bump = s.bump from rfl] at answer ⊢
      rw [bump_taken, answer]
      cases token with
      | none => rfl
      | some t => simp

end TokenStream

end RuleDesk
