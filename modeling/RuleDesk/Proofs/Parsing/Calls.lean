import RuleDesk.Proofs.Parsing.RuleBodies
import RuleDesk.Proofs.Parsing.Streams

namespace RuleDesk

/-! ## What the parser asks of the stream of tokens

A parse keeps only the cursor behind what it has read, and looks ahead from there. The
stream that serves its calls has a buffer instead, and a tokenizer that has gone on. -/

namespace ParseState

/-- The next token is one of normal mode, and so are all those behind it. -/
def Calm (s : ParseState) : Prop := ∀ t after, s.input.here.nextSolid? = some (t, after) →
  after.mode = .normal

theorem next?_eq (s : ParseState) : s.next? = s.input.here.nextSolid?.map (·.1) := by
  rw [next?, s.input.ahead_eq]

theorem Calm.take {s : ParseState} (h : s.Calm) {t : Token} {after : Cursor}
    (next : s.input.ahead = some (t, after)) :
    (s.take t after).Calm :=
  fun _ _ behind =>
    Cursor.nextSolid?_stays_normal behind (h t after (s.input.ahead_eq.symm.trans next))

end ParseState

namespace Parser

/-- A stream that a state of the parse may have before it. -/
abbrev FedBy (text : List Char) (s : ParseState) (stream : TokenStream) : Prop :=
  stream.Feeds text s.input.here s.read

/-- A stream serves some calls, and then it is one that another state has before it. -/
structure Served (text : List Char) (plain : Bool) (stream : TokenStream) (calls : List Call)
    (s : ParseState) : Prop where
  serves : stream.Serves calls
  feeds : FedBy text s (stream.after calls)
  calm : plain = true → s.Calm

/-- What a part asks of the stream is served, wherever the next token is of the kind in `front`,
if there is one. A `plain` part is for calm states only. -/
def Asks (text : List Char) (plain : Bool) (front : Option Kind) (p : Parser α) : Prop :=
  ∀ s stream, FedBy text s stream → (plain = true → s.Calm) → (∀ k ∈ front, s.kindAhead? = some k) →
    Served text plain stream (p.calls s) (p.run s).2

namespace Served

variable {text : List Char} {plain : Bool} {stream : TokenStream} {calls later : List Call}
    {s t : ParseState}

theorem silent (feeds : FedBy text s stream) (calm : plain = true → s.Calm) :
    Served text plain stream [] s := ⟨trivial, feeds, calm⟩

theorem append (h : Served text plain stream calls s)
    (h' : Served text plain (stream.after calls) later t) :
    Served text plain stream (calls ++ later) t :=
  ⟨h.serves.append h'.serves, TokenStream.after_append ▸ h'.feeds, h'.calm⟩

/-- A look ahead is answered, and the state stays what it is. -/
theorem look (feeds : FedBy text s stream) (calm : plain = true → s.Calm)
    (shows : Shows plain s call) :
    stream.Fits call ∧ FedBy text s (stream.serve call.request).2 := by
  cases shows with
  | next =>
    obtain ⟨answer, after⟩ := feeds.peek
    rw [← s.next?_eq] at answer
    exact ⟨.peek answer after, after⟩
  | @second k ahead undecided =>
    obtain ⟨t, next, kind⟩ := ParseState.kindAhead?_eq_some ahead
    obtain ⟨behind, next⟩ := ParseState.next?_eq_some next
    have solid := s.input.ahead_eq.symm.trans next
    have settled : ¬ t.kind.OpensMode ∧ behind.mode = .normal := by
      rw [kind]
      rcases undecided with looks | ⟨is_plain, paren⟩
      · obtain ⟨plain, other⟩ := Kind.looksBeyond_settled looks
        exact ⟨plain, Cursor.nextSolid?_ends_hex solid (kind ▸ other)⟩
      · refine ⟨?_, calm is_plain t behind solid⟩
        rintro ⟨mode, opens⟩
        subst paren
        cases mode <;> cases opens
    obtain ⟨answer, after⟩ := feeds.peekSecond solid settled.1 settled.2
    have second : s.second? = behind.nextSolid?.map (·.1) := by rw [ParseState.second?, next]; rfl
    rw [← second] at answer
    exact ⟨.peek answer after, after⟩

/-- The same for one look ahead after another. -/
theorem looks (feeds : FedBy text s stream) (calm : plain = true → s.Calm)
    (shows : ∀ call ∈ calls, Shows plain s call) :
    Served text plain stream calls s := by
  induction calls generalizing stream with
  | nil => exact .silent feeds calm
  | cons call calls ih =>
    obtain ⟨first, rest⟩ := List.forall_mem_cons.mp shows
    obtain ⟨fits, fed⟩ := look feeds calm first
    obtain ⟨serves, fed, _⟩ := ih fed rest
    exact ⟨⟨fits, serves⟩, fed, calm⟩

/-- The next token is read. -/
theorem advance (feeds : FedBy text s stream) (calm : plain = true → s.Calm) :
    Served text plain stream (Parser.advance.calls s) (Parser.advance.run s).2 := by
  rw [run_advance]
  show Served text plain stream [⟨.bump, s.next?⟩] _
  cases ahead : s.input.ahead with
  | none =>
    have next : s.next? = none := by rw [ParseState.next?, ahead]; rfl
    obtain ⟨stream', bumped, fed⟩ := feeds.bump_none (s.input.ahead_eq.symm.trans ahead)
    have after : (stream.serve .bump).2 = stream' := congrArg Prod.snd bumped
    have fed : FedBy text s (stream.serve .bump).2 := after ▸ fed
    have fits : stream.Fits ⟨.bump, none⟩ := .bump bumped (by rintro _ ⟨⟩)
    rw [ParseState.advanced_of_none next, next]
    exact ⟨⟨fits, trivial⟩, fed, calm⟩
  | some entry =>
    obtain ⟨t, behind⟩ := entry
    have next : s.next? = some t := by rw [ParseState.next?, ahead]; rfl
    have state : s.advanced .normal = s.take t behind := by rw [ParseState.advanced, ahead]; rfl
    obtain ⟨stream', bumped, fed, mode, _⟩ := feeds.bump (s.input.ahead_eq.symm.trans ahead)
    have after : (stream.serve .bump).2 = stream' := congrArg Prod.snd bumped
    have fed : FedBy text (s.take t behind) (stream.serve .bump).2 := after ▸ fed
    have fits : stream.Fits ⟨.bump, some t⟩ :=
      .bump bumped fun _ shown => Option.some.inj shown ▸ mode
    rw [state, next]
    exact ⟨⟨fits, trivial⟩, fed, fun is_plain => (calm is_plain).take ahead⟩

/-- A bracket is read, and then a mode is gone into with nothing in the buffer. -/
theorem opens (feeds : FedBy text s stream) {k : Kind} (front : s.kindAhead? = some k) {mode : Mode}
    (opener : mode.opener? = some k) :
    Served text false stream ((advanceInto mode).calls s) ((advanceInto mode).run s).2 := by
  obtain ⟨t, next, rfl⟩ := ParseState.kindAhead?_eq_some front
  obtain ⟨behind, ahead⟩ := ParseState.next?_eq_some next
  have state : s.advanced mode = s.take t (behind.enter mode) := by rw [ParseState.advanced, ahead]
  have other : mode ≠ .normal := by
    rintro rfl
    cases opener
  have calls : (advanceInto mode).calls s = [⟨.bump, some t⟩, ⟨.enter mode, none⟩] := by
    rw [← next]
    exact congrArg (_ :: ·) (if_neg other)
  obtain ⟨stream', bumped, fed, known, bracket⟩ := feeds.bump (s.input.ahead_eq.symm.trans ahead)
  obtain ⟨empty, place, head⟩ := bracket ⟨mode, opener⟩
  have after : (stream.serve .bump).2 = stream' := congrArg Prod.snd bumped
  have reads : stream.Fits ⟨.bump, some t⟩ :=
    .bump bumped fun _ shown => Option.some.inj shown ▸ known
  have enters : stream'.Fits ⟨.enter mode, none⟩ :=
    .enter empty opener (by rw [fed.taken]; rfl) head
  have fed : FedBy text (s.take t (behind.enter mode)) (stream'.enter mode) :=
    fed.enter empty place mode
  rw [run_advanceInto, calls, state]
  rw [← after] at enters fed
  exact ⟨⟨reads, enters, trivial⟩, fed, fun absurd => Bool.noConfusion absurd⟩

end Served

namespace Asks

variable {text : List Char} {plain : Bool} {front : Option Kind} {p : Parser α} {f : α → Parser β}

theorem bind (h : Asks text plain front p) (rest : ∀ a, Asks text plain none (f a)) :
    Asks text plain front (p >>= f) := by
  intro s stream feeds calm ahead
  have first := h s stream feeds calm ahead
  exact first.append (rest _ _ _ first.feeds first.calm nofun)

theorem any (h : Asks text plain none p) : Asks text plain front p :=
  fun s stream feeds calm _ => h s stream feeds calm nofun

/-- A part that asks for nothing and reads nothing. -/
theorem silent (calls : ∀ s, p.calls s = []) (input : ∀ s, (p.run s).2.input = s.input)
    (read : ∀ s, (p.run s).2.read = s.read) :
    Asks text plain front p := by
  intro s stream feeds calm _
  rw [calls]
  refine .silent ?_ fun is_plain => ?_
  · show stream.Feeds text (p.run s).2.input.here (p.run s).2.read
    rw [input, read]
    exact feeds
  · show ∀ t after, (p.run s).2.input.here.nextSolid? = _ → _
    rw [input]
    exact calm is_plain

theorem pure (a : α) : Asks text plain front (pure a : Parser α) :=
  silent (fun _ => rfl) (fun _ => rfl) (fun _ => rfl)

theorem setPanicking (b : Bool) : Asks text plain front (setPanicking b) :=
  silent (fun _ => rfl) (fun _ => rfl) (fun _ => rfl)

theorem setDepth (n : Nat) : Asks text plain front (setDepth n) :=
  silent (fun _ => rfl) (fun _ => rfl) (fun _ => rfl)

theorem report (fault : SyntaxFault) (span : Span) : Asks text plain front (report fault span) :=
  silent (fun _ => rfl) (fun _ => rfl) (fun _ => rfl)

theorem sees (glances : ∀ s, (∀ k ∈ front, s.kindAhead? = some k) → Glances plain p s) :
    Asks text plain front p := by
  intro s stream feeds calm ahead
  obtain ⟨state, shows⟩ := glances s ahead
  rw [state]
  exact .looks feeds calm shows

theorem advance : Asks text plain front advance := fun _ _ feeds calm _ => .advance feeds calm

theorem facing {f : Option Token → Parser α} (nothing : Asks text plain none (f none))
    (token : ∀ t, Asks text plain (some t.kind) (f (some t))) :
    Asks text plain none (peek >>= f) := by
  intro s stream feeds calm _
  have first : Served text plain stream (peek.calls s) s := .looks feeds calm Glances.peek.shows
  have rest : Served text plain (stream.after (peek.calls s)) ((f s.next?).calls s)
      ((f s.next?).run s).2 := by
    cases next : s.next? with
    | none => exact nothing s _ first.feeds calm nofun
    | some t =>
      refine token t s _ first.feeds calm ?_
      rintro _ ⟨⟩
      exact ParseState.kindAhead?_of_next next
  exact first.append rest

theorem ite {c : Prop} [Decidable c] {p q : Parser α} (h : Asks text plain front p)
    (h' : Asks text plain front q) :
    Asks text plain front (if c then p else q) := by
  split
  · exact h
  · exact h'

theorem look : Asks text plain front look := silent (fun _ => rfl) (fun _ => rfl) (fun _ => rfl)

theorem unexpected (expected : Expectation) : Asks text plain none (unexpected expected) := by
  refine look.bind fun s =>
    .ite (.pure _) ((setPanicking true).bind fun _ => .facing ?_ fun t => report _ _)
  exact (look.bind fun _ => .pure _).bind fun _ => report _ _

theorem iterate {step : α → Parser (ForInStep α)}
    (steps : ∀ a, Asks text plain none (step a)) (a : α) :
    Asks text plain none (iterate step a) := by
  have fueled : ∀ fuel a, Asks text plain none (iterateIn step fuel a) := by
    intro fuel
    induction fuel with
    | zero => exact fun a => pure a
    | succ fuel ih =>
      refine fun a => (steps a).bind fun r => ?_
      cases r with
      | done b => exact pure b
      | yield b => exact ih b
  exact fun s stream feeds calm ahead =>
    fueled (s.input.here.rest.length + 1) a s stream feeds calm ahead

theorem tooDeep : Asks text plain none tooDeep := by
  have skip : Asks text plain none skipToSyncPoint :=
    .iterate (fun _ => (sees fun _ _ => .atSyncPoint).bind fun _ =>
      .ite (.pure _) (advance.bind fun _ => .pure _)) ()
  refine (sees fun _ _ => .spanAhead).bind fun _ => skip.bind fun _ =>
    (sees fun _ _ => .lastStop).bind fun _ => ?_
  exact (report _ _).bind fun _ => (setPanicking _).bind fun _ => .pure _

end Asks

theorem Composed.asks {plain : Bool} {front : Option Kind} {α : Type} {p : Parser α}
    (text : List Char) (h : Composed plain front p) :
    Asks text plain front p := by
  induction h with
  | pure a => exact .pure a
  | bind _ _ first rest => exact first.bind rest
  | facing _ _ nothing token => exact .facing nothing token
  | any _ h => exact h.any
  | sees g run glances => exact .sees glances
  | advance => exact .advance
  | opens mode opener => exact fun s stream feeds _ ahead => .opens feeds (ahead _ rfl) opener
  | report fault span => exact .report fault span
  | unexpected expected => exact .unexpected expected
  | setDepth n => exact .setDepth n
  | iterate _ a steps => exact .iterate steps a
  | tooDeep => exact .tooDeep

/-! ### Items -/

namespace Asks

variable {text : List Char} {plain : Bool} {p : Parser α}

/-- Behind a token that no hex pattern has the state is calm. -/
theorem settled {k : Kind} (h : Asks text plain none p) (other : ¬ k.isOfHex) :
    Asks text false (some k) p := by
  intro s stream feeds _ ahead
  have calm : s.Calm := by
    intro t after next
    have kind :=
      ParseState.kindAhead?_of_next (s.next?_eq.trans (congrArg (Option.map Prod.fst) next))
    exact Cursor.nextSolid?_ends_hex next (Option.some.inj ((ahead k rfl).symm.trans kind) ▸ other)
  obtain ⟨serves, fed, _⟩ := h s stream feeds (fun _ => calm) nofun
  exact ⟨serves, fed, nofun⟩

theorem bodyStep (r : Rule) : Asks text false none (bodyStep r) := by
  have unclosed : Asks text false none
    (do Parser.report .unbalancedBraces (r.lbrace.getD r.ident.span); return ForInStep.done r) :=
    (report _ _).bind fun _ => .pure _
  refine .facing unclosed fun t => .ite (.any (advance.bind fun _ => .pure _)) ?_
  split
  · rename_i kind found
    have part : Asks text (kind == .condition) none
        (do Parser.setPanicking false; return ForInStep.yield (← Parser.ruleSection kind r)) :=
      (setPanicking false).bind fun _ => ((Composed.ruleSection kind r).asks text).bind
        fun _ => .pure _
    exact part.settled (kind_of_sectionKindOf? found)
  · refine .any ((sees fun _ _ => .atTopLevelItem).bind fun _ => .ite unclosed ?_)
    exact (unexpected _).bind fun _ => advance.bind fun _ => .pure _

theorem ruleAfterKeyword (start : Nat) (flags : RuleFlags) :
    Asks text false none (ruleAfterKeyword start flags) := by
  have head : Asks text false none (ruleHead flags) := (Composed.ruleHead flags).asks text
  have stop : ∀ r, Asks text false none (ruleStop r) := by
    intro r
    unfold ruleStop
    split
    · exact .pure _
    · exact .sees fun _ _ => .lastStop
  refine head.bind fun r => (iterate bodyStep r).bind fun r => (stop r).bind fun _ =>
    .ite ?_ (.pure _)
  exact (report _ _).bind fun _ => .pure _

theorem ruleItem : Asks text false none ruleItem := by
  refine .facing (.pure _) fun t => .any ?_
  have flags : Asks text false none (Parser.iterate flagStep ⟨false, false⟩) :=
    (Composed.iterate Composed.flagStep _).asks text
  have keyword : Asks text false none (expect (.keyword .kwRule)) := (Composed.expect _).asks text
  refine flags.bind fun _ => keyword.bind fun o => ?_
  cases o with
  | none => exact .pure _
  | some _ => exact (ruleAfterKeyword _ _).bind fun _ => .pure _

theorem itemStep (items : Items) : Asks text false none (itemStep items) := by
  refine (sees fun _ _ => .peekKind).bind fun o => ?_
  split
  · exact .pure _
  · exact (setPanicking false).bind fun _ => (Composed.importItem.asks text).bind fun _ => .pure _
  · exact (setPanicking false).bind fun _ => (Composed.includeItem.asks text).bind fun _ => .pure _
  · refine .ite ((setPanicking false).bind fun _ => ruleItem.bind fun _ => .pure _) ?_
    exact (unexpected _).bind fun _ => advance.bind fun _ => .pure _

theorem sourceFile : Asks text false none sourceFile :=
  (iterate itemStep _).bind fun _ => look.bind fun _ => .pure _

end Asks

/-- Every call of a parse fits the stream of its text: the stream answers as the parse goes
on, with tokens that were read in the mode it is in, and a mode is gone into with nothing in
the buffer and right behind the bracket that opens it. In the end the tokens produced are
the text, but for trivia behind them, and all of them that mean something were given away,
once each and in their order. They are the tokens that the parse has read. -/
theorem calls_served (text : List Char) :
    let calls := sourceFile.calls (initial text)
    let final := (TokenStream.start text).after calls
    (TokenStream.start text).Serves calls ∧ final.text = text ∧ final.tokenizer.nextSolid? = none ∧
      TokenStream.delivered calls = (final.produced.reverse.map (·.2)).filter (!·.kind.isTrivia) ∧
      TokenStream.delivered calls = (finalState text).read.reverse := by
  intro calls final
  obtain ⟨serves, feeds, _⟩ : Served text false (.start text) calls (finalState text) :=
    Asks.sourceFile (initial text) (.start text) (.start text) nofun nofun
  have ended : (finalState text).input.here.nextSolid? = none :=
    Option.map_eq_none_iff.mp ((ParseState.next?_eq _).symm.trans (finalState_next? text))
  have empty : final.lookahead = [] := feeds.empty_of_end ended
  have taken : final.taken = (TokenStream.delivered calls).reverse :=
    serves.taken.trans (List.append_nil _)
  have given : TokenStream.delivered calls = (finalState text).read.reverse := by
    rw [← feeds.taken, taken, List.reverse_reverse]
  refine ⟨serves, feeds.text, (feeds.tokenizer_next empty).trans ended, ?_, given⟩
  have solids : final.solids = (finalState text).read := by rw [feeds.solids, empty]; rfl
  rw [given, ← solids, TokenStream.solids, List.map_reverse, List.filter_reverse]

example : (patternValue.calls (initial "{[1]}".toList)).map (·.request) =
    [.peek 0, .bump, .enter .hex, .peek 0, .bump, .enter .jump, .peek 0, .bump, .peek 0, .peek 0,
    .bump, .peek 0, .bump] := by
  decide

end Parser

end RuleDesk
