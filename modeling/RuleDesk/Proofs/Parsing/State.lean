import RuleDesk.Proofs.Parsing.Rebase

namespace RuleDesk

namespace Kind

/-- Kinds of tokens that the grammar has a place for. -/
def isSound : Kind → Bool
  | openString | openRegexp | unknown => false
  | _ => true

/-- Kinds of tokens that are taken one at a time where the grammar asks for
them. The keyword of a rule is taken by no other construct: it starts the next
rule wherever it stands. A modifier is taken together with its arguments. -/
def isPlain (k : Kind) : Bool :=
  k != keyword .kwRule && k.isSound && !Parser.isModifierWithArguments k

/-- Kinds of tokens that are spelled as a name. -/
def isName : Kind → Bool
  | ident | sigil _ => true
  | _ => false

/-- Kinds of tokens where what is done depends on the token after them. After
`of` this is also so at a parenthesis. -/
def looksBeyond : Kind → Bool
  | keyword .kwPrivate | keyword .kwGlobal | symbol .percent | symbol .dot | ident => true
  | sigil s => s != .identity
  | _ => false

end Kind

/-- The kind of the bracket that opens a mode. -/
def Mode.opener? : Mode → Option Kind
  | .normal => none
  | .hex => some (.symbol .lbrace)
  | .jump => some (.symbol .lbracket)

/-- Kinds of tokens where a mode may be gone into. -/
def Kind.OpensMode (k : Kind) : Prop := ∃ mode : Mode, mode.opener? = some k

namespace ParseState

/-- The next token. -/
def next? (s : ParseState) : Option Token := s.input.ahead.map (·.1)

/-- The token after the next one. -/
def second? (s : ParseState) : Option Token :=
  s.input.ahead.bind fun (_, after) => after.nextSolid?.map (·.1)

def kindAhead? (s : ParseState) : Option Kind := s.next?.map (·.kind)

def kindBeyond? (s : ParseState) : Option Kind := s.second?.map (·.kind)

/-- True when nothing stands between the token read last and the next one. -/
def adjacent (s : ParseState) : Bool := s.next?.any (·.start == s.input.here.offset)

/-- True when nothing stands between the next token and the one after it. -/
def joined (s : ParseState) : Bool := s.next?.any fun t => s.second?.any (·.start == t.stop)

/-- True when the token read last is of a kind. -/
def justRead (s : ParseState) (k : Kind) : Prop := s.read.head?.map (·.kind) = some k

/-- The offset where the text ends. -/
def textStop (s : ParseState) : Nat := s.input.here.offset + byteLength s.input.here.rest

def reported (s : ParseState) (e : SyntaxError) : ParseState := { s with errors := s.errors ++ [e] }

/-- The state after an error that starts panic mode. -/
def panicked (s : ParseState) (e : SyntaxError) : ParseState :=
  { s.reported e with panicking := true }

/-- The error that the next token is where the grammar expects something else. -/
def unexpectedError (s : ParseState) (expected : Expectation) : SyntaxError :=
  match s.next? with
  | none => ⟨.unexpectedEnd expected, .point s.textStop⟩
  | some t => ⟨Parser.faultOf t expected, t.span⟩

/-- The state after the next token, where a mode is gone into. -/
def advanced (s : ParseState) (mode : Mode) : ParseState :=
  match s.input.ahead with
  | none => s
  | some (token, after) => s.take token (after.enter mode)

theorem kindAhead?_eq_some {s : ParseState} {k : Kind} (h : s.kindAhead? = some k) :
    ∃ t, s.next? = some t ∧ t.kind = k := Option.map_eq_some_iff.mp h

theorem kindAhead?_of_next {s : ParseState} {t : Token} (h : s.next? = some t) :
    s.kindAhead? = some t.kind := by
  rw [kindAhead?, h]; rfl

theorem advanced_of_none {s : ParseState} (h : s.next? = none) (mode : Mode) :
    s.advanced mode = s := by
  unfold next? at h
  unfold advanced
  rw [Option.map_eq_none_iff.mp h]

theorem next?_eq_some {s : ParseState} {t : Token} (h : s.next? = some t) :
    ∃ after, s.input.ahead = some (t, after) := by
  obtain ⟨⟨_, after⟩, ahead, rfl⟩ := Option.map_eq_some_iff.mp h
  exact ⟨after, ahead⟩

@[simp] theorem advanced_panicking (s : ParseState) (mode : Mode) :
    (s.advanced mode).panicking = s.panicking := by
  unfold advanced
  split <;> rfl

@[simp] theorem advanced_depth (s : ParseState) (mode : Mode) :
    (s.advanced mode).depth = s.depth := by
  unfold advanced
  split <;> rfl

@[simp] theorem advanced_errors (s : ParseState) (mode : Mode) :
    (s.advanced mode).errors = s.errors := by
  unfold advanced
  split <;> rfl

/-- Behind the next token stands the one after it. -/
theorem advanced_next? (s : ParseState) : (s.advanced .normal).next? = s.second? := by
  unfold advanced second? next?
  cases ahead : s.input.ahead with
  | none => rw [ahead]; rfl
  | some entry => rfl

theorem advanced_kindAhead? (s : ParseState) : (s.advanced .normal).kindAhead? = s.kindBeyond? :=
  congrArg (Option.map Token.kind) s.advanced_next?

theorem advanced_read {s : ParseState} {t : Token} (h : s.next? = some t) (mode : Mode) :
    (s.advanced mode).read = t :: s.read := by
  obtain ⟨after, ahead⟩ := next?_eq_some h
  simp only [advanced, ahead, take]

theorem advanced_justRead {s : ParseState} {k : Kind} (h : s.kindAhead? = some k) (mode : Mode) :
    (s.advanced mode).justRead k := by
  obtain ⟨t, next, rfl⟩ := kindAhead?_eq_some h
  rw [justRead, advanced_read next]
  rfl

end ParseState

namespace Parser

/-- Whether two tokens, the next and the one after it, start an item of the
top level. The second one decides only behind a modifier of a rule. -/
def startsItem : Option Kind → Option Kind → Bool
  | some (.keyword w), beyond =>
    w == .kwRule || w == .kwImport || w == .kwInclude ||
      ((w == .kwPrivate || w == .kwGlobal) &&
        match beyond with
        | some (.keyword v) => v == .kwRule || v == .kwPrivate || v == .kwGlobal
        | _ => false)
  | _, _ => false

/-! ### How the parts of the parser run -/

section Run

variable (s : ParseState)

@[simp] theorem run_pure (a : α) : (pure a : Parser α).run s = (a, s) := rfl

@[simp] theorem run_bind (p : Parser α) (f : α → Parser β) :
    (p >>= f).run s = (f (p.run s).1).run (p.run s).2 := rfl

theorem calls_bind (p : Parser α) (f : α → Parser β) :
    (p >>= f).calls s = p.calls s ++ (f (p.run s).1).calls (p.run s).2 := rfl

@[simp] theorem run_ite (c : Prop) [Decidable c] (p q : Parser α) :
    (if c then p else q).run s = if c then p.run s else q.run s := by
  split <;> rfl

@[simp] theorem run_look : look.run s = (s, s) := rfl

@[simp] theorem run_peek : peek.run s = (s.next?, s) := rfl

@[simp] theorem run_peekKind : peekKind.run s = (s.kindAhead?, s) := rfl

@[simp] theorem run_peekSecond : peekSecond.run s = (s.second?, s) := rfl

@[simp] theorem run_peekSecondKind : peekSecondKind.run s = (s.kindBeyond?, s) := rfl

@[simp] theorem run_atKind (k : Kind) : (atKind k).run s = (s.kindAhead? == some k, s) := rfl

@[simp] theorem run_lastStop : lastStop.run s = (s.input.here.offset, s) := rfl

@[simp] theorem run_textStop : textStop.run s = (s.textStop, s) := rfl

@[simp] theorem run_pointHere : pointHere.run s = (.point s.input.here.offset, s) := rfl

@[simp] theorem run_getDepth : getDepth.run s = (s.depth, s) := rfl

@[simp] theorem run_setDepth (n : Nat) : (setDepth n).run s = ((), { s with depth := n }) := rfl

@[simp] theorem run_setPanicking (b : Bool) :
    (setPanicking b).run s = ((), { s with panicking := b }) := rfl

@[simp] theorem run_report (fault : SyntaxFault) (span : Span) :
    (report fault span).run s = ((), s.reported ⟨fault, span⟩) := rfl

@[simp] theorem run_advanceInto (mode : Mode) :
    (advanceInto mode).run s = (s.next?, s.advanced mode) := by
  unfold advanceInto ParseState.next? ParseState.advanced
  dsimp only
  cases s.input.ahead <;> rfl

@[simp] theorem run_advance : advance.run s = (s.next?, s.advanced .normal) :=
  run_advanceInto s .normal

@[simp] theorem run_atSyncPoint : atSyncPoint.run s = (s.kindAhead?.all isSyncKind, s) := rfl

theorem run_spanAhead :
    spanAhead.run s = ((s.next?.map (·.span)).getD (.point s.input.here.offset), s) := by
  simp only [spanAhead, run_bind, run_peek]
  cases s.next? <;> rfl

theorem run_nextAdjacent (k : Kind) :
    (nextAdjacent k).run s = (s.kindAhead? == some k && s.adjacent, s) := by
  simp only [nextAdjacent, run_bind, run_peek, ParseState.kindAhead?, ParseState.adjacent]
  cases s.next? <;> rfl

theorem run_unexpected (expected : Expectation) :
    (unexpected expected).run s =
      ((), if s.panicking then s else s.panicked (s.unexpectedError expected)) := by
  rw [unexpected, run_bind, run_look, run_ite]
  split
  · rfl
  · rw [run_bind, run_setPanicking, run_bind, run_peek]
    unfold ParseState.unexpectedError ParseState.next?
    dsimp only
    cases s.input.ahead <;> rfl

theorem run_atTopLevelItem : atTopLevelItem.run s = (startsItem s.kindAhead? s.kindBeyond?, s) := by
  rw [atTopLevelItem, run_bind, run_peekKind]
  cases s.kindAhead? with
  | none => rfl
  | some k =>
    cases k with
    | keyword w =>
      simp only [startsItem]
      cases w == .kwRule || w == .kwImport || w == .kwInclude with
      | true => rfl
      | false =>
        cases w == .kwPrivate || w == .kwGlobal with
        | false => rfl
        | true =>
          show (Bind.bind (m := Parser) _ _).run s = _
          rw [run_bind, run_peekSecondKind]
          cases s.kindBeyond? with
          | none => rfl
          | some k' => cases k' <;> rfl
    | _ => rfl

theorem run_atTuple :
    atTuple.run s =
      (s.kindAhead? == some (.symbol .lparen) && s.kindBeyond? != some (.sigil .identity), s) := by
  rw [atTuple, run_bind, run_atKind]
  cases s.kindAhead? == some (.symbol .lparen) <;> rfl

theorem run_atArgumentsEnd :
    atArgumentsEnd.run s =
      (s.kindAhead? == some (.symbol .rparen) || s.kindAhead?.all isSyncKind, s) := by
  rw [atArgumentsEnd, run_bind, run_atKind]
  cases s.kindAhead? == some (.symbol .rparen) <;> rfl

theorem run_isBareModifier (k : Kind) : (isBareModifier k).run s =
    (isPlainModifier k || (k == .keyword .kwPrivate && !startsItem s.kindAhead? s.kindBeyond?),
      s) := by
  rw [isBareModifier]
  by_cases own : k = .keyword .kwPrivate
  · subst own
    exact congrArg (fun r => (!r.1, r.2)) (run_atTopLevelItem s)
  · rw [beq_eq_false_iff_ne.mpr own, Bool.false_and, Bool.or_false]
    rfl

theorem run_declaresMisnamed (k : Kind) :
    (declaresMisnamed k).run s = (isMisnamed k && s.kindBeyond? == some (.symbol .equal), s) := by
  rw [declaresMisnamed]
  cases isMisnamed k <;> rfl

theorem run_eat (k : Kind) :
    (eat k).run s = if s.kindAhead? = some k then (s.next?, s.advanced .normal) else (none, s) := by
  simp only [eat, run_bind, run_atKind, beq_iff_eq]
  split <;> simp only [run_advance, run_pure]

end Run

end Parser

end RuleDesk
