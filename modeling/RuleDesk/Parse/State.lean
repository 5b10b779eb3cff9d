import RuleDesk.Token.Stream
import RuleDesk.SyntaxError

namespace RuleDesk

/-- The text still to be parsed. The next token is kept beside the cursor, so
that looking at it many times reads it once. -/
structure Input where
  here : Cursor
  ahead : Option (Token × Cursor)
  ahead_eq : ahead = here.nextSolid?

def Input.at (c : Cursor) : Input := ⟨c, c.nextSolid?, rfl⟩

theorem Input.ahead_place {i : Input} {token : Token} {after : Cursor}
    (h : i.ahead = some (token, after)) :
    i.here.offset ≤ token.start ∧ after.offset = token.stop ∧ i.here.Reaches after :=
  Cursor.nextSolid?_place (i.ahead_eq ▸ h)

/-- The state of a parse. While `panicking`, unexpected tokens are not
reported. The depth counts the levels of nesting spent on an expression. The
tokens read so far are kept with the latest one first. -/
structure ParseState where
  input : Input
  panicking : Bool
  depth : Nat
  errors : List SyntaxError
  read : List Token

namespace ParseState

/-- The state after the next token is read. -/
def take (s : ParseState) (token : Token) (after : Cursor) : ParseState :=
  { s with input := Input.at after, read := token :: s.read }

/-- Between two states of a parse nothing is read, or the next token is and
perhaps some later ones. -/
inductive Reads (s t : ParseState) : Prop
  | nothing (input : t.input = s.input) (read : t.read = s.read)
  | tokens {token : Token} {after : Cursor} (later : List Token)
      (next : s.input.ahead = some (token, after))
      (reaches : after.Reaches t.input.here) (read : t.read = later ++ token :: s.read)
      (ordered : ∀ u ∈ later, token.stop ≤ u.start)

/-- A parse that is in a state may come to another: more of the text is read
and more errors are reported, and neither is ever taken back. -/
structure Before (s t : ParseState) : Prop where
  reads : s.Reads t
  errors : s.errors <+: t.errors

theorem Before.refl (s : ParseState) : s.Before s := ⟨.nothing rfl rfl, List.prefix_refl _⟩

theorem Reads.trans {s t u : ParseState} (h : s.Reads t) (h' : t.Reads u) : s.Reads u := by
  cases h with
  | nothing input read =>
    cases h' with
    | nothing input' read' => exact .nothing (input'.trans input) (read'.trans read)
    | tokens later next reaches read' ordered =>
      exact .tokens later (input ▸ next) reaches (read ▸ read') ordered
  | @tokens token after later next reaches read ordered =>
    cases h' with
    | nothing input' read' => exact .tokens later next (input' ▸ reaches) (read'.trans read) ordered
    | @tokens token' after' later' next' reaches' read' ordered' =>
      obtain ⟨_, stop, _⟩ := Input.ahead_place next
      obtain ⟨start', _, step⟩ := Input.ahead_place next'
      have behind : token.stop ≤ token'.start := stop ▸ Nat.le_trans reaches.offset_le start'
      refine .tokens (later' ++ token' :: later) next ((reaches.trans step).trans reaches') ?_
        fun u member => ?_
      · rw [read', read, List.append_assoc, List.cons_append]
      · rcases List.mem_append.mp member with last | member
        · exact Nat.le_trans behind (Nat.le_trans (Nat.le_add_right _ _) (ordered' u last))
        · rcases List.mem_cons.mp member with rfl | first
          · exact behind
          · exact ordered u first

theorem Before.trans {s t u : ParseState} (h : s.Before t) (h' : t.Before u) : s.Before u :=
  ⟨h.reads.trans h'.reads, h.errors.trans h'.errors⟩

theorem before_take {s : ParseState} {token : Token} {after : Cursor}
    (next : s.input.ahead = some (token, after))
    (mode : Mode) : s.Before (s.take token (after.enter mode)) :=
  ⟨.tokens [] next ((Cursor.Reaches.refl after).enter mode) rfl (fun _ none => nomatch none),
    List.prefix_refl _⟩

end ParseState

/-- A part of the parser. It takes the parse from any state to a later one. What
it gets to know of the tokens it asks of the stream of tokens, and `calls` are
the requests with the answers that it was given. -/
structure Parser (α : Type) where
  run : ParseState → α × ParseState
  calls : ParseState → List Call := fun _ => []
  forward : ∀ s : ParseState, s.Before (run s).2

namespace Parser

instance : Monad Parser where
  pure a := { run := fun s => (a, s), forward := .refl }
  bind p f :=
    { run := fun s =>
        let result := p.run s
        (f result.1).run result.2
      calls := fun s => p.calls s ++ (f (p.run s).1).calls (p.run s).2
      forward := fun s => (p.forward s).trans ((f (p.run s).1).forward (p.run s).2) }

/-- The state of the parse. -/
def look : Parser ParseState where
  run s := (s, s)
  forward := .refl

/-- A look at a token, `n` places past the next one. All of them stay unread. -/
def lookAt (n : Nat) (token : ParseState → Option Token) : Parser (Option Token) where
  run s := (token s, s)
  calls s := [⟨.peek n, token s⟩]
  forward := .refl

/-- The next token, which stays unread. -/
def peek : Parser (Option Token) := lookAt 0 fun s => s.input.ahead.map (·.1)

def peekKind : Parser (Option Kind) := return (← peek).map (·.kind)

/-- The token after the next one. -/
def peekSecond : Parser (Option Token) :=
  lookAt 1 fun s => s.input.ahead.bind fun (_, after) => after.nextSolid?.map (·.1)

def peekSecondKind : Parser (Option Kind) := return (← peekSecond).map (·.kind)

def atKind (k : Kind) : Parser Bool := return (← peekKind) == some k

/-- Reads the next token and goes into a mode of the tokenizer right behind it. -/
def advanceInto (mode : Mode) : Parser (Option Token) where
  run s :=
    match s.input.ahead with
    | none => (none, s)
    | some (token, after) => (some token, s.take token (after.enter mode))
  calls s := ⟨.bump, s.input.ahead.map (·.1)⟩ :: if mode = .normal then []
    else [⟨.enter mode, none⟩]
  forward s := by
    split
    · exact .refl s
    · rename_i next
      exact ParseState.before_take next mode

/-- Reads the next token. -/
def advance : Parser (Option Token) := advanceInto .normal

/-- Reads the next token if it is of a kind. -/
def eat (k : Kind) : Parser (Option Token) := do
  if ← atKind k then advance else return none

/-- The offset where the last token that was read ends. -/
def lastStop : Parser Nat := return (← look).input.here.offset

def textStop : Parser Nat := do
  let here := (← look).input.here
  return here.offset + byteLength here.rest

/-- The empty span after the last token that was read. -/
def pointHere : Parser Span := return .point (← lastStop)

/-- The place of the next token, or the point after the last one. -/
def spanAhead : Parser Span := do
  match ← peek with
  | some t => return t.span
  | none => pointHere

/-- True when the next token is of a kind and nothing stands before it. -/
def nextAdjacent (k : Kind) : Parser Bool := do
  match ← peek with
  | some t => return t.kind == k && t.start == (← lastStop)
  | none => return false

def report (fault : SyntaxFault) (span : Span) : Parser Unit where
  run s := ((), { s with errors := s.errors ++ [⟨fault, span⟩] })
  forward _ := ⟨.nothing rfl rfl, List.prefix_append _ _⟩

def setPanicking (b : Bool) : Parser Unit where
  run s := ((), { s with panicking := b })
  forward _ := ⟨.nothing rfl rfl, List.prefix_refl _⟩

def setDepth (n : Nat) : Parser Unit where
  run s := ((), { s with depth := n })
  forward _ := ⟨.nothing rfl rfl, List.prefix_refl _⟩

def getDepth : Parser Nat := return (← look).depth

/-- What is wrong with a token that the grammar does not allow. -/
def faultOf (t : Token) (expected : Expectation) : SyntaxFault :=
  match t.kind with
  | .openString => .unterminatedString
  | .openRegexp => .unterminatedRegexp
  | .unknown => .unknownToken t.name
  | .ident => .unexpectedToken expected ("`" ++ t.name ++ "`")
  | k => .unexpectedToken expected k.description

/-- Reports that the next token is not what the grammar expects. This starts
panic mode, and in panic mode it says nothing. -/
def unexpected (expected : Expectation) : Parser Unit := do
  if (← look).panicking then return ()
  setPanicking true
  match ← peek with
  | none => report (.unexpectedEnd expected) (.point (← textStop))
  | some t => report (faultOf t expected) t.span

/-- Reads a token of a kind, or reports that another one stands there. -/
def expect (k : Kind) : Parser (Option Token) := do
  match ← eat k with
  | some t => return some t
  | none =>
    unexpected (.token k)
    return none

/-- Repeats a step while it yields, at most `fuel` times. -/
def iterateIn (step : α → Parser (ForInStep α)) : Nat → α → Parser α
  | 0, a => return a
  | fuel + 1, a => do
    match ← step a with
    | .done a => return a
    | .yield a => iterateIn step fuel a

/-- Repeats a step while it yields. A step that yields has read a token, so
the length of the unread text bounds the rounds. -/
def iterate (step : α → Parser (ForInStep α)) (a : α) : Parser α := do
  iterateIn step ((← look).input.here.rest.length + 1) a

/-- Kinds of tokens where parsing resumes after an error: the keywords that
start a section or a top-level item, and the brace that closes a rule. -/
def isSyncKind : Kind → Bool
  | .keyword w =>
    w == .kwMeta || w == .kwStrings || w == .kwCondition || w == .kwRule || w == .kwPrivate ||
      w == .kwGlobal || w == .kwImport || w == .kwInclude
  | .symbol s => s == .rbrace
  | _ => false

def atSyncPoint : Parser Bool := return (← peekKind).all isSyncKind

/-- True at a token that starts a top-level item. A modifier does so only if
a rule or another modifier follows. -/
def atTopLevelItem : Parser Bool := do
  match ← peekKind with
  | some (.keyword w) =>
    if w == .kwRule || w == .kwImport || w == .kwInclude then return true
    else if w == .kwPrivate || w == .kwGlobal then
      match ← peekSecondKind with
      | some (.keyword v) => return v == .kwRule || v == .kwPrivate || v == .kwGlobal
      | _ => return false
    else return false
  | _ => return false

/-- One token more on the way to a place where parsing resumes. -/
def skipStep (_ : Unit) : Parser (ForInStep Unit) := do
  if ← atSyncPoint then return .done ()
  let _ ← advance
  return .yield ()

def skipToSyncPoint : Parser Unit := iterate skipStep ()

end Parser

end RuleDesk
