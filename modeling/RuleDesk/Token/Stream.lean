import RuleDesk.Token.Cursor

namespace RuleDesk

/-- What a parser asks of a stream of tokens: to look `n` tokens past the next
one, to be given the next one, or to go into a mode of the tokenizer. -/
inductive Request
  | peek (n : Nat)
  | bump
  | enter (mode : Mode)
deriving DecidableEq, Repr

/-- A request and the token it is answered with. -/
structure Call where
  request : Request
  answer : Option Token
deriving DecidableEq, Repr

/-- The tokens of a text that mean something to the grammar. Those that were
only looked at wait in a buffer. The tokens that were given away, and all that
the tokenizer has produced, trivia too and with the mode that read them, are
kept with the latest one first. -/
structure TokenStream where
  tokenizer : Cursor
  lookahead : List Token
  taken : List Token
  produced : List (Mode × Token)
deriving DecidableEq, Repr

namespace TokenStream

def start (text : List Char) : TokenStream := ⟨.start text, [], [], []⟩

/-- The stream after the tokenizer has produced a token. -/
def produce (s : TokenStream) (token : Token) (after : Cursor) : TokenStream :=
  { s with tokenizer := after, produced := (after.mode, token) :: s.produced }

/-- Has the tokenizer produce tokens, at most `fuel`, up to the first one that
means something. -/
def pullIn : Nat → TokenStream → Option Token × TokenStream
  | 0, s => (none, s)
  | fuel + 1, s =>
    match s.tokenizer.next? with
    | none => (none, s)
    | some (token, after) =>
      if token.kind.isTrivia then pullIn fuel (s.produce token after)
        else (some token, s.produce token after)

def pull (s : TokenStream) : Option Token × TokenStream := pullIn s.tokenizer.rest.length s

/-- Brings tokens into the buffer, `n` of them if there are so many. -/
def fill : Nat → TokenStream → TokenStream
  | 0, s => s
  | n + 1, s =>
    match s.pull with
    | (none, s) => s
    | (some token, s) => fill n { s with lookahead := s.lookahead ++ [token] }

/-- The token `n` places past the next one, which all stay where they are. -/
def peek (s : TokenStream) (n : Nat) : Option Token × TokenStream :=
  let filled := s.fill (n + 1 - s.lookahead.length)
  (filled.lookahead[n]?, filled)

/-- Gives the next token away. -/
def bump (s : TokenStream) : Option Token × TokenStream :=
  match s.lookahead with
  | token :: later => (some token, { s with lookahead := later, taken := token :: s.taken })
  | [] =>
    match s.pull with
    | (none, s) => (none, s)
    | (some token, s) => (some token, { s with taken := token :: s.taken })

/-- Goes into a mode where the tokenizer stands, whatever the buffer holds. -/
def enter (s : TokenStream) (mode : Mode) : TokenStream :=
  { s with tokenizer := s.tokenizer.enter mode }

def serve (s : TokenStream) : Request → Option Token × TokenStream
  | .peek n => s.peek n
  | .bump => s.bump
  | .enter mode => (none, s.enter mode)

/-- The stream after some calls. -/
def after (s : TokenStream) (calls : List Call) : TokenStream :=
  calls.foldl (fun s call => (s.serve call.request).2) s

end TokenStream

end RuleDesk
