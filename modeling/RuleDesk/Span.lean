namespace RuleDesk

/-- A stretch of a text, from the byte offset `start` up to but without the
byte offset `stop`. -/
structure Span where
  start : Nat
  stop : Nat
deriving DecidableEq, Repr, Inhabited

namespace Span

/-- The largest offset that a span can hold: offsets have 32 bits. Texts have to be shorter. -/
def maxOffset : Nat := 0xFFFFFFFF

def length (s : Span) : Nat := s.stop - s.start

def isEmpty (s : Span) : Bool := s.start == s.stop

/-- The empty span at an offset. -/
def point (n : Nat) : Span := ⟨n, n⟩

/-- The span moved to the right, its ends held at the largest offset. -/
def moveRight (s : Span) (n : Nat) : Span :=
  let by32 := n % 0x100000000
  ⟨min (s.start + by32) maxOffset, min (s.stop + by32) maxOffset⟩

/-- From the start of `s` to the end of the one that ends later. -/
def through (s t : Span) : Span := ⟨s.start, max t.stop s.stop⟩

/-- The end counts as inside, so that a cursor right after the last
character of a word is still on the word. -/
def touches (s : Span) (n : Nat) : Bool := s.start ≤ n && n ≤ s.stop

def contains (s t : Span) : Bool := s.start ≤ t.start && t.stop ≤ s.stop

/-- Spans are ordered by where they start, then by where they end. -/
def before (s t : Span) : Bool := s.start < t.start || (s.start == t.start && s.stop < t.stop)

def notAfter (s t : Span) : Bool := !t.before s

def text (s : Span) : String := "[" ++ toString s.start ++ ".." ++ toString s.stop ++ "]"

end Span

end RuleDesk
