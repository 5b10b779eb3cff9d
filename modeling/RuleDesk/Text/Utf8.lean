namespace RuleDesk

namespace Utf8

/-- A character of which some bytes have been read: the bits so far, the number
of bytes to come, and the values that the next byte may have. -/
structure Started where
  bits : Nat
  missing : Nat
  low : Nat
  high : Nat

/-- What stands for bytes that are no character. -/
def replacement : Char := '\ufffd'

/-- What a first byte is: a character of its own, the start of a longer one,
or nothing that can start a character. The second byte is restricted so that
no character has two forms and no surrogate has any. -/
inductive First
  | whole (c : Char)
  | started (s : Started)
  | invalid

def first (b : Nat) : First :=
  if b < 0x80 then .whole (Char.ofNat b)
  else if b < 0xC2 then .invalid
  else if b < 0xE0 then .started ⟨b % 0x20, 1, 0x80, 0xBF⟩
  else if b < 0xF0 then
    .started ⟨b % 0x10, 2, if b == 0xE0 then 0xA0 else 0x80, if b == 0xED then 0x9F else 0xBF⟩
  else if b < 0xF5 then
    .started ⟨b % 8, 3, if b == 0xF0 then 0x90 else 0x80, if b == 0xF4 then 0x8F else 0xBF⟩
  else .invalid

/-- Decodes what follows a character that has been started, or none. -/
def decodeFrom : Option Started → List UInt8 → List Char
  | none, [] => []
  | some _, [] => [replacement]
  | none, b :: rest =>
    match first b.toNat with
    | .whole c => c :: decodeFrom none rest
    | .started s => decodeFrom (some s) rest
    | .invalid => replacement :: decodeFrom none rest
  | some s, b :: rest =>
    let n := b.toNat
    if s.low ≤ n && n ≤ s.high then
      let bits := s.bits * 64 + n % 64
      if s.missing ≤ 1 then Char.ofNat bits :: decodeFrom none rest
      else decodeFrom (some ⟨bits, s.missing - 1, 0x80, 0xBF⟩) rest
    else
      replacement ::
        match first n with
        | .whole c => c :: decodeFrom none rest
        | .started t => decodeFrom (some t) rest
        | .invalid => replacement :: decodeFrom none rest

/-- The text of some bytes. Every longest part that starts like a character
but is none becomes one U+FFFD. -/
def decode (bytes : List UInt8) : List Char := decodeFrom none bytes

end Utf8

end RuleDesk
