namespace RuleDesk

/-- The value of a digit in any base up to sixteen. -/
def digitValue (c : Char) : Nat :=
  if c.isDigit then c.toNat - '0'.toNat
  else if 'a' ≤ c && c ≤ 'f' then c.toNat - 'a'.toNat + 10
  else if 'A' ≤ c && c ≤ 'F' then c.toNat - 'A'.toNat + 10
  else 0

/-- The number that digits of a base stand for. -/
def digitsValue (base : Nat) (cs : List Char) : Nat :=
  cs.foldl (fun n c => n * base + digitValue c) 0

/-- A number, if 63 bits hold it. -/
def unsigned63? (n : Nat) : Option Nat := if n < 0x8000000000000000 then some n else none

/-- The value of a character that is a digit of a base up to sixteen. -/
def digitIn? (base : Nat) (c : Char) : Option Nat :=
  let value := digitValue c
  if value < base && (value != 0 || c == '0') then some value else none

/-- The number that digits of a base stand for, if each number on the way fits
into 63 bits. No digits are no number. -/
def boundedValue? (base : Nat) (cs : List Char) : Option Nat :=
  if cs.isEmpty then none
  else
    cs.foldlM (fun n c => do
      let shifted ← unsigned63? (n * base)
      unsigned63? (shifted + (← digitIn? base c))) 0

/-- The value of an integer literal, if it fits into 63 bits: hexadecimal,
octal, or decimal with an optional unit. -/
def literalValue? : List Char → Option Nat
  | '0' :: 'x' :: digits => boundedValue? 16 digits
  | '0' :: 'o' :: digits => boundedValue? 8 digits
  | cs =>
    match cs.reverse with
    | 'B' :: 'K' :: digits => (boundedValue? 10 digits.reverse).bind fun n => unsigned63? (n * 1024)
    | 'B' :: 'M' :: digits =>
      (boundedValue? 10 digits.reverse).bind fun n => unsigned63? (n * (1024 * 1024))
    | _ => boundedValue? 10 cs

end RuleDesk
