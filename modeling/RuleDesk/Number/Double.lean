import RuleDesk.Number.Width

namespace RuleDesk

/-- A number of 64-bit floating point, `mantissa * 2 ^ exponent` up to sign. -/
inductive Double
  | finite (negative : Bool) (mantissa : Nat) (exponent : Int)
  | infinite (negative : Bool)
deriving DecidableEq, Repr

namespace Double

/-- The least exponent of a finite number; larger ones have full mantissas. -/
def minExponent : Int := -1074

def maxExponent : Int := 971

/-- `a / b` rounded to the nearest integer, a half to the even neighbour. -/
def roundHalfEven (a b : Nat) : Nat :=
  let q := a / b
  let twice := 2 * (a % b)
  if twice < b || (twice == b && q % 2 == 0) then q else q + 1

/-- The number nearest to the fraction `a / b`. -/
def ofFraction (a b : Nat) : Double :=
  if a == 0 then finite false 0 minExponent
  else
    let guess : Int := (a.log2 : Int) - b.log2 - 53
    let exponentOf (e : Int) : Nat := (a * twoTo (-e).toNat) / (b * twoTo e.toNat)
    let e := max minExponent (if exponentOf guess < twoTo 53 then guess else guess + 1)
    let m := roundHalfEven (a * twoTo (-e).toNat) (b * twoTo e.toNat)
    let (m, e) := if m == twoTo 53 then (twoTo 52, e + 1) else (m, e)
    if maxExponent < e then infinite false else finite false m e

def negate : Double → Double
  | finite s m e => finite (!s) m e
  | infinite s => infinite (!s)

/-- Reads digits with a point among them, such as `3.14`. -/
def ofDecimal (cs : List Char) : Double :=
  let whole := cs.takeWhile Char.isDigit
  let fraction := (cs.dropWhile Char.isDigit).drop 1
  let digits := (whole ++ fraction).foldl (fun n c => n * 10 + (c.toNat - '0'.toNat)) 0
  ofFraction digits (tenTo fraction.length)

/-- The digits `d` with `d * 10 ^ power` inside of the numbers that round to
`m * 2 ^ e`, the nearest one if there are two; none if there is none. -/
def digitsAt? (m : Nat) (e : Int) (power : Int) : Option Nat :=
  -- in units of a quarter of the last place of the mantissa
  let below := if m == twoTo 52 && minExponent < e then 1 else 2
  let scaleUp := twoTo (e - 2).toNat * tenTo (-power).toNat
  let scaleDown := twoTo (2 - e).toNat * tenTo power.toNat
  let value := 4 * m * scaleUp
  let low := (4 * m - below) * scaleUp
  let high := (4 * m + 2) * scaleUp
  let inside (d : Nat) : Bool :=
    let at_ := d * scaleDown
    if m % 2 == 0 then low ≤ at_ && at_ ≤ high else low < at_ && at_ < high
  let d := value / scaleDown
  let nearest := if 2 * (value - d * scaleDown) ≤ scaleDown then [d, d + 1] else [d + 1, d]
  nearest.find? fun d => d != 0 && inside d

/-- The shortest decimal that reads back as the same number: its digits and
the power of ten of the last one. -/
def shortest (m : Nat) (e : Int) : Nat × Int :=
  ((List.range 700).findSome? fun (k : Nat) =>
    let power : Int := 320 - (k : Int)
    (digitsAt? m e power).map fun d => (d, power)).getD (0, 0)

/-- Digits with their point, never with an exponent, and without a fraction
when it is zero. -/
def positional (digits : Nat) (power : Int) : List Char :=
  let ds := Nat.toDigits 10 digits
  match power with
  | .ofNat zeros => ds ++ List.replicate zeros '0'
  | .negSucc below =>
    let places := below + 1
    let padded := List.replicate (places + 1 - ds.length) '0' ++ ds
    padded.take (padded.length - places) ++ '.' :: padded.drop (padded.length - places)

def sign (negative : Bool) : List Char := if negative then ['-'] else []

def text : Double → String
  | infinite s => String.ofList (sign s ++ ['i', 'n', 'f'])
  | finite s 0 _ => String.ofList (sign s ++ ['0'])
  | finite s m e =>
    let (digits, power) := shortest m e
    String.ofList (sign s ++ positional digits power)

end Double

end RuleDesk
