namespace RuleDesk

/-- Integers that 32 bits hold, one of them for the sign. -/
def isSigned32 (n : Int) : Bool := -0x80000000 ≤ n && n < 0x80000000

/-- Integers without a sign that 32 bits hold. -/
def isUnsigned32 (n : Int) : Bool := 0 ≤ n && n < 0x100000000

def twoTo (n : Nat) : Nat := Nat.pow 2 n

def tenTo (n : Nat) : Nat := Nat.pow 10 n

end RuleDesk
