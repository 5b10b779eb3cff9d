namespace RuleDesk

/-- The Unicode property White_Space, which decides where unknown text ends
and what is trimmed. -/
def isBlank (c : Char) : Bool :=
  let n := c.toNat
  (9 ≤ n && n ≤ 13) || n == 0x20 || n == 0x85 || n == 0xA0 || n == 0x1680 ||
    (0x2000 ≤ n && n ≤ 0x200A) || n == 0x2028 || n == 0x2029 || n == 0x202F || n == 0x205F ||
    n == 0x3000

/-- The text without white space at its front. -/
def trimStart (cs : List Char) : List Char := cs.dropWhile isBlank

/-- The text without white space at its end. -/
def trimEnd (cs : List Char) : List Char := (cs.reverse.dropWhile isBlank).reverse

/-- The text without white space at both ends. -/
def trim (cs : List Char) : List Char := trimEnd (trimStart cs)

end RuleDesk
