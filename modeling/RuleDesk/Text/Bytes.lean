namespace RuleDesk

/-- Number of bytes of a text in UTF-8. Every offset and span counts in these. -/
def byteLength : List Char → Nat
  | [] => 0
  | c :: rest => c.utf8Size + byteLength rest

/-- Number of UTF-16 code units of a character: two outside the basic plane. -/
def utf16Size (c : Char) : Nat := if c.toNat < 0x10000 then 1 else 2

/-- Number of UTF-16 code units of a text. Editors count columns in these. -/
def utf16Length : List Char → Nat
  | [] => 0
  | c :: rest => utf16Size c + utf16Length rest

/-- The text after its first `n` bytes, if these end between two characters. -/
def dropBytes? : List Char → Nat → Option (List Char)
  | cs, 0 => some cs
  | [], _ + 1 => none
  | c :: rest, n + 1 => if c.utf8Size ≤ n + 1 then dropBytes? rest (n + 1 - c.utf8Size) else none

/-- The first `n` bytes of the text, if these end between two characters. -/
def takeBytes? : List Char → Nat → Option (List Char)
  | _, 0 => some []
  | [], _ + 1 => none
  | c :: rest, n + 1 =>
    if c.utf8Size ≤ n + 1 then (takeBytes? rest (n + 1 - c.utf8Size)).map (c :: ·) else none

/-- The text between two byte offsets. There is none when an offset is past
the end or inside a character, or when the offsets are in the wrong order. -/
def sliceBytes? (cs : List Char) (start stop : Nat) : Option (List Char) :=
  if start ≤ stop then (dropBytes? cs start).bind (takeBytes? · (stop - start)) else none

/-- The largest character boundary that is at most `n`. -/
def floorBoundary : List Char → Nat → Nat
  | [], _ => 0
  | c :: rest, n => if c.utf8Size ≤ n then c.utf8Size + floorBoundary rest (n - c.utf8Size) else 0

theorem byteLength_append (a b : List Char) :
    byteLength (a ++ b) = byteLength a + byteLength b := by
  induction a with
  | nil => simp [byteLength]
  | cons c rest ih => simp only [List.cons_append, byteLength, ih]; omega

theorem length_le_byteLength (cs : List Char) : cs.length ≤ byteLength cs := by
  induction cs with
  | nil => simp [byteLength]
  | cons c rest ih =>
    have := c.utf8Size_pos
    simp only [List.length_cons, byteLength]; omega

theorem dropBytes?_byteLength_append (a b : List Char) :
    dropBytes? (a ++ b) (byteLength a) = some b := by
  induction a with
  | nil => simp [byteLength, dropBytes?]
  | cons c rest ih =>
    have pos := c.utf8Size_pos
    obtain ⟨n, hn⟩ : ∃ n, byteLength (c :: rest) = n + 1 :=
      ⟨byteLength (c :: rest) - 1, by simp only [byteLength]; omega⟩
    have split : n + 1 - c.utf8Size = byteLength rest := by simp only [byteLength] at hn; omega
    have fits : c.utf8Size ≤ n + 1 := by simp only [byteLength] at hn; omega
    simp only [hn, List.cons_append, dropBytes?, fits, if_true, split, ih]

theorem takeBytes?_byteLength_append (a b : List Char) :
    takeBytes? (a ++ b) (byteLength a) = some a := by
  induction a with
  | nil => simp [byteLength, takeBytes?]
  | cons c rest ih =>
    have pos := c.utf8Size_pos
    obtain ⟨n, hn⟩ : ∃ n, byteLength (c :: rest) = n + 1 :=
      ⟨byteLength (c :: rest) - 1, by simp only [byteLength]; omega⟩
    have split : n + 1 - c.utf8Size = byteLength rest := by simp only [byteLength] at hn; omega
    have fits : c.utf8Size ≤ n + 1 := by simp only [byteLength] at hn; omega
    simp only [hn, List.cons_append, takeBytes?, fits, if_true, split, ih, Option.map_some]

end RuleDesk
