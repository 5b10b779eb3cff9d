import RuleDesk.Proofs.Parsing.Inserted

namespace RuleDesk

/-! ## White space and comments inside of a hex pattern

A jump of a hex pattern has no comments, and behind its bracket, its bounds and its
hyphen the tokenizer may be in one. Behind the other tokens of a pattern text is passed
that closes its block comments in the way of hex patterns. -/

/-- A place in a text: right behind a token that the parse of the text reads, in a hex
pattern or outside of one, but in no jump. Tokens that have to touch are not parted there. -/
structure HexInsertion.Place (front rest : List Char) (later : List Token) (t : Token)
    (earlier : List Token) : Prop where
  read : (finalState (front ++ rest)).read = later ++ t :: earlier
  stop : t.stop = byteLength front
  outside : ¬ t.kind.isOfJump
  apart : ∀ u ∈ later.getLast?, t.kind.joins u.kind → u.start ≠ t.stop
  whole : ∀ u ∈ t :: earlier, u.kind.isWhole

/-- White space and comments for a place in a text without errors that may be in a hex pattern. -/
structure HexInsertion (front inserted rest : List Char) : Prop where
  clean : (parse (front ++ rest)).errors = []
  place : ∃ later t earlier, HexInsertion.Place front rest later t earlier
  trivia : HexTrivia inserted
  -- a comment before the place that only the normal mode can close must not find an end
  -- in what is put in
  stillOpen : ∀ before body, front = before ++ '/' :: '*' :: body →
    Lexeme.closeHexComment? (body ++ rest) = none →
    Lexeme.closeHexComment? (body ++ (inserted ++ rest)) = none

namespace HexInsertion

variable {front inserted rest : List Char} {later earlier : List Token} {t : Token}

theorem spot (h : HexInsertion front inserted rest) (place : Place front rest later t earlier) :
    Insertion.Spot front inserted rest later t earlier where
  clean := h.clean
  read := place.read
  stop := place.stop
  apart := place.apart
  whole := place.whole
  trivia := h.trivia.trivia
  stillOpen := h.stillOpen
  passed _ _ jump :=
    Cursor.nextSolid?_hexTrivia h.trivia (fun inside => place.outside (jump inside)) _ rest

end HexInsertion

/-- White space and comments between two tokens of a hex pattern change nothing but
where the tokens are, if all block comments have an odd number of asterisks before
their last slash. -/
theorem parse_commented {front inserted rest : List Char} (h : HexInsertion front inserted rest) :
    (parse (front ++ (inserted ++ rest))).errors = [] ∧
      (parse (front ++ (inserted ++ rest))).rebase
        (.of (withoutInserted (byteLength front) (byteLength inserted))) =
        parse (front ++ rest) := by
  obtain ⟨later, t, earlier, place⟩ := h.place
  exact (h.spot place).parse

/-- A comment with three asterisks before its last slash, between two bytes. -/
theorem parse_commented_bytes :
    HexInsertion "rule a \x7b strings: $b = \x7b 01".toList " /* c ***/".toList
      " 02 \x7d condition: $b \x7d".toList ∧
      (parse "rule a \x7b strings: $b = \x7b 01 /* c ***/ 02 \x7d condition: $b \x7d".toList).errors
        = [] ∧
      (parse "rule a \x7b strings: $b = \x7b 01 /* c ***/ 02 \x7d condition: $b \x7d".toList).rebase
        (.of (withoutInserted 27 10)) =
        parse "rule a \x7b strings: $b = \x7b 01 02 \x7d condition: $b \x7d".toList := by
  have read : (finalState
      "rule a \x7b strings: $b = \x7b 01 02 \x7d condition: $b \x7d".toList).read =
      [⟨.symbol .rbrace, 47, ['}']⟩, ⟨.sigil .identity, 44, "$b".toList⟩,
        ⟨.symbol .colon, 42, [':']⟩,
        ⟨.keyword .kwCondition, 33, "condition".toList⟩, ⟨.symbol .rbrace, 31, ['}']⟩,
          ⟨.hexByte, 28, "02".toList⟩] ++
        ⟨.hexByte, 25, "01".toList⟩ ::
          [⟨.symbol .lbrace, 23, ['{']⟩, ⟨.symbol .equal, 21, ['=']⟩,
            ⟨.sigil .identity, 18, "$b".toList⟩,
            ⟨.symbol .colon, 16, [':']⟩, ⟨.keyword .kwStrings, 9, "strings".toList⟩,
              ⟨.symbol .lbrace, 7, ['{']⟩,
            ⟨.ident, 5, ['a']⟩, ⟨.keyword .kwRule, 0, "rule".toList⟩] := by decide +kernel
  have insertion : HexInsertion "rule a \x7b strings: $b = \x7b 01".toList " /* c ***/".toList
      " 02 \x7d condition: $b \x7d".toList := by
    refine ⟨by decide +kernel,
      ⟨_, _, _, read, by decide +kernel, by decide, by decide, by decide⟩, ?_, ?_⟩
    · have comment : HexTrivia ('/' :: '*' :: (" c ***/".toList ++ [])) :=
        .block (by decide) (by decide) .nothing
      exact .white rfl comment
    · intro before body split
      have slash : '/' ∈ "rule a \x7b strings: $b = \x7b 01".toList :=
        split ▸ List.mem_append_right _ (List.mem_cons_self ..)
      exact absurd slash (by decide)
  have text : "rule a \x7b strings: $b = \x7b 01".toList ++
      (" /* c ***/".toList ++ " 02 \x7d condition: $b \x7d".toList) =
      "rule a \x7b strings: $b = \x7b 01 /* c ***/ 02 \x7d condition: $b \x7d".toList := by decide
  have before : "rule a \x7b strings: $b = \x7b 01".toList ++ " 02 \x7d condition: $b \x7d".toList =
      "rule a \x7b strings: $b = \x7b 01 02 \x7d condition: $b \x7d".toList := by decide
  have place : byteLength "rule a \x7b strings: $b = \x7b 01".toList = 27 := by decide
  have width : byteLength " /* c ***/".toList = 10 := by decide
  have same := parse_commented insertion
  rw [text, before, place, width] at same
  exact ⟨insertion, same⟩

end RuleDesk
