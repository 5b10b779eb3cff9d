import RuleDesk.Proofs.Parsing.RelaidBodies

namespace RuleDesk

/-! ## The head of a rule that is laid out anew

The head stays as it is, or its words are written anew with one blank between them. -/

/-- A word that is read wherever it stands in front of a text that touches no token. -/
def Readable (w : Kind × List Char) : Prop :=
  ∀ n more, Loose more → (⟨.normal, n, w.2 ++ more⟩ : Cursor).nextSolid? =
  some (⟨w.1, n, w.2⟩, ⟨.normal, n + byteLength w.2, more⟩)

namespace Readable

/-- A word that is read once is read wherever it stands. -/
theorem of_next {c after : Cursor} {t : Token} (h : c.next? = some (t, after))
    (whole : t.kind.isWhole) (other : ¬ t.kind.isOfHex)
    (meant : ¬ t.kind.isTrivia) : Readable t.word := by
  intro n more loose
  have read := Cursor.next?_normal h other
  obtain ⟨_, _, _, text⟩ := Cursor.next?_eq_some read
  have text : c.rest = t.text ++ after.rest := text
  have normal := Cursor.next?_stays_normal read rfl
  rw [text] at read
  have again := Cursor.nextSolid?_of_solid
    (Cursor.next?_loose read whole (List.prefix_refl _) loose n rfl) meant
  rw [normal] at again
  exact again

theorem of_spelled {k : Kind} {word : List Char} (h : Spelled k word) (whole : k.isWhole)
    (other : ¬ k.isOfHex) : Readable (k, word) := by
  have nonempty : word ++ [' '] ≠ [] := List.append_ne_nil_of_left_ne_nil h.nonempty _
  have read := Cursor.next?_of_read (c := ⟨.normal, 0, word ++ [' ']⟩) nonempty rfl
  have lexeme := h.read []
  have size : (Lexeme.normal (word ++ [' '])).size = word.length := by rw [lexeme]
  simp only [size, List.take_left, List.drop_left] at read
  rw [show (Lexeme.normal (word ++ [' '])).kind = k by rw [lexeme]] at read
  exact of_next read whole other h.meant

end Readable

namespace ParseState.ReadsWords

variable {s u : ParseState} {words : List (Kind × List Char)}

/-- What is read of a text can be read elsewhere. -/
theorem readable (h : s.ReadsWords words u) (top : ∀ w ∈ words, w.1.isTop) :
    ∀ w ∈ words, Readable w := by
  induction h with
  | none => exact nofun
  | @word s u t words next _ ih =>
    obtain ⟨first, others⟩ := List.forall_mem_cons.mp top
    obtain ⟨⟨whole, _⟩, other⟩ := Kind.isTop_iff.mp first
    obtain ⟨after, ahead⟩ := next?_eq_some next
    obtain ⟨d, _, read, meant⟩ := Cursor.nextSolid?_stands (s.input.ahead_eq.symm.trans ahead)
    exact List.forall_mem_cons.mpr ⟨.of_next read whole other meant, ih others⟩

/-- A name consists of characters of words. -/
theorem ident_parts (h : s.ReadsWords words u) : ∀ w ∈ words, w.1 = .ident → w.2.all isPart := by
  induction h with
  | none => exact nofun
  | @word s u t words next _ ih =>
    refine List.forall_mem_cons.mpr ⟨fun kind => ?_, ih⟩
    have kind : t.kind = .ident := kind
    obtain ⟨after, ahead⟩ := next?_eq_some next
    obtain ⟨d, _, read, _⟩ := Cursor.nextSolid?_stands (s.input.ahead_eq.symm.trans ahead)
    have read := Cursor.next?_normal read (by rw [kind]; exact Bool.false_ne_true)
    rw [Cursor.next?_of_read (c := { d with mode := .normal }) (Cursor.rest_ne_nil read) rfl]
      at read
    cases read
    exact Lexeme.word?_parts (Lexeme.word?_of_normal (show (Lexeme.normal
      d.rest).kind.isWord by rw [show (Lexeme.normal d.rest).kind = .ident from kind]; rfl))

/-- Words behind blanks are read one behind the other. -/
theorem of_blanks (readable : ∀ w ∈ words, Readable w) {n : Nat} {rest : List Char}
    (here : s.input.here.nextSolid? =
    (⟨.normal, n, words.flatMap (' ' :: ·.2) ++ '\n' :: rest⟩ : Cursor).nextSolid?) :
    ∃ u m, s.ReadsWords words u ∧
      u.input.here.nextSolid? = (⟨.normal, m, '\n' :: rest⟩ : Cursor).nextSolid? := by
  induction words generalizing s n with
  | nil => exact ⟨s, n, .none s, here⟩
  | cons w words ih =>
    obtain ⟨first, others⟩ := List.forall_mem_cons.mp readable
    have loose : Loose (words.flatMap (' ' :: ·.2) ++ '\n' :: rest) := by
      cases words with
      | nil => exact .white _ rfl
      | cons => exact .white _ rfl
    have next := first (n + 1) _ loose
    rw [List.flatMap_cons, List.append_assoc, List.cons_append,
      Cursor.nextSolid?_white .normal n rfl, next] at here
    obtain ⟨u, m, read, behind⟩ :=
      ih others (s := s.advanced .normal) (by rw [advanced_at rfl here]; rfl)
    exact ⟨u, m, .word (next_at rfl here) read, behind⟩

/-- The first word may stand without a blank. -/
theorem of_words {w : Kind × List Char} (readable : ∀ v ∈ w :: words, Readable v) {n : Nat}
    {rest : List Char}
    (here : s.input.here.nextSolid? =
    (⟨.normal, n, w.2 ++ (words.flatMap (' ' :: ·.2) ++ '\n' :: rest)⟩ : Cursor).nextSolid?) :
    ∃ u m, s.ReadsWords (w :: words) u ∧
      u.input.here.nextSolid? = (⟨.normal, m, '\n' :: rest⟩ : Cursor).nextSolid? := by
  obtain ⟨first, others⟩ := List.forall_mem_cons.mp readable
  have loose : Loose (words.flatMap (' ' :: ·.2) ++ '\n' :: rest) := by
    cases words with
    | nil => exact .white _ rfl
    | cons => exact .white _ rfl
  rw [first n _ loose] at here
  obtain ⟨u, m, read, behind⟩ :=
    of_blanks others (s := s.advanced .normal) (by rw [advanced_at rfl here]; rfl)
  exact ⟨u, m, .word (next_at rfl here) read, behind⟩

end ParseState.ReadsWords

namespace Parser

open ParseState

/-- The modifiers of a rule as they are written anew. -/
def RuleFlags.words (flags : RuleFlags) : List (Kind × List Char) :=
  (if flags.isPrivate then [(.keyword .kwPrivate, "private".toList)] else []) ++
    if flags.isGlobal then [(.keyword .kwGlobal, "global".toList)] else []

theorem RuleFlags.words_spelled (flags : RuleFlags) :
    (∀ m ∈ flags.words, isRuleModifier m.1 ∧ ∃ w : Keyword, m = (.keyword w, w.text.toList)) ∧
    (flags.words.map Prod.fst).Nodup ∧
      flags.words.foldl (fun flags m => flags.add m.1) ⟨false, false⟩ = flags ∧
      flags.words.flatMap (' ' :: ·.2) = (if flags.isPrivate then " private".toList else []) ++
        if flags.isGlobal then " global".toList else [] := by
  have spelled : ∀ m : Kind × List Char, m = (.keyword .kwPrivate, "private".toList) ∨
      m = (.keyword .kwGlobal, "global".toList) →
      isRuleModifier m.1 ∧ ∃ w : Keyword, m = (.keyword w, w.text.toList) := by
    rintro m (rfl | rfl)
    · exact ⟨rfl, .kwPrivate, rfl⟩
    · exact ⟨rfl, .kwGlobal, rfl⟩
  obtain ⟨p, g⟩ := flags
  refine ⟨fun m member => spelled m ?_, ?_, ?_, ?_⟩
  · refine (List.mem_append.mp member).imp (fun inside => ?_) fun inside => ?_
    · cases p with
      | false => cases inside
      | true => exact List.mem_singleton.mp inside
    · cases g with
      | false => cases inside
      | true => exact List.mem_singleton.mp inside
  all_goals cases p <;> cases g <;> decide

namespace RuleLine

variable (l : RuleLine)

/-- The words of the head as they are written anew. -/
def canonical : RuleLine where
  modifiers := l.flags.words
  keyword := "rule".toList
  name := l.name
  tags := if l.tags.tail = [] then [] else (.symbol .colon, [':']) :: l.tags.tail

variable {l}

theorem canonical_tags : l.canonical.tags.tail = l.tags.tail := by
  rw [canonical]
  dsimp only
  split
  · rename_i none
    rw [none]
    rfl
  · rfl

theorem canonical_rule : l.canonical.rule = l.rule := by
  have flags : l.canonical.flags = l.flags := (RuleFlags.words_spelled l.flags).2.2.1
  rw [rule, rule, flags, canonical_tags]
  rfl

theorem Fine.canonical (fine : l.Fine) : l.canonical.Fine where
  named := fine.named
  modifiers m member := ((RuleFlags.words_spelled l.flags).1 m member).1
  once := (RuleFlags.words_spelled l.flags).2.1
  colon t head := by
    rw [RuleLine.canonical] at head
    dsimp only at head
    split at head
    · cases head
    · cases head
      rfl
  idents := by
    rw [canonical_tags]
    exact fine.idents
  distinct := by
    rw [canonical_tags]
    exact fine.distinct

/-- The words that are written anew are read as they are written. -/
theorem canonical_readable {s u : ParseState} (fine : l.Fine) (read : s.ReadsWords l.words u) :
    ∀ w ∈ l.canonical.words, Readable w := by
  have known := read.readable fine.top
  have tagged : ∀ w ∈ l.tags.tail, Readable w := fun w member =>
    known w (List.mem_append_right _
      (List.mem_cons_of_mem _ (List.mem_cons_of_mem _ (List.mem_of_mem_tail member))))
  have keyword : ∀ w : Keyword, Readable (.keyword w, w.text.toList) := fun w =>
    .of_spelled (spelled_keyword w) rfl (by exact Bool.false_ne_true)
  intro w member
  rcases List.mem_append.mp member with modifier | member
  · obtain ⟨_, k, rfl⟩ := (RuleFlags.words_spelled l.flags).1 w modifier
    exact keyword k
  rcases List.mem_cons.mp member with rfl | member
  · exact keyword .kwRule
  rcases List.mem_cons.mp member with rfl | member
  · exact known _ (List.mem_append_right _ (List.mem_cons_of_mem _ (List.mem_cons_self ..)))
  · rw [RuleLine.canonical] at member
    dsimp only at member
    split at member
    · cases member
    · rcases List.mem_cons.mp member with rfl | member
      · exact .of_spelled (spelled_symbol .colon) rfl (by exact Bool.false_ne_true)
      · exact tagged w member

theorem flatMap_blanks {words : List (Kind × List Char)} (some_word : words ≠ []) :
    words.flatMap (' ' :: ·.2) = ' ' :: [' '].intercalate (words.map Prod.snd) := by
  induction words with
  | nil => exact (some_word rfl).elim
  | cons w words ih =>
    cases words with
    | nil => simp
    | cons v words =>
      rw [List.flatMap_cons, ih (List.cons_ne_nil _ _)]
      simp [List.intercalate]

/-- The text of these words is the head that is written. -/
theorem canonical_header {r : Rule} (head : r.isPrivate = l.flags.isPrivate ∧
    r.isGlobal = l.flags.isGlobal ∧ r.ident.name = String.ofList l.name ∧
    r.tags.map (·.name) = l.tags.tail.map fun t => String.ofList t.2) :
      l.canonical.words.flatMap (' ' :: ·.2) = ' ' :: Format.header r := by
  obtain ⟨isPrivate, isGlobal, name, tags⟩ := head
  have modifiers : (if l.flags.isPrivate then " private".toList else []) ++
      (if l.flags.isGlobal then " global".toList else []) ++ [' '] =
      ' ' :: ((if l.flags.isPrivate then "private " else "") ++ if l.flags.isGlobal then "global "
        else "").toList := by
    cases l.flags.isPrivate <;> cases l.flags.isGlobal <;> rfl
  have tagged : (if l.tags.tail = [] then []
      else ((.symbol .colon, [':']) : Kind × List Char) :: l.tags.tail).flatMap (' ' :: ·.2) =
      (if r.tags.isEmpty then "" else " : " ++ " ".intercalate (r.tags.map (·.name))).toList := by
    by_cases none : l.tags.tail = []
    · rw [none, List.map_nil, List.map_eq_nil_iff] at tags
      rw [if_pos none, if_pos (List.isEmpty_iff.mpr tags)]
      rfl
    · have some_tag : ¬ r.tags.isEmpty := fun empty => none <| by
        rw [List.isEmpty_iff.mp empty] at tags
        exact List.map_eq_nil_iff.mp tags.symm
      have texts : (l.tags.tail.map fun t => String.ofList t.2).map String.toList =
          l.tags.tail.map Prod.snd := by
        rw [List.map_map]
        exact List.map_congr_left fun t _ => String.toList_ofList
      rw [if_neg none, if_neg some_tag, List.flatMap_cons, flatMap_blanks none, tags,
        String.toList_append, String.toList_intercalate, texts]
      rfl
  rw [words, title, canonical]
  dsimp only
  rw [List.flatMap_append, (RuleFlags.words_spelled l.flags).2.2.2, List.flatMap_cons,
    List.flatMap_cons, tagged, Format.header, isPrivate, isGlobal, name]
  generalize (if r.tags.isEmpty then "" else " : " ++ " ".intercalate (r.tags.map (·.name))) = last
  have whole := congrArg (· ++ ("rule ".toList ++ (l.name ++ last.toList))) modifiers
  simp only [String.toList_append, String.toList_ofList, List.append_assoc, List.cons_append]
    at whole ⊢
  exact whole

end RuleLine

/-! ### Both heads -/

variable {source : List Char} {s u : ParseState} {l : RuleLine} {t brace : Token} {r : Rule}
    {head more : List Char}

/-- The head that is written anew has no signs but colons, since its names are words. -/
theorem header_plain {c : Char} (other : isPart c = false) (blank : c ≠ ' ') (colon : c ≠ ':')
    (fine : l.Fine) (read : s.ReadsWords l.words u)
    (same : l.canonical.words.flatMap (' ' :: ·.2) = ' ' :: Format.header r) :
    c ∉ Format.header r := by
  have parts : ∀ {cs : List Char}, cs.all isPart → c ∉ cs := fun all inside =>
    absurd (List.all_eq_true.mp all c inside) (Bool.eq_false_iff.mp other)
  have names := read.ident_parts
  have plain : ∀ w ∈ l.canonical.words, c ∉ w.2 := by
    intro w member
    rcases List.mem_append.mp member with modifier | member
    · obtain ⟨modifier, k, rfl⟩ := (RuleFlags.words_spelled l.flags).1 w modifier
      rcases isRuleModifier_cases modifier with kind | kind <;> cases kind
        <;> exact parts (by decide)
    rcases List.mem_cons.mp member with rfl | member
    · exact @parts "rule".toList (by decide)
    rcases List.mem_cons.mp member with rfl | member
    · exact parts (names _ (List.mem_append_right _
        (List.mem_cons_of_mem _ (List.mem_cons_self ..))) rfl)
    · rw [RuleLine.canonical] at member
      dsimp only at member
      split at member
      · cases member
      · rcases List.mem_cons.mp member with rfl | member
        · exact fun inside => colon (List.mem_singleton.mp inside)
        · exact parts (names w (List.mem_append_right _ (List.mem_cons_of_mem _
            (List.mem_cons_of_mem _ (List.mem_of_mem_tail member)))) (fine.idents w member))
  intro inside
  have inside := List.mem_cons_of_mem ' ' inside
  rw [← same, List.mem_flatMap] at inside
  obtain ⟨w, member, inside⟩ := inside
  rcases List.mem_cons.mp inside with rfl | inside
  · exact blank rfl
  · exact plain w member inside

/-- What a head is written as. -/
theorem Headed.respaced (piece : List Char) : Respaced False piece (trim piece ++ ['\n']) := by
  obtain ⟨front, back, whole, blank, blank'⟩ := (trim_trimmed piece).around
  refine ⟨front, [], trim piece ++ back, trim piece ++ ['\n'], ?_, rfl, blank, rfl,
    .closed _ blank'⟩
  rw [← List.append_assoc]
  exact whole

/-- A token is read where the text starts, if there is neither white space nor a comment. -/
theorem nextSolid?_starts {c after : Cursor} {t : Token} (next : c.nextSolid? = some (t, after))
    {d : Char} (starts : c.rest.head? = some d) (solid : isWhite d = false) (other : d ≠ '/') :
    c.rest = t.text ++ after.rest := by
  obtain ⟨gap, mode, text, _, passed, _⟩ := Cursor.gap_of_nextSolid? next
  rw [text] at starts ⊢
  cases passed with
  | nothing => rfl
  | white white =>
    cases starts
    exact (Bool.eq_false_iff.mp solid white).elim
  | line | block | hexBlock =>
    cases starts
    exact (other rfl).elim

namespace HeadRuns

variable (h : HeadRuns source s l u t brace)

include h

theorem split : s.left t = Format.slice source ⟨t.start, brace.start⟩ ++ u.left brace ∧
    t.start + byteLength (Format.slice source ⟨t.start, brace.start⟩) = brace.start := by
  obtain ⟨d, step, start, rest, behind⟩ := left_reaches h.first
  have words : ∃ words, (s.advanced .normal).ReadsWords words u := by
    have read := h.read
    cases words : l.words with
    | nil => exact (List.append_ne_nil_of_right_ne_nil _ (List.cons_ne_nil _ _) words).elim
    | cons w words =>
      rw [words] at read
      obtain ⟨_, _, _, later⟩ := read.first
      exact ⟨_, later⟩
  obtain ⟨_, later⟩ := words
  obtain ⟨e, step', start', rest', _⟩ := left_reaches h.opens
  have reach := behind.trans (later.before.reaches.trans step')
  have split := Format.slice_reaches (h.good.tracked.behind.place.trans step) reach
  rw [start, start', rest, rest'] at split
  refine ⟨split, ?_⟩
  have total := reach.total
  rw [start, start', rest, rest', split, byteLength_append] at total
  omega

theorem opens_left : u.left brace = '{' :: (u.advanced .normal).input.here.rest := by
  obtain ⟨after, ahead⟩ := next?_eq_some h.opens
  rw [ParseState.left, Cursor.nextSolid?_spelled (u.input.ahead_eq.symm.trans ahead) h.kind
    (by rw [h.kind]; exact Bool.false_ne_true)]
  rfl

theorem keyword : ∃ w : Keyword, t.kind = .keyword w ∧ t.text = w.text.toList ∧
    (w = .kwRule ∨ w = .kwPrivate ∨ w = .kwGlobal) := by
  obtain ⟨after, ahead⟩ := next?_eq_some h.first
  have spelled : ∀ {w : Keyword}, t.kind = .keyword w → t.text = w.text.toList :=
    Cursor.nextSolid?_keyword (s.input.ahead_eq.symm.trans ahead)
  rcases h.fine.starts h.read h.first with kind | modifier
  · exact ⟨_, kind, spelled kind, .inl rfl⟩
  · rcases isRuleModifier_cases modifier with kind | kind
    · exact ⟨_, kind, spelled kind, .inr (.inl rfl)⟩
    · exact ⟨_, kind, spelled kind, .inr (.inr rfl)⟩

/-- The head starts with a word. -/
theorem starts (span : r.headerSpan = ⟨t.start, brace.start⟩)
    (headed : Format.Headed source r head) (more : List Char) :
    ∃ d, (head ++ '{' :: more).head? = some d ∧ isWhite d = false ∧ d ≠ '/' := by
  cases headed with
  | kept =>
    obtain ⟨split, _⟩ := h.split
    obtain ⟨w, _, text, kinds⟩ := h.keyword
    have letter : ∃ d, (s.left t).head? = some d ∧ isBlank d = false ∧ d ≠ '{' ∧
        isWhite d = false ∧ d ≠ '/' := by
      rw [ParseState.left, text]
      rcases kinds with rfl | rfl | rfl <;> exact ⟨_, rfl, by decide⟩
    obtain ⟨d, first, solid, other, known⟩ := letter
    rw [split, h.opens_left, List.head?_append] at first
    rw [span]
    cases starts : (Format.slice source ⟨t.start, brace.start⟩).head? with
    | none =>
      rw [starts] at first
      exact (other (Option.some.inj first).symm).elim
    | some c =>
      rw [starts] at first
      obtain rfl : c = d := Option.some.inj first
      refine ⟨c, ?_, known⟩
      rw [List.head?_append, List.head?_append, head?_trim starts solid]
      rfl
  | written =>
    obtain ⟨rest, whole⟩ : ∃ rest, Format.header r = ((if r.isPrivate then "private " else "") ++
        (if r.isGlobal then "global " else "") ++ "rule ").toList ++ rest :=
      ⟨_, by rw [Format.header, String.toList_append, String.toList_append, List.append_assoc]⟩
    rw [whole]
    cases r.isPrivate <;> cases r.isGlobal <;> exact ⟨_, rfl, by decide⟩

/-- The head of a rule leaves comments open, as it did before. -/
theorem tails (span : r.headerSpan = ⟨t.start, brace.start⟩)
    (same : l.canonical.words.flatMap (' ' :: ·.2) = ' ' :: Format.header r)
    (headed : Format.Headed source r head) (later : Tails False (u.left brace) ('{' :: more)) :
    Tails False (s.left t) (head ++ '{' :: more) where
  ended_iff := by
    refine ⟨False.elim, fun none => ?_⟩
    rw [h.split.1, h.opens_left] at none
    exact List.append_ne_nil_of_right_ne_nil _ (List.cons_ne_nil _ _) none
  nothing := False.elim
  solid := by
    obtain ⟨w, _, text, kinds⟩ := h.keyword
    rw [ParseState.left, text]
    rcases kinds with rfl | rfl | rfl <;> (rintro _ ⟨⟩; decide)
  stillOpen open_ := by
    rw [h.split.1] at open_
    cases headed with
    | kept =>
      rw [span]
      exact (Headed.respaced _).stillOpen later open_
    | written =>
      rw [h.opens_left] at open_ later
      have behind := Lexeme.closeHexComment?_later (by decide) (by decide) open_
      have plain : '*' ∉ Format.header r ++ ['\n'] := fun star =>
        (List.mem_append.mp star).elim
          (header_plain (by decide) (by decide) (by decide) h.fine h.read same) (by decide)
      rw [Lexeme.closeHexComment?_behind plain, later.stillOpen behind]
      rfl

/-- The head of a rule is read where it is laid out anew. -/
theorem relaid (span : r.headerSpan = ⟨t.start, brace.start⟩)
    (same : l.canonical.words.flatMap (' ' :: ·.2) = ' ' :: Format.header r)
    (headed : Format.Headed source r head) (later : Tails False (u.left brace) ('{' :: more))
    {s' : ParseState} {start : Nat}
    (here : s'.input.here.nextSolid? =
    (⟨.normal, start, head ++ '{' :: more⟩ : Cursor).nextSolid?) :
    ∃ (l' : RuleLine) (u' : ParseState) (n : Nat), l'.Fine ∧ l'.rule = l.rule ∧
      s'.ReadsWords l'.words u' ∧
      u'.input.here.nextSolid? = some (⟨.symbol .lbrace, n, ['{']⟩, ⟨.normal, n + 1, more⟩) := by
  cases headed with
  | kept =>
    obtain ⟨split, stops⟩ := h.split
    obtain ⟨after, ahead⟩ := next?_eq_some h.first
    have solid := s.input.ahead_eq.symm.trans ahead
    obtain ⟨d, step, read, meant⟩ := Cursor.nextSolid?_stands solid
    obtain ⟨first, _, place⟩ := Cursor.next?_place read
    have whole : (⟨.normal, t.start, s.left t⟩ : Cursor).next? = some (t, after) := by
      obtain ⟨w, kind, _, _⟩ := h.keyword
      have read := Cursor.next?_normal read (by rw [kind]; exact Bool.false_ne_true)
      have rest : d.rest = s.left t := by
        rw [place, ParseState.left, advanced, ahead]
        rfl
      rwa [rest, ← first] at read
    have beside :
        s.input.here.Across False (u.left brace) ('{' :: more) brace.start s'.input.here := by
      refine .abreast (solid.trans (Cursor.nextSolid?_of_solid whole meant).symm) here rfl
        (.mk split rfl rfl stops ?_ False.elim)
      rw [span]
      exact Headed.respaced _
    obtain ⟨_, step', start', _, _⟩ := left_reaches h.opens
    have top : ∀ w ∈ l.words, w.1.isWhole :=
      fun w member => (Kind.isTop_iff.mp (h.fine.top w member)).1.1
    obtain ⟨u', read', beside'⟩ := h.read.across later top (start' ▸ step'.offset_le) beside
    obtain ⟨_, ahead'⟩ := next?_eq_some h.opens
    obtain ⟨n, _, _, found⟩ := beside'.beyond later (u.input.ahead_eq.symm.trans ahead') rfl
      (by rw [h.kind]; exact Bool.false_ne_true)
    rw [Cursor.nextSolid?_lbrace] at found
    exact ⟨l, u', n, h.fine, rfl, read', found⟩
  | written =>
    have readable := RuleLine.canonical_readable h.fine h.read
    cases words : l.canonical.words with
    | nil => exact (List.append_ne_nil_of_right_ne_nil _ (List.cons_ne_nil _ _) words).elim
    | cons w words' =>
      rw [words] at readable
      have text : Format.header r ++ ['\n'] ++
          '{' :: more = w.2 ++ (words'.flatMap (' ' :: ·.2) ++ '\n' :: '{' :: more) := by
        rw [words, List.flatMap_cons, List.cons_append] at same
        rw [← (List.cons.inj same).2]
        simp only [List.append_assoc, List.cons_append, List.nil_append]
      rw [text] at here
      obtain ⟨u', n, read, behind⟩ := ReadsWords.of_words readable here
      rw [Cursor.nextSolid?_white .normal n rfl, Cursor.nextSolid?_lbrace] at behind
      exact ⟨l.canonical, u', n + 1, h.fine.canonical, RuleLine.canonical_rule,
        words ▸ read, behind⟩

end HeadRuns

end Parser

end RuleDesk
