import RuleDesk.Proofs.Layout.Ahead
import RuleDesk.Proofs.Parsing.CleanRuns

namespace RuleDesk

/-! ## The body of a rule that is laid out anew

Each section of the body is a piece of the text between two words that stay. From the last
one to the first it is seen that comments which are left open stay so, and from the first one to
the last that the same is read. -/

/-- The text from one place to another one. -/
theorem Format.slice_reaches {text : List Char} {c d : Cursor} (h : (Cursor.start text).Reaches c)
    (h' : c.Reaches d) :
    c.rest = slice text ⟨c.offset, d.offset⟩ ++ d.rest := by
  obtain ⟨front, split, place⟩ := h
  obtain ⟨taken, split', place'⟩ := h'
  have stands : StandsAt text c.offset taken :=
    ⟨front, d.rest, by rw [← split']; exact split, (place.trans (Nat.zero_add _)).symm⟩
  have piece := stands.slice
  rw [← place'] at piece
  rw [slice, piece, Option.getD_some, split']

namespace Cursor

/-- The text of a keyword. -/
theorem next?_keyword {c after : Cursor} {t : Token} {w : Keyword} (h : c.next? = some (t, after))
    (kind : t.kind = .keyword w) :
    t.text = w.text.toList := by
  have read := next?_normal h (by rw [kind]; exact Bool.false_ne_true)
  have nonempty := rest_ne_nil h
  rw [next?_of_read (c := { c with mode := .normal }) nonempty rfl] at read
  cases read
  exact Lexeme.text_of_keyword kind

/-- Symbols that no hex pattern has are spelled as the table says, in each mode. -/
theorem nextSolid?_spelled {c after : Cursor} {t : Token} {x : Symbol}
    (h : c.nextSolid? = some (t, after)) (kind : t.kind = .symbol x)
    (other : ¬ t.kind.isOfHex) : t.text = x.text.toList := by
  have table : ∀ entry ∈ Symbol.table, entry.2 = entry.1.text.toList := by decide
  obtain ⟨d, _, read, _⟩ := nextSolid?_stands h
  have normal := next?_normal read other
  have nonempty := rest_ne_nil read
  rw [next?_of_read (c := { d with mode := .normal }) nonempty rfl] at normal
  cases normal
  exact table _ (Lexeme.text_of_symbol kind)

theorem nextSolid?_keyword {c after : Cursor} {t : Token} {w : Keyword}
    (h : c.nextSolid? = some (t, after)) (kind : t.kind = .keyword w) :
    t.text = w.text.toList := by
  obtain ⟨d, _, read, _⟩ := nextSolid?_stands h
  exact next?_keyword read kind

end Cursor

namespace ParseState

/-- A parse of a text that has met no error. -/
structure Flawless (text : List Char) (s : ParseState) : Prop where
  clean : s.errors = []
  good : s.Wholesome text

variable {text : List Char} {s u : ParseState}

theorem Flawless.onward (h : s.Flawless text) {t : Token} (next : s.next? = some t)
    (plain : t.kind.isPlain) : (s.advanced .normal).Flawless text :=
  ⟨(advanced_errors _ _).trans h.clean, h.good.onward next plain⟩

theorem ReadsWords.flawless {words : List (Kind × List Char)} (h : s.ReadsWords words u)
    (top : ∀ w ∈ words, w.1.isTop) (flawless : s.Flawless text) : u.Flawless text :=
  ⟨h.errors.trans flawless.clean, h.wholesome top flawless.good⟩

/-- The text that is left of a token and behind it. -/
def left (s : ParseState) (t : Token) : List Char := t.text ++ (s.advanced .normal).input.here.rest

theorem left_at {after : Cursor} {t : Token} (next : s.input.here.nextSolid? = some (t, after)) :
    s.left t = t.text ++ after.rest := by
  rw [left, advanced_at rfl next]
  rfl

theorem left_reaches {t : Token} (next : s.next? = some t) :
    ∃ d, s.input.here.Reaches d ∧ d.offset = t.start ∧ d.rest = s.left t ∧
    d.Reaches (s.advanced .normal).input.here := by
  obtain ⟨after, ahead⟩ := next?_eq_some next
  obtain ⟨d, step, read, _⟩ := Cursor.nextSolid?_stands (s.input.ahead_eq.symm.trans ahead)
  obtain ⟨start, _, place⟩ := Cursor.next?_place read
  have behind : (s.advanced .normal).input.here = after := by rw [advanced, ahead]; rfl
  refine ⟨d, step, start.symm, ?_, behind ▸ Cursor.next?_reaches read⟩
  rw [place, left, behind]

/-- The text from a state up to a token behind a later one. -/
theorem Before.left_split (h : s.Before u) (tracked : s.Tracked text) {t : Token}
    (next : u.next? = some t) :
    s.input.here.rest = Format.slice text ⟨s.input.here.offset, t.start⟩ ++ u.left t ∧
      s.input.here.offset + byteLength (Format.slice text ⟨s.input.here.offset, t.start⟩) =
        t.start := by
  obtain ⟨d, step, start, rest, _⟩ := left_reaches next
  have reach := h.reaches.trans step
  have split := Format.slice_reaches tracked.behind.place reach
  rw [start, rest] at split
  refine ⟨split, ?_⟩
  have total := reach.total
  rw [split, start, rest, byteLength_append] at total
  omega

end ParseState

/-- Two rules, each in its own parse, that say the same. -/
structure RuleAlike (s s' : ParseState) (r r' : Rule) : Prop where
  same : r.rebase .placeless = r'.rebase .placeless
  words : List.Forall₂ (SameWords s s') r.patterns r'.patterns

theorem RuleAlike.later {s s' t t' : ParseState} {r r' : Rule} (h : RuleAlike s s' r r')
    (step : s.Before t) (step' : s'.Before t') :
    RuleAlike t t' r r' := ⟨h.same, h.words.imp fun _ _ known => known.later step step'⟩

namespace EndsSection

variable {text out : List Char} {last : ParseState} {stop : Nat} {tail tail' : List Char}
  (E : EndsSection text last stop tail tail') {s s' : ParseState} {r r' : Rule}

include E

/-- The content of a section, in both texts. -/
theorem sectionContent_alike (kind : SectionKind) (related : E.beside.lockstep.rel s s')
    (tracked' : s'.Tracked out) (alike : RuleAlike s s' r r')
    (ends : ((Parser.sectionContent kind false r).run s).2 = last) :
    RuleAlike last ((Parser.sectionContent kind false r').run s').2
        ((Parser.sectionContent kind false r).run s).1
        ((Parser.sectionContent kind false r').run s').1 ∧
      E.beside.lockstep.rel last ((Parser.sectionContent kind false r').run s').2 ∧
        ((Parser.sectionContent kind false r').run s').2.Tracked out := by
  have onWay : ((Parser.sectionContent kind false r).run s).2.Before last := ends ▸ .refl _
  have always :=
    Lockstep.sectionContent_always (L := E.beside.lockstep) E.takesArguments kind false alike.same
  have distinct : E.beside.lockstep.distinctNames ((Parser.sectionContent kind false r).run s).1 :=
    Lockstep.distinctNames_of_keeps View.placeless_keepsNames _
  obtain ⟨same, together⟩ := E.follows always related distinct onWay
  have kept := tracked'.run (Lockstep.sectionContent_always (L := tracking out)
    (tracking_takesArguments out) kind false (r := r') rfl) trivial
    (Lockstep.distinctNames_of_exact trivial _)
  have step := (Parser.sectionContent kind false r).forward s
  have step' := (Parser.sectionContent kind false r').forward s'
  refine ⟨⟨same, ?_⟩, ends ▸ together, kept⟩
  cases kind with
  | strings =>
    rw [← ends]
    exact E.patterns_words related tracked'
      (Lockstep.rules.patterns (L := E.beside.lockstep) alike.same) alike.words onWay
  | metas =>
    rw [← ends]
    exact (alike.later step step').words
  | condition =>
    rw [← ends]
    exact (alike.later step step').words

/-- The content of a section without errors, in a new text that has met none before it. -/
theorem sectionContent_relaid {kind : SectionKind} {q : Rule}
    (content : (Parser.sectionContent kind false r).run s = (q, last))
    (related : E.beside.lockstep.rel s s') (flawless : s'.Flawless out)
    (alike : RuleAlike s s' r r') : ∃ q' last' tight,
      (Parser.sectionContent kind false r').run s' = (q', last') ∧ RuleAlike last last' q q' ∧
      last.input.here.Abreast False tail tail' stop tight last'.input.here ∧
      last'.Flawless out := by
  cases content' : (Parser.sectionContent kind false r').run s' with
  | mk q' last' =>
    obtain ⟨alike', together, _⟩ := E.sectionContent_alike kind related flawless.good.tracked alike
      (congrArg Prod.snd content)
    have good' := Parser.sectionContent_good kind r' flawless.good
    rw [content] at alike'
    rw [content'] at alike' together good'
    have both : E.beside.Together last last' := together
    have near : Near _ _ _ last.read last.input.here last'.input.here := both.near
    exact ⟨q', last', _, rfl, alike', near.abreast, both.quiet', good' both.quiet'⟩

end EndsSection

/-! ### The words that stay -/

theorem Cursor.nextSolid?_colon (n : Nat) (rest : List Char) :
    (⟨.normal, n, ':' :: rest⟩ : Cursor).nextSolid? =
      some (⟨.symbol .colon, n, [':']⟩, ⟨.normal, n + 1, rest⟩) :=
  @Cursor.nextSolid?_read [':'] _ rest (List.cons_ne_nil _ _) rfl (by decide) n

theorem Cursor.nextSolid?_lbrace (n : Nat) (rest : List Char) :
    (⟨.normal, n, '{' :: rest⟩ : Cursor).nextSolid? =
    some (⟨.symbol .lbrace, n, ['{']⟩, ⟨.normal, n + 1, rest⟩) :=
  @Cursor.nextSolid?_read ['{'] _ rest (List.cons_ne_nil _ _) rfl (by decide) n

/-- Text with a first character that cannot end a comment, in front of both texts. -/
theorem Tails.ofFronts {ended : Prop} {front front' rest rest' : List Char} {c : Char}
    (alive : ¬ ended) (starts : (front ++ c :: rest).head? = front'.head?)
    (solid : ∀ d ∈ front'.head?, isBlank d = false ∧ d ≠ '*' ∧ d ≠ '/' ∧ d ≠ '\\') (other : c ≠ '*')
    (slash : c ≠ '/')
    (plain : '*' ∉ front')
    (stillOpen : Lexeme.closeHexComment? rest = none → Lexeme.closeHexComment? rest' = none) :
    Tails ended (front ++ c :: rest) (front' ++ rest') where
  ended_iff := ⟨fun done => (alive done).elim, fun none => by simp at none⟩
  nothing done := (alive done).elim
  solid d head := solid d (starts ▸ head)
  stillOpen left := by
    have behind := Lexeme.closeHexComment?_later other slash left
    rw [Lexeme.closeHexComment?_plain _ other, Option.map_eq_none_iff] at behind
    rw [Lexeme.closeHexComment?_behind plain, stillOpen behind]
    rfl

/-- The same with one character. -/
theorem Tails.ofSign {rest rest' : List Char} {c : Char}
    (solid : isBlank c = false ∧ c ≠ '*' ∧ c ≠ '/' ∧ c ≠ '\\')
    (stillOpen : Lexeme.closeHexComment? rest = none → Lexeme.closeHexComment? rest' = none) :
    Tails False (c :: rest) (c :: rest') := by
  have whole : Tails False ([] ++ c :: rest) ([c] ++ rest') :=
    .ofFronts id rfl (by rintro _ ⟨⟩; exact solid) solid.2.1 solid.2.2.1
      (fun star => solid.2.1 (List.mem_singleton.mp star).symm) stillOpen
  exact whole

/-- The keyword of a section up to its colon, where there is nothing between them any more. -/
theorem Tails.ofSection (kind : SectionKind) (between : List Char) {rest rest' : List Char}
    (stillOpen : Lexeme.closeHexComment? rest = none → Lexeme.closeHexComment? rest' = none) :
    Tails False (kind.keyword.text.toList ++ (between ++ ':' :: rest))
      (kind.keyword.text.toList ++ ':' :: rest') := by
  have whole : kind.keyword.text.toList ++ ':' :: rest' =
      (kind.keyword.text.toList ++ [':']) ++ rest' := by
    rw [List.append_assoc]
    rfl
  rw [whole, ← List.append_assoc]
  refine .ofFronts id ?_ ?_ (by decide) (by decide) ?_ stillOpen
  · cases kind <;> rfl
  · cases kind <;> (rintro _ ⟨⟩; decide)
  · cases kind <;> decide

namespace Parser

open ParseState

section Section

variable {source out : List Char} {s u : ParseState} {r q : Rule} {keyword last : Token}
  {kind : SectionKind} {body rest : List Char}
  (good : s.Wholesome source) (next : s.next? = some keyword)
  (opens : sectionKindOf? keyword.kind = some kind)
  (colon : (s.advanced .normal).kindAhead? = some (.symbol .colon))
  (content : (sectionContent kind false r).run ((s.advanced .normal).advanced .normal) = (q, u))
  (ends : u.next? = some last)

include good next opens colon

/-- The text of a section from its keyword on. -/
theorem sectionHead_left : keyword.text = kind.keyword.text.toList ∧
    ∃ between, s.left keyword = kind.keyword.text.toList ++
      (between ++ ':' :: ((s.advanced .normal).advanced .normal).input.here.rest) := by
  obtain ⟨sign, second, sign_kind⟩ := kindAhead?_eq_some colon
  obtain ⟨_, ahead⟩ := next?_eq_some next
  obtain ⟨_, ahead_sign⟩ := next?_eq_some second
  have spelled : keyword.text = kind.keyword.text.toList :=
    Cursor.nextSolid?_keyword (s.input.ahead_eq.symm.trans ahead) (Kind.word_section opens)
  have spelled_sign : sign.text = [':'] :=
    Cursor.nextSolid?_spelled ((s.advanced .normal).input.ahead_eq.symm.trans ahead_sign)
      sign_kind (by rw [sign_kind]; exact Bool.false_ne_true)
  have split := ((Before.refl (s.advanced .normal)).left_split good.tracked.onward second).1
  refine ⟨spelled, Format.slice source ⟨(s.advanced .normal).input.here.offset, sign.start⟩, ?_⟩
  rw [ParseState.left, split, ParseState.left, spelled_sign, spelled, List.singleton_append]

include content ends

/-- The body of a section, up to the word behind it. -/
theorem section_split : ((s.advanced .normal).advanced .normal).input.here.rest =
      Format.slice source ⟨((s.advanced .normal).advanced .normal).input.here.offset,
        last.start⟩ ++ u.left last ∧
    ((s.advanced .normal).advanced .normal).input.here.offset +
      byteLength (Format.slice source
        ⟨((s.advanced .normal).advanced .normal).input.here.offset, last.start⟩) = last.start := by
  have before := (sectionContent kind false r).forward ((s.advanced .normal).advanced .normal)
  rw [content] at before
  exact before.left_split (sectionHead_good good next opens colon).tracked ends

variable (laid : Respaced False (Format.slice source
  ⟨((s.advanced .normal).advanced .normal).input.here.offset, last.start⟩) body)

include laid

theorem section_tails (later : Tails False (u.left last) rest) :
    Tails False (s.left keyword) (kind.keyword.text.toList ++ ':' :: (body ++ rest)) := by
  obtain ⟨_, between, whole⟩ := sectionHead_left good next opens colon
  rw [whole, (section_split good next opens colon content ends).1]
  exact .ofSection kind between (laid.stillOpen later)

/-- A section says the same where it is laid out anew, and stands between its colon and the word
behind it. -/
theorem section_relaid (E : EndsSection source u last.start (u.left last) rest) {s' : ParseState}
    {r' : Rule} {tight : Prop} (abreast : s.input.here.Abreast False (s.left keyword)
      (kind.keyword.text.toList ++ ':' :: (body ++ rest)) keyword.start tight s'.input.here)
    (flawless : s'.Flawless out) (alike : RuleAlike s s' r r') :
    ∃ keyword' q' u' tight', s'.next? = some keyword' ∧
      sectionKindOf? keyword'.kind = some kind ∧
      (s'.advanced .normal).kindAhead? = some (.symbol .colon) ∧
      (sectionContent kind false r').run ((s'.advanced .normal).advanced .normal) = (q', u') ∧
      RuleAlike u u' q q' ∧
      u.input.here.Abreast False (u.left last) rest last.start tight' u'.input.here ∧
      u'.Flawless out ∧
      ((s'.advanced .normal).advanced .normal).input.here.rest = body ++ rest := by
  have word := Kind.word_section opens
  have plain : keyword.kind.isPlain := by
    rw [word]
    cases kind <;> rfl
  have mid_good := sectionHead_good good next opens colon
  obtain ⟨sign, second, sign_kind⟩ := kindAhead?_eq_some colon
  obtain ⟨_, ahead⟩ := next?_eq_some next
  have solid := s.input.ahead_eq.symm.trans ahead
  obtain ⟨spelled, _⟩ := sectionHead_left good next opens colon
  obtain ⟨split, stops⟩ := section_split good next opens colon content ends
  obtain ⟨_, start, next'⟩ := abreast.meets
    (section_tails good next opens colon content ends laid E.tails) solid rfl
    (by rw [word]; rfl) (by rw [spelled]) (.colon _)
  have normal := Cursor.nextSolid?_ends_hex solid (by rw [word]; exact Bool.false_ne_true)
  rw [normal] at next'
  have at_colon := advanced_at rfl next' .normal
  have colon' := Cursor.nextSolid?_colon (start + byteLength keyword.text) (body ++ rest)
  have at_body := advanced_at at_colon colon' .normal
  have mid_flawless : ((s'.advanced .normal).advanced .normal).Flawless out :=
    (flawless.onward (next_at rfl next') plain).onward (next_at at_colon colon') rfl
  have related : E.beside.lockstep.rel ((s.advanced .normal).advanced .normal)
      ((s'.advanced .normal).advanced .normal) := by
    have before := (sectionContent kind false r).forward ((s.advanced .normal).advanced .normal)
    rw [content] at before
    refine Beside.Together.mk before mid_good.tracked (.ofState mid_good.outside ?_)
      mid_good.calm mid_flawless.good.calm mid_flawless.clean
    refine .mk split (congrArg Cursor.rest at_body) ?_ stops laid
      fun tight => (tight sign ?_ sign_kind).elim
    · rw [at_body]
      exact advanced_leaves_hex second (by rw [sign_kind]; exact Bool.false_ne_true)
    · rw [advanced_read second]
      rfl
  obtain ⟨q', u', _, content', alike', abreast', flawless'⟩ :=
    E.sectionContent_relaid content related mid_flawless (alike.later
      ((advanced_before s).trans (advanced_before _))
      ((advanced_before s').trans (advanced_before _)))
  exact ⟨_, q', u', _, next_at rfl next', opens, kind_at at_colon colon', content', alike',
    abreast', flawless', congrArg Cursor.rest at_body⟩

end Section

/-- A section of the new text, with the same lines as the one that it comes of. -/
structure SectionAlike (o : FormatOptions) (source out : List Char) (part part' : RuleSection) :
    Prop where
  kind : part'.kind = part.kind
  lines : Format.block o (Format.slice out part'.body) 2 =
    Format.block o (Format.slice source part.body) 2

namespace BodyRuns

variable {o : FormatOptions} {source out : List Char} {r b : Rule} {s v : ParseState}
  {sections : List RuleSection}

/-- The body of a rule says the same where it is laid out anew, and its sections have the same
lines. -/
theorem relaid (h : BodyRuns source r s sections b v) (clean : v.errors = [])
    {back inside : List Char}
    (laid : Format.Inside o source back sections inside) (loose : Loose back)
    (left : Lexeme.closeHexComment? v.input.here.rest = none → Lexeme.closeHexComment? back = none)
    {t : Token} (next : s.next? = some t) :
    (∃ more, inside = t.text ++ more ∧ Loose more) ∧ Tails False (s.left t) inside ∧
      ∀ {s' : ParseState} {r' : Rule} {tight : Prop},
        s.input.here.Abreast False (s.left t) inside t.start tight s'.input.here →
        s'.Flawless out → RuleAlike s s' r r' → ∃ b' v' new, BodyRuns out r' s' new b' v' ∧
          v'.errors = [] ∧ RuleAlike v v' b b' ∧ v'.input.here.rest = back ∧
          List.Forall₂ (SectionAlike o source out) sections new := by
  induction h generalizing inside t with
  | @close r s brace good first kind =>
    obtain rfl := Option.some.inj (first.symm.trans next)
    cases laid
    obtain ⟨after, ahead⟩ := next?_eq_some next
    have solid := s.input.ahead_eq.symm.trans ahead
    have spelled : brace.text = ['}'] :=
      Cursor.nextSolid?_spelled solid kind (by rw [kind]; exact Bool.false_ne_true)
    have tails : Tails False (s.left brace) ('}' :: back) := by
      rw [ParseState.left, spelled]
      exact .ofSign (by decide) left
    refine ⟨⟨back, by rw [spelled]; rfl, loose⟩, tails,
      fun {s' r' tight} abreast flawless alike => ?_⟩
    obtain ⟨_, start, next'⟩ :=
      abreast.meets tails solid rfl (by rw [kind]; rfl) (by rw [spelled]; rfl) loose
    refine ⟨_, _, [], .close flawless.good (next_at rfl next') kind,
      (advanced_errors _ _).trans flawless.clean, ?_, ?_, .nil⟩
    · have later := alike.later (advanced_before s) (advanced_before s')
      exact ⟨congrArg (fun r : Rule => { r with rbrace := some ⟨0, 0⟩ }) later.same, later.words⟩
    · rw [advanced_at rfl next' .normal]
      rfl
  | @part r q b s u v keyword last kind sections good first opens colon fresh content ends
      later ih =>
    obtain rfl := Option.some.inj (first.symm.trans next)
    cases laid with
    | @part _ _ body rest laid laid_later =>
    obtain ⟨⟨more, text, more_loose⟩, later_tails, step⟩ := ih clean laid_later left ends
    have tails := section_tails good next opens colon content ends laid.spaced later_tails
    obtain ⟨spelled, _⟩ := sectionHead_left good next opens colon
    refine ⟨⟨_, by rw [spelled], .colon _⟩, tails, fun {s' r' tight} abreast flawless alike => ?_⟩
    -- the section up to the word behind it
    obtain ⟨closes, _⟩ := later.closes ends
    obtain ⟨_, ahead⟩ := next?_eq_some ends
    have solid := u.input.ahead_eq.symm.trans ahead
    have E : EndsSection source u last.start (u.left last) rest :=
      ⟨later.before.no_errors clean, later.good,
        ⟨last, _, more, solid, closes, rfl, text, more_loose⟩, later_tails⟩
    obtain ⟨keyword', q', u', _, next', opens', colon', content', alike', abreast', flawless',
      behind_colon⟩ := section_relaid good next opens colon content ends laid.spaced E
        abreast flawless alike
    have fresh' : r'.sections.any (·.kind == kind) = false :=
      (Lockstep.rules.any_section (L := E.beside.lockstep) alike.same kind).symm.trans fresh
    have added : ∀ keyword' span' : Span, RuleAlike u u'
        { q with
          sections := q.sections ++
            [⟨kind, ⟨keyword.start, ((s.advanced .normal).advanced .normal).input.here.offset⟩,
              ⟨keyword.start, last.start⟩⟩] }
        { q' with sections := q'.sections ++ [⟨kind, keyword', span'⟩] } := fun _ _ =>
      ⟨Lockstep.rules.withSection (L := E.beside.lockstep) alike'.same rfl rfl, alike'.words⟩
    obtain ⟨_, start', ends'⟩ := abreast'.meets later_tails solid rfl
      (Kind.isWhole_of_closesPart closes) text more_loose
    obtain ⟨b', v', new, body', clean', alike, behind, parts⟩ :=
      step abreast' flawless' (added _ _)
    refine ⟨b', v', _, .part flawless.good next' opens' colon' fresh' content' (next_at rfl ends')
      body', clean', alike, behind, .cons ⟨rfl, ?_⟩ parts⟩
    -- the bodies stand between the colon and the next word
    have split' := (section_split flawless.good next' opens' colon' content' (next_at rfl ends')).1
    rw [left_at ends', ← text] at split'
    have body_eq := List.append_cancel_right (behind_colon.symm.trans split')
    exact (congrArg (Format.block o · 2) body_eq.symm).trans laid.again

end BodyRuns

end Parser

end RuleDesk
