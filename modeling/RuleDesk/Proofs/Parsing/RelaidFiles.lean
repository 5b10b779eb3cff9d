import RuleDesk.Proofs.Parsing.RelaidHeads

namespace RuleDesk

/-! ## A text that is laid out anew

From the last rule to the first it is seen that comments which are left open stay so. From the
first item to the last one the parser then reads the same. -/

/-- The text from the next rule on, and where it starts. -/
def Format.tailText (source : List Char) : List Rule → List Char
  | [] => []
  | r :: _ => (dropBytes? source r.span.start).getD []

def Format.tailStart (source : List Char) : List Rule → Nat
  | [] => byteLength source
  | r :: _ => r.span.start

/-- What is left of a text at a place in it. -/
theorem Cursor.Reaches.left_eq {text : List Char} {c : Cursor} (h : (Cursor.start text).Reaches c) :
    (dropBytes? text c.offset).getD [] = c.rest := by
  obtain ⟨front, split, offset⟩ := h
  have split : text = front ++ c.rest := split
  have offset : c.offset = byteLength front := offset.trans (Nat.zero_add _)
  rw [offset]
  conv => lhs; rw [split]
  rw [dropBytes?_byteLength_append]
  rfl

/-- The items of two texts, each in its own parse, that say the same. -/
structure ItemsRelaid (s s' : ParseState) (items items' : Parser.Items) : Prop where
  imports : items.imports.map (·.rebase .placeless) = items'.imports.map (·.rebase .placeless)
  includes : items.includes.map (·.rebase .placeless) = items'.includes.map (·.rebase .placeless)
  rules : List.Forall₂ (RuleAlike s s') items.rules items'.rules

namespace Parser

open ParseState Format

variable {o : FormatOptions} {source out : List Char} {s v : ParseState}

namespace BodyRuns

variable {r b : Rule} {sections : List RuleSection}

/-- The first token of a body starts the first section or closes the rule. -/
theorem first_start (h : BodyRuns source r s sections b v) {t : Token} (next : s.next? = some t)
    {rbrace : Span} (closed : b.rbrace = some rbrace) :
    (sections.head?.map (·.span.start)).getD rbrace.start = t.start := by
  cases h with
  | close _ next' =>
    obtain rfl := Option.some.inj (next'.symm.trans next)
    cases closed
    rfl
  | part _ next' =>
    obtain rfl := Option.some.inj (next'.symm.trans next)
    rfl

/-- The text in front of the first section. -/
theorem foreword_eq {u : ParseState} {brace t : Token} {start : Nat} {rbrace : Span}
    (h : BodyRuns source r (u.advanced .normal) sections b v) (fresh : r.sections = [])
    (opens : u.next? = some brace) (next : (u.advanced .normal).next? = some t)
    (closed : b.rbrace = some rbrace) :
    foreword source (closedRule b start rbrace) brace.span rbrace =
      slice source ⟨(u.advanced .normal).input.here.offset, t.start⟩ := by
  have sections_eq := h.rule_eq.1
  rw [fresh, List.nil_append] at sections_eq
  rw [foreword, advanced_here opens .normal, ← h.first_start next closed, ← sections_eq]
  rfl

/-- The body ends behind its brace. -/
theorem ends (h : BodyRuns source r s sections b v) {rbrace : Span}
    (closed : b.rbrace = some rbrace) :
    v.input.here.offset = rbrace.stop ∧ v.input.here.mode = .normal ∧ 0 < rbrace.stop := by
  induction h with
  | @close r s t _ next brace =>
    cases closed
    obtain ⟨after, ahead⟩ := next?_eq_some next
    have wide := Nat.lt_of_lt_of_le (List.length_pos_iff.mpr (Cursor.nextSolid?_nonempty
      (s.input.ahead_eq.symm.trans ahead))) (length_le_byteLength t.text)
    exact ⟨advanced_here next .normal, advanced_leaves_hex
      next (by rw [brace]; exact Bool.false_ne_true), Nat.lt_of_lt_of_le wide (Nat.le_add_left _ _)⟩
  | part _ _ _ _ _ _ _ _ ih => exact ih closed

end BodyRuns

namespace RuleLine

variable {l : RuleLine} {r : Rule} (alike : r.rebase .placeless = l.rule)

include alike

/-- What a line says of a rule. -/
theorem names : r.isPrivate = l.flags.isPrivate ∧ r.isGlobal = l.flags.isGlobal ∧
    r.ident.name = String.ofList l.name ∧
    r.tags.map (·.name) = l.tags.tail.map fun t => String.ofList t.2 := by
  refine ⟨congrArg Rule.isPrivate alike, congrArg Rule.isGlobal alike,
    congrArg (fun r : Rule => r.ident.name) alike, ?_⟩
  have tags := congrArg (fun r : Rule => r.tags.map (·.name)) alike
  simp only [Rule.rebase, RuleLine.rule, List.map_map] at tags
  exact tags

theorem fresh : r.sections = [] ∧ r.patterns = [] :=
  ⟨List.map_eq_nil_iff.mp (congrArg Rule.sections alike),
    List.map_eq_nil_iff.mp (congrArg Rule.patterns alike)⟩

end RuleLine

/-- The words of a rule start with a token. -/
theorem RuleLine.starts {l : RuleLine} {u : ParseState} (read : s.ReadsWords l.words u) :
    ∃ t, s.next? = some t := by
  cases words : l.words with
  | nil => exact (List.append_ne_nil_of_right_ne_nil _ (List.cons_ne_nil _ _) words).elim
  | cons w words' =>
    rw [words] at read
    obtain ⟨t, next, _⟩ := read.first
    exact ⟨t, next⟩

/-- The head of a rule where it is laid out anew, up to its brace. -/
theorem HeadRuns.again {l : RuleLine} {u : ParseState} {t brace : Token} {r : Rule}
    {head more : List Char} (h : HeadRuns source s l u t brace)
    (span : r.headerSpan = ⟨t.start, brace.start⟩)
    (text : l.canonical.words.flatMap (' ' :: ·.2) = ' ' :: header r)
    (headed : Headed source r head) (later : Tails False (u.left brace) ('{' :: more))
    {s' : ParseState} {start : Nat}
    (here : s'.input.here.nextSolid? =
      (⟨.normal, start, head ++ '{' :: more⟩ : Cursor).nextSolid?) (flawless : s'.Flawless out) :
    ∃ l' u' t' brace', HeadRuns out s' l' u' t' brace' ∧ l'.rule = l.rule ∧
      u'.input.here.nextSolid? =
        some (brace', ⟨.normal, brace'.stop, more⟩) ∧ s'.left t' = head ++ '{' :: more ∧
      slice out ⟨t'.start, brace'.start⟩ = head := by
  obtain ⟨l', u', n, fine, rule_eq, read, found⟩ := h.relaid span text headed later here
  obtain ⟨t', first⟩ := RuleLine.starts read
  have runs : HeadRuns out s' l' u' t' ⟨.symbol .lbrace, n, ['{']⟩ :=
    ⟨flawless.good, fine, read, first, next_at rfl found, rfl⟩
  have whole : s'.left t' = head ++ '{' :: more := by
    obtain ⟨_, ahead⟩ := next?_eq_some first
    have solid := s'.input.ahead_eq.symm.trans ahead
    obtain ⟨d, starts, white, other⟩ := h.starts span headed more
    rw [left_at solid]
    exact (nextSolid?_starts (here.symm.trans solid) starts white other).symm
  refine ⟨l', u', t', _, runs, rule_eq, found, whole, ?_⟩
  have split := runs.split.1
  rw [whole, left_at found] at split
  exact (List.append_cancel_right split).symm

theorem closedRule_alike {s s' : ParseState} {b b' : Rule} (h : RuleAlike s s' b b')
    (start start' : Nat) (rbrace rbrace' : Span) :
    RuleAlike s s' (closedRule b start rbrace) (closedRule b' start' rbrace') :=
  ⟨congrArg (fun r : Rule => { r with span := ⟨0, 0⟩ }) h.same, h.words⟩

/-- The next token stands where a rule starts. -/
theorem tailText_eq {r : Rule} {rules : List Rule} {t : Token} (good : s.Wholesome source)
    (first : s.next? = some t) (start : t.start = r.span.start) :
    tailText source (r :: rules) = s.left t := by
  obtain ⟨d, step, at_start, rest, _⟩ := left_reaches first
  rw [← rest, ← (good.tracked.behind.place.trans step).left_eq, at_start, start]
  rfl

namespace RuleRuns

variable {r : Rule}

theorem good (h : RuleRuns source s r v) : s.Wholesome source := by
  obtain ⟨head⟩ := h
  exact head.good

theorem good_end (h : RuleRuns source s r v) : v.Wholesome source := by
  obtain ⟨_, _, _, body⟩ := h
  exact body.good_end

theorem before (h : RuleRuns source s r v) : s.Before v := by
  obtain ⟨head, _, _, body⟩ := h
  exact head.read.before.trans ((advanced_before _).trans body.before)

/-- The rule starts with its first word. -/
theorem first (h : RuleRuns source s r v) :
    ∃ t, s.next? = some t ∧ t.start = r.span.start ∧ ¬ t.kind.isOfHex := by
  obtain ⟨head⟩ := h
  obtain ⟨w, kind, _⟩ := head.keyword
  exact ⟨_, head.first, rfl, by rw [kind]; exact Bool.false_ne_true⟩

/-- The rule ends behind its brace. -/
theorem ends (h : RuleRuns source s r v) {rbrace : Span} (closed : r.rbrace = some rbrace) :
    v.input.here.offset = rbrace.stop ∧ v.input.here.mode = .normal ∧ 0 < rbrace.stop := by
  obtain ⟨_, _, _, body⟩ := h
  exact body.ends closed

end RuleRuns

/-- What a rule of the new text is laid out as, if it is once more, is what the rule is laid out
as that it comes of. -/
structure LinesAlike (o : FormatOptions) (source out : List Char) (r r' : Rule)
    (lbrace rbrace lbrace' rbrace' : Span) : Prop where
  head : headLine out r' = headLine source r
  front : block o (foreword out r' lbrace' rbrace') 1 = block o (foreword source r lbrace rbrace) 1
  sections : List.Forall₂ (SectionAlike o source out) r.sections r'.sections

theorem slash_of_commented {cs : List Char} (h : commented cs) : '/' ∈ cs := by
  have infix_ : ∀ (second : Char) (cs : List Char), containsInfix ['/', second] cs → '/' ∈ cs := by
    intro second cs found
    induction cs with
    | nil => cases found
    | cons c cs ih =>
      rcases Bool.or_eq_true_iff.mp found with here | later
      · cases cs with
        | nil => simp [List.isPrefixOf] at here
        | cons d cs =>
          have same := (Bool.and_eq_true_iff.mp here).1
          exact beq_iff_eq.mp same ▸ List.mem_cons_self ..
      · exact List.mem_cons_of_mem _ (ih later)
  exact (Bool.or_eq_true_iff.mp h).elim (infix_ _ cs) (infix_ _ cs)

theorem header_of_alike {r r' : Rule} (h : r.rebase .placeless = r'.rebase .placeless) :
    header r' = header r := by
  have isPrivate := congrArg Rule.isPrivate h
  have isGlobal := congrArg Rule.isGlobal h
  have name := congrArg (fun r : Rule => r.ident.name) h
  have name : r.ident.name = r'.ident.name := name
  dsimp only [Rule.rebase] at isPrivate isGlobal
  have tags : r.tags.map (·.name) = r'.tags.map (·.name) := by
    have both := congrArg (fun r : Rule => r.tags.map (·.name)) h
    simp only [Rule.rebase, List.map_map] at both
    exact both
  have none : r.tags.isEmpty = r'.tags.isEmpty := by
    have both := congrArg List.isEmpty tags
    rwa [List.isEmpty_map, List.isEmpty_map] at both
  rw [header, header, isPrivate, isGlobal, name, tags, none]

/-- The rules of the new text, which would be laid out as those that they come of, and the text
behind each of them. -/
inductive RulesAlike (o : FormatOptions) (source out : List Char) : List Rule → List Rule → Prop
  | ended : RulesAlike o source out [] []
  | rule {r r' : Rule} {rest rest' : List Rule} {lbrace rbrace lbrace' rbrace' : Span}
      (opens : r.lbrace = some lbrace) (closes : r.rbrace = some rbrace)
      (opens' : r'.lbrace = some lbrace') (closes' : r'.rbrace = some rbrace')
      (behind : 0 < rbrace.stop ∧ 0 < rbrace'.stop)
      (lines : LinesAlike o source out r r' lbrace rbrace lbrace' rbrace')
      (between : GapAlike (rest = []) true (gapText source rbrace.stop rest)
        (gapText out rbrace'.stop rest'))
      (later : RulesAlike o source out rest rest') :
      RulesAlike o source out (r :: rest) (r' :: rest')

/-- The line of a head is the same once it is laid out. -/
theorem headLine_again {r r' : Rule} {head : List Char} (headed : Headed source r head)
    (piece : slice out r'.headerSpan = head) (same : header r' = header r)
    (plain : '/' ∉ header r) : headLine out r' = headLine source r := by
  rw [headLine, piece, same]
  cases headed with
  | kept comment =>
    rw [trim_append_blank _ (by decide)]
    rfl
  | written uncommented =>
    have without : ¬ commented (trim (header r ++ ['\n'])) := by
      intro comment
      obtain ⟨front, back, whole, _⟩ := (trim_trimmed (header r ++ ['\n'])).around
      have inside : '/' ∈ header r ++ ['\n'] := by
        rw [whole]
        exact List.mem_append_left _ (List.mem_append_right _ (slash_of_commented comment))
      exact (List.mem_append.mp inside).elim plain (by decide)
    rw [if_neg without, headLine, if_neg uncommented]

/-- In both texts the foreword stands between the brace and the next word. -/
theorem BodyRuns.foreword_again {r b' r' : Rule} {b : Rule} {sections new : List RuleSection}
    {u u' v' : ParseState} {t brace' : Token} {front more : List Char} {start : Nat}
    {rbrace' : Span} {tight : Prop}
    (body : BodyRuns source r (u.advanced .normal) sections b v)
    (next : (u.advanced .normal).next? = some t)
    (abreast : (u.advanced .normal).input.here.Abreast False ((u.advanced .normal).left t)
      (t.text ++ more) t.start tight (u'.advanced .normal).input.here)
    (tails : Tails False ((u.advanced .normal).left t) (t.text ++ more)) (loose : Loose more)
    (behind : (u'.advanced .normal).input.here.rest = front ++ (t.text ++ more))
    (body' : BodyRuns out r' (u'.advanced .normal) new b' v') (fresh : r'.sections = [])
    (opens : u'.next? = some brace') (closed : b'.rbrace = some rbrace') :
    foreword out (closedRule b' start rbrace') brace'.span rbrace' = front := by
  obtain ⟨_, ahead⟩ := next?_eq_some next
  obtain ⟨_, _, word⟩ := abreast.meets tails ((u.advanced .normal).input.ahead_eq.symm.trans ahead)
    rfl (Kind.isWhole_of_closesPart (body.closes next).1) rfl loose
  have split := ((Before.refl (u'.advanced .normal)).left_split body'.good.tracked
    (next_at rfl word)).1
  rw [left_at word] at split
  rw [body'.foreword_eq fresh opens (next_at rfl word) closed]
  exact (List.append_cancel_right (behind.symm.trans split)).symm

/-- A rule says the same where it is laid out anew, and has the same lines. -/
theorem RuleRuns.relaid {r : Rule} (h : RuleRuns source s r v) (clean : v.errors = [])
    {lbrace rbrace : Span} (opens : r.lbrace = some lbrace) (closes : r.rbrace = some rbrace)
    {head front inside back : List Char} (headed : Headed source r head)
    (laid : Blocked o 1 (foreword source r lbrace rbrace) front)
    (later : Inside o source back r.sections inside) (loose : Loose back)
    (left : Lexeme.closeHexComment? v.input.here.rest = none →
      Lexeme.closeHexComment? back = none) {t : Token} (first : s.next? = some t) :
    Tails False (s.left t) (head ++ '{' :: (front ++ inside)) ∧ ∀ {s' : ParseState} {start : Nat},
      s'.input.here.nextSolid? = (⟨.normal, start, head ++ '{' :: (front ++ inside)⟩ :
        Cursor).nextSolid? → s'.Flawless out →
        ∃ r' v' lbrace' rbrace', RuleRuns out s' r' v' ∧ v'.errors = [] ∧ RuleAlike v v' r r' ∧
          v'.input.here.rest = back ∧ r'.lbrace = some lbrace' ∧ r'.rbrace = some rbrace' ∧
          LinesAlike o source out r r' lbrace rbrace lbrace' rbrace' ∧
          ∀ t', s'.next? = some t' → s'.left t' = head ++ '{' :: (front ++ inside) := by
  obtain @⟨u, _, l, t₀, brace, rbrace₀, r, b, sections, runs, alike, opens₀, body, closed, whole,
    _⟩ := h
  obtain rfl := Option.some.inj (runs.first.symm.trans first)
  obtain rfl := Option.some.inj (closes.symm.trans closed)
  obtain ⟨sections_eq, _, same⟩ := body.rule_eq
  obtain rfl := Option.some.inj (opens.symm.trans (same.lbrace.trans opens₀))
  obtain ⟨isPrivate, isGlobal, name, tags⟩ := RuleLine.names alike
  obtain ⟨no_sections, no_patterns⟩ := RuleLine.fresh alike
  rw [no_sections, List.nil_append] at sections_eq
  have span : (closedRule b t₀.start rbrace).headerSpan = ⟨t₀.start, brace.start⟩ := by
    rw [Rule.headerSpan, opens]
    rfl
  have text : l.canonical.words.flatMap (' ' :: ·.2) =
    ' ' :: header (closedRule b t₀.start rbrace) :=
    RuleLine.canonical_header ⟨same.isPrivate.trans isPrivate, same.isGlobal.trans isGlobal,
      (congrArg Ident.name same.ident).trans name,
      (congrArg (List.map Ident.name) same.tags).trans tags⟩
  -- the text behind the brace
  obtain ⟨t₁, next⟩ := body.starts
  obtain ⟨split, stops⟩ := (Before.refl (u.advanced .normal)).left_split body.good.tracked next
  have spaced := laid.spaced
  rw [body.foreword_eq no_sections runs.opens next closed] at spaced
  have later : Inside o source back sections inside := sections_eq ▸ later
  obtain ⟨⟨more, rfl, more_loose⟩, inside_tails, go⟩ := body.relaid clean later loose left next
  have brace_tails : Tails False (u.left brace) ('{' :: (front ++ (t₁.text ++ more))) := by
    rw [runs.opens_left, split]
    exact .ofSign (by decide) (spaced.stillOpen inside_tails)
  refine ⟨runs.tails span text headed brace_tails, fun {s' start} here flawless => ?_⟩
  obtain ⟨l', u', t', brace', runs', rule_eq, found, left_eq, piece⟩ :=
    runs.again span text headed brace_tails here flawless
  have behind := congrArg Cursor.rest (advanced_at rfl found .normal)
  obtain ⟨r', alike', opens', run⟩ :=
    run_itemStep_line runs'.fine runs'.read runs'.first runs'.opens runs'.kind flawless.good.calm
  obtain ⟨no_sections', no_patterns'⟩ := RuleLine.fresh alike'
  have rule_alike : RuleAlike (u.advanced .normal) (u'.advanced .normal) r r' := by
    refine ⟨alike.trans (rule_eq.symm.trans alike'.symm), ?_⟩
    rw [no_patterns, no_patterns']
    exact .nil
  have abreast : (u.advanced .normal).input.here.Abreast False ((u.advanced .normal).left t₁)
      (t₁.text ++ more) t₁.start False (u'.advanced .normal).input.here := by
    have normal := advanced_leaves_hex runs.opens (by rw [runs.kind]; exact Bool.false_ne_true)
    have normal' := advanced_leaves_hex runs'.opens (by rw [runs'.kind]; exact Bool.false_ne_true)
    exact .mk split behind (normal.trans normal'.symm) stops spaced False.elim
  obtain ⟨b', v', new, body', clean', body_alike, rest, parts⟩ :=
    go abreast ((runs'.read.flawless runs'.fine.top flawless).onward runs'.opens
      (by rw [runs'.kind]; rfl)) rule_alike
  obtain ⟨sections_eq', some_brace, same'⟩ := body'.rule_eq
  rw [no_sections', List.nil_append] at sections_eq'
  obtain ⟨rbrace', closed'⟩ := Option.isSome_iff_exists.mp some_brace
  have whole' : b'.sections.any (·.kind == .condition) := by
    have both := congrArg (fun r : Rule => r.sections.any (·.kind == .condition)) body_alike.same
    simp only [Rule.rebase, List.any_map] at both
    exact both.symm.trans whole
  have alike := closedRule_alike body_alike t₀.start t'.start rbrace rbrace'
  have opens' : (closedRule b' t'.start rbrace').lbrace = some brace'.span :=
    same'.lbrace.trans opens'
  refine ⟨closedRule b' t'.start rbrace', v', _, rbrace',
    .mk runs' alike' (same'.lbrace.symm.trans opens') body' closed' whole' fun items => ?_, clean',
    alike, rest, opens', closed', ⟨?_, ?_, ?_⟩, fun _ again => ?_⟩
  · rw [run, run_bind, run_ruleRest body'.run closed' whole']
    rfl
  · have piece : slice out (closedRule b' t'.start rbrace').headerSpan = head := by
      rw [Rule.headerSpan, opens']
      exact piece
    exact headLine_again headed piece (header_of_alike alike.same)
      (header_plain (by decide) (by decide) (by decide) runs.fine runs.read text)
  · rw [body.foreword_again next abreast inside_tails more_loose behind body' no_sections'
      runs'.opens closed']
    exact laid.again
  · exact sections_eq.symm ▸ sections_eq'.symm ▸ parts
  · obtain rfl := Option.some.inj (runs'.first.symm.trans again)
    exact left_eq

namespace FileRuns

variable {items all : Items} {rules : List Rule}

theorem good (h : FileRuns source items s rules all v) : s.Wholesome source := by
  cases h with
  | ended good | load good => exact good
  | rule first => exact first.good

theorem before (h : FileRuns source items s rules all v) : s.Before v := by
  induction h with
  | ended => exact .refl _
  | load _ _ read _ _ ih => exact read.before.trans ih
  | rule first _ ih => exact first.before.trans ih

/-- The next rule is reached. -/
theorem reaches (h : FileRuns source items s rules all v) :
    ∃ d, s.input.here.Reaches d ∧ d.offset = tailStart source rules ∧
    d.rest = tailText source rules := by
  induction h with
  | @ended items s good none =>
    have place := good.tracked.behind.place
    refine ⟨⟨s.input.here.mode, byteLength source, []⟩,
      ⟨s.input.here.rest, (List.append_nil _).symm, ?_⟩, rfl, rfl⟩
    have total := place.total
    exact (Nat.zero_add _).symm.trans total.symm
  | load _ _ read _ _ ih =>
    obtain ⟨d, step, place⟩ := ih
    exact ⟨d, read.before.reaches.trans step, place⟩
  | rule runs =>
    obtain ⟨t, next, start, _⟩ := runs.first
    obtain ⟨d, step, at_start, rest, _⟩ := left_reaches next
    exact ⟨d, step, at_start.trans start, rest.trans (tailText_eq runs.good next start).symm⟩

/-- The text up to the next rule. -/
theorem split (h : FileRuns source items s rules all v) :
    s.input.here.rest = gapText source s.input.here.offset rules ++ tailText source rules ∧
      s.input.here.offset + byteLength (gapText source s.input.here.offset rules) =
        tailStart source rules := by
  obtain ⟨d, step, start, rest⟩ := h.reaches
  have place := h.good.tracked.behind.place
  have split :
      s.input.here.rest = gapText source s.input.here.offset rules ++ tailText source rules := by
    cases rules with
    | nil => exact place.left_eq.symm.trans (List.append_nil _).symm
    | cons r rules =>
      rw [← rest, gapText, ← show d.offset = r.span.start from start]
      exact slice_reaches place step
  refine ⟨split, ?_⟩
  have total := step.total
  rw [start, rest, split, byteLength_append] at total
  omega

theorem closed (h : FileRuns source items s rules all v) :
    ∀ r ∈ rules, ∀ rbrace ∈ r.rbrace, 0 < rbrace.stop := by
  induction h with
  | ended => exact nofun
  | load _ _ _ _ _ ih => exact ih
  | rule first _ ih => exact List.forall_mem_cons.mpr ⟨fun _ closed => (first.ends closed).2.2, ih⟩

/-- The items of a text say the same where it is laid out anew, and have the same lines. -/
theorem relaid (h : FileRuns source items s rules all v) (clean : v.errors = []) {tail' : List Char}
    (ahead : Ahead o source rules tail') :
    Tails (rules = []) (tailText source rules) tail' ∧
      ∀ {s' : ParseState} {items' : Items}, s.input.here.Across (rules = [])
        (tailText source rules) tail' (tailStart source rules) s'.input.here →
        s'.Flawless out → ItemsRelaid s s' items items' →
          ∃ rules' all' v', FileRuns out items' s' rules' all' v' ∧ v'.errors = [] ∧
          ItemsRelaid v v' all all' ∧ tailText out rules' = tail' ∧
          RulesAlike o source out rules rules' := by
  induction h generalizing tail' with
  | @ended items s good none =>
    cases ahead
    have tails : Tails (([] : List Rule) = []) [] [] :=
      ⟨iff_of_true rfl rfl, fun _ => rfl, nofun, id⟩
    refine ⟨tails, fun {s' items'} across flawless alike =>
      ⟨[], items', s', .ended flawless.good ?_, flawless.clean, alike, rfl, .ended⟩⟩
    have behind : s.input.here.nextSolid? = .none := by
      rw [next?, s.input.ahead_eq] at none
      exact Option.map_eq_none_iff.mp none
    rw [next?, s'.input.ahead_eq, across.none tails rfl behind]
    rfl
  | @load items more all s u v rules k word path good load read step later ih =>
    obtain ⟨tails, go⟩ := ih clean ahead
    refine ⟨tails, fun {s' items'} across flawless alike => ?_⟩
    have top : ∀ w ∈ [(k, word), (Kind.string, path)], w.1.isTop := by
      refine List.forall_mem_cons.mpr ⟨?_, List.forall_mem_singleton.mpr rfl⟩
      rcases isLoad_cases load with rfl | rfl <;> rfl
    obtain ⟨u', read', across'⟩ := read.across tails
      (fun w member => (Kind.isTop_iff.mp (top w member)).1.1)
      (by rw [← later.split.2]; exact Nat.le_add_right _ _) across
    obtain ⟨_, run, rules_eq, imports, includes⟩ := run_itemStep_load load read good.calm items
    obtain ⟨more', run', rules_eq', imports', includes'⟩ :=
      run_itemStep_load load read' flawless.good.calm items'
    rw [step] at run
    cases run
    have alike' : ItemsRelaid u u' more more' := by
      refine ⟨by rw [imports, imports', alike.imports], by rw [includes, includes', alike.includes],
        ?_⟩
      rw [rules_eq, rules_eq']
      exact alike.rules.imp fun _ _ known => known.later read.before read'.before
    obtain ⟨rules', all', v', later', rest⟩ := go across' (read'.flawless top flawless) alike'
    exact ⟨rules', all', v', .load flawless.good load read' run' later', rest⟩
  | @rule items all s v w r rules runs later ih =>
    cases ahead with
    | @rule _ _ lbrace rbrace head front inside close tail opens closes headed laid inner
        between apart ahead =>
    obtain ⟨tails, go⟩ := ih clean ahead
    obtain ⟨split, stops⟩ := later.split
    obtain ⟨place, mode, wide⟩ := runs.ends closes
    rw [place] at split stops
    have left : Lexeme.closeHexComment? v.input.here.rest = none →
        Lexeme.closeHexComment? (close ++ tail) = none := fun left =>
      between.spaced.stillOpen tails (split ▸ left)
    obtain ⟨t, first, start, other⟩ := runs.first
    obtain ⟨rule_tails, step⟩ := runs.relaid (later.before.no_errors clean) opens closes headed laid
      inner apart left first
    have alive : (r :: rules = []) = False := eq_false (List.cons_ne_nil _ _)
    rw [alive, tailText_eq runs.good first start]
    refine ⟨rule_tails, fun {s' items'} across flawless alike => ?_⟩
    obtain ⟨after, solid⟩ := next?_eq_some first
    obtain ⟨n, _, _, found⟩ :=
      across.beyond rule_tails (s.input.ahead_eq.symm.trans solid) start other
    obtain ⟨r', v', lbrace', rbrace', runs', clean', rule_alike, rest', opens', closes', lines,
      left_eq⟩ := step found flawless
    obtain ⟨place', mode', wide'⟩ := runs'.ends closes'
    have onward : ItemsRelaid v v' { items with rules := items.rules ++ [r] }
        { items' with rules := items'.rules ++ [r'] } :=
      ⟨alike.imports, alike.includes, List.rel_append
        (alike.rules.imp fun _ _ known => known.later runs.before runs'.before)
        (.cons rule_alike .nil)⟩
    have beside : v.input.here.Across (rules = []) (tailText source rules) tail
      (tailStart source rules) v'.input.here :=
      .abreast rfl rfl mode (.mk (place ▸ split) rest' (mode.trans mode'.symm) (place ▸ stops)
        between.spaced False.elim)
    obtain ⟨rules', all', w', later', rest, alike', tail_eq, more⟩ :=
      go beside ⟨clean', runs'.good_end⟩ onward
    obtain ⟨t', first', start', _⟩ := runs'.first
    refine ⟨r' :: rules', all', w', .rule runs' later', rest, alike',
      (tailText_eq runs'.good first' start').trans (left_eq t' first'),
      .rule opens closes opens' closes' ⟨wide, wide'⟩ lines ?_ more⟩
    -- the text behind the rule in the new text
    have split' := later'.split.1
    rw [rest', tail_eq, place'] at split'
    rw [← List.append_cancel_right split']
    exact between.again

end FileRuns

end Parser

end RuleDesk
