import Mathlib.Data.List.DropRight
import RuleDesk.Proofs.Layout.Relined

namespace RuleDesk

/-! ## The text that a text is laid out as

What stands between two rules, in front of the first section of a rule and in a section is laid
out anew. The keywords and braces in between stay, and the head of a rule is written anew if
there is no comment in it. -/

namespace Format

variable {o : FormatOptions} {source : List Char}

/-- True of a head with a comment in it. -/
def commented (head : List Char) : Bool :=
  containsInfix ['/', '/'] head || containsInfix ['/', '*'] head

/-- The line of the head of a rule. -/
def headLine (source : List Char) (r : Rule) : List Char :=
  if commented (trim (slice source r.headerSpan)) then trim (slice source r.headerSpan)
  else header r

/-- The head of a rule up to its brace: as it was, or its words with one blank between them. -/
inductive Headed (source : List Char) (r : Rule) : List Char → Prop
  | kept (comment : commented (trim (slice source r.headerSpan))) :
      Headed source r (trim (slice source r.headerSpan) ++ ['\n'])
  | written (plain : ¬ commented (trim (slice source r.headerSpan))) :
      Headed source r (header r ++ ['\n'])

/-- A text that is laid out anew as the lines of a block, and these as they are. -/
structure Blocked (o : FormatOptions) (level : Nat) (text text' : List Char) : Prop where
  spaced : Respaced False text text'
  again : block o text' level = block o text level

/-- A text behind a rule that is laid out anew, and then as it is. -/
structure Between (last : Prop) (text text' : List Char) : Prop where
  spaced : Respaced last text text'
  again : GapAlike last true text text'

/-- The sections of a rule, the brace that closes it, and what is behind. -/
inductive Inside (o : FormatOptions) (source back : List Char) : List RuleSection → List Char → Prop
  | close : Inside o source back [] ('}' :: back)
  | part {s : RuleSection} {sections : List RuleSection} {body rest : List Char}
      (laid : Blocked o 2 (slice source s.body) body)
      (later : Inside o source back sections rest) :
      Inside o source back (s :: sections) (s.kind.keyword.text.toList ++ ':' :: (body ++ rest))

/-- What stands between an offset and the next rule, or the end of the text. -/
def gapText (source : List Char) (done : Nat) : List Rule → List Char
  | [] => (dropBytes? source done).getD []
  | r :: _ => slice source ⟨done, r.span.start⟩

/-- The text from the head of the next rule on. -/
inductive Ahead (o : FormatOptions) (source : List Char) : List Rule → List Char → Prop
  | ended : Ahead o source [] []
  | rule {r : Rule} {rest : List Rule} {lbrace rbrace : Span}
      {head front inside close tail : List Char} (opens : r.lbrace = some lbrace)
      (closes : r.rbrace = some rbrace) (headed : Headed source r head)
      (laid : Blocked o 1 (foreword source r lbrace rbrace) front)
      (sections : Inside o source (close ++ tail) r.sections inside)
      (between : Between (rest = []) (gapText source rbrace.stop rest) close)
      (apart : Loose (close ++ tail)) (later : Ahead o source rest tail) :
      Ahead o source (r :: rest) (head ++ '{' :: (front ++ inside))

/-! ### Rules -/

/-- The lines of a section. -/
def sectionLines (o : FormatOptions) (source : List Char) (s : RuleSection) : Lines :=
  (indent o 1 ++ s.kind.keyword.text.toList ++ [':']) :: block o (slice source s.body) 2

/-- The text of a block in front of a word on a line of its own. -/
theorem block_blocked (text : List Char) (level : Nat) {w : List Char} (white : w.all isWhite)
    (blank : w.all isBlank) (plain : '\n' ∉ w) :
    Blocked o level text (emit (block o text level) ++ '\n' :: w) where
  spaced := block_respaced o text level (by rw [List.all_cons, white]; rfl) (.inl rfl)
  again := block_again o text level blank plain

theorem indent_plain (level : Nat) : '\n' ∉ indent o level := by
  unfold indent
  split <;> (intro newline; cases List.eq_of_mem_replicate newline)

theorem emit_sections (sections : List RuleSection) (back : List Char) : ∃ lead inside,
    emit (sections.flatMap (sectionLines o source)) ++ '\n' :: '}' :: back =
      '\n' :: lead ++ inside ∧
      lead.all isWhite ∧ lead.all isBlank ∧ '\n' ∉ lead ∧ Inside o source back sections inside := by
  induction sections with
  | nil => exact ⟨[], _, rfl, rfl, rfl, List.not_mem_nil, .close⟩
  | cons s sections ih =>
    obtain ⟨lead, inside, same, white, blank, plain, later⟩ := ih
    have laid := block_blocked (o := o) (slice source s.body) 2 white blank plain
    refine ⟨indent o 1, _, ?_, indent_white o 1, indent_blank 1, indent_plain 1, .part laid later⟩
    rw [List.flatMap_cons, sectionLines, List.cons_append, emit_cons, emit_append]
    simp only [List.append_assoc, List.cons_append, List.nil_append, same]

theorem emit_rule {r : Rule} {lbrace rbrace : Span} {lines : Lines}
    (h : rule o source r lbrace rbrace = .ok lines) (back : List Char) :
    ∃ head front inside, emit lines ++ back = '\n' :: (head ++ '{' :: (front ++ inside)) ∧
      Headed source r head ∧ Blocked o 1 (foreword source r lbrace rbrace) front ∧
        Inside o source back r.sections inside := by
  obtain ⟨lead, inside, same, white, blank, plain, sections⟩ :=
    emit_sections (o := o) r.sections back
  have laid := block_blocked (o := o) (foreword source r lbrace rbrace) 1 white blank plain
  rw [rule] at h
  split at h
  · cases h
  · have headed : Headed source r (headLine source r ++ ['\n']) := by
      rw [headLine]
      split
      · exact .kept ‹_›
      · exact .written ‹_›
    cases h
    refine ⟨_, _, inside, ?_, headed, laid, sections⟩
    have sections_same : (r.sections.flatMap fun s =>
        (indent o 1 ++ s.kind.keyword.text.toList ++ [':']) :: block o (slice source s.body) 2) =
        r.sections.flatMap (sectionLines o source) := rfl
    rw [sections_same, headLine, commented]
    simp only [emit_append, emit_cons, emit_nil, List.append_assoc, List.cons_append,
      List.nil_append, same]

/-- The last line of a rule is its brace. -/
theorem rule_last {r : Rule} {lbrace rbrace : Span} {lines : Lines}
    (h : rule o source r lbrace rbrace = .ok lines) :
    ∃ front, lines = front ++ [['}']] := by
  rw [rule] at h
  split at h
  · cases h
  · cases h
    exact ⟨_, rfl⟩

/-! ### The whole text -/

theorem emit_extendLast {lines : Lines} (some_line : lines ≠ []) (text : List Char) :
    emit (extendLast lines text) = emit lines ++ if text = [] then [] else ' ' :: text := by
  obtain ⟨front, last, rfl⟩ : ∃ front last, lines = front ++ [last] :=
    ⟨_, _, (List.dropLast_append_getLast some_line).symm⟩
  cases text with
  | nil => rw [extendLast, if_pos (by rfl), if_pos rfl, List.append_nil]
  | cons c text =>
    rw [extendLast, if_neg (by exact Bool.false_ne_true), List.getLast?_concat,
      if_neg (List.cons_ne_nil _ _)]
    simp only [List.dropLast_concat, emit_append, emit_cons, emit_nil, List.append_nil,
      List.append_assoc, List.cons_append]

theorem rdropWhile_behind {front : Lines} (solid : ∀ last ∈ front.getLast?, last ≠ [])
    (extra : Lines) :
    (front ++ extra).rdropWhile (·.isEmpty) = front ++ extra.rdropWhile (·.isEmpty) := by
  induction extra using List.reverseRecOn with
  | nil =>
    rw [List.append_nil, List.rdropWhile_nil, List.append_nil, List.rdropWhile_eq_self_iff]
    intro some_line blank
    exact solid _ (List.getLast?_eq_getLast_of_ne_nil some_line) (List.isEmpty_iff.mp blank)
  | append_singleton extra last ih =>
    rw [← List.append_assoc]
    by_cases blank : last.isEmpty
    · rw [List.rdropWhile_concat_pos _ _ _ blank, List.rdropWhile_concat_pos _ _ _ blank, ih]
    · rw [List.rdropWhile_concat_neg _ _ _ blank, List.rdropWhile_concat_neg _ _ _ blank,
        List.append_assoc]

theorem joinLines_emit {lines : Lines} (some_line : lines ≠ []) :
    '\n' :: joinLines lines = emit lines := by
  induction lines with
  | nil => exact (some_line rfl).elim
  | cons line lines ih =>
    cases lines with
    | nil => rw [joinLines, emit_cons, emit_nil, List.append_nil]
    | cons next lines =>
      exact congrArg (fun text => '\n' :: (line ++ text)) (ih (List.cons_ne_nil _ _))

/-- The lines before a gap: there are none, or the last one is the brace of a rule. -/
def Before (lines : Lines) (done : Nat) : Prop := done = 0 ∧ lines = [] ∨ 0 < done ∧
  ∃ front, lines = front ++ [['}']]

/-- The text of a gap is laid out anew, behind the lines before it. Where there are none, its
first newline is left out. -/
structure Regapped (last : Prop) (afterRule : Bool) (text text' : List Char) : Prop where
  spaced : Respaced last text text'
  starts : text'.head?.all isWhite
  again : GapAlike last afterRule text (if afterRule then text' else text'.drop 1)

section Regapped

variable {last : Prop} {kept : Lines} {n m k : Nat}

theorem newlines_white (k : Nat) : (List.replicate k '\n').all isWhite :=
  List.all_eq_true.mpr fun c member => by rw [List.eq_of_mem_replicate member]; rfl

theorem newlines_end (ends : m = 0 ∧ k = 1 ∨ last) :
    (List.replicate k '\n').head? = some '\n' ∨ List.replicate k '\n' = [] ∧ last := by
  rcases ends with ⟨_, rfl⟩ | last
  · exact .inl rfl
  · cases k with
    | zero => exact .inr ⟨rfl, last⟩
    | succ k => exact .inl rfl

theorem newlines_start (kept : Lines) (k : Nat) :
    (emit kept ++ List.replicate k '\n').head?.all isWhite := by
  cases kept with
  | nil => cases k <;> rfl
  | cons => rfl

/-- The lines that a gap adds have no newline, also where some blank ones are left out. -/
theorem kept_plain {parts : Lines} (plain : ∀ part ∈ parts, '\n' ∉ part)
    (lines : List.replicate n [] ++ gapLines parts = kept ++ List.replicate m []) (k : Nat) :
    ∀ line ∈ kept ++ List.replicate k [], '\n' ∉ line := by
  have none : ∀ {j : Nat} {line : List Char}, line ∈ List.replicate j [] → '\n' ∉ line :=
    fun member => List.eq_of_mem_replicate member ▸ List.not_mem_nil
  intro line member
  rcases List.mem_append.mp member with inside | blank
  · have whole : line ∈ List.replicate n [] ++ gapLines parts :=
      lines ▸ List.mem_append_left _ inside
    exact (List.mem_append.mp whole).elim none (gapLines_plain parts plain line)
  · exact none blank

/-- The lines of a text that starts behind its first newline, or is none. -/
theorem gapLines_drop {lines : Lines} (plain : ∀ line ∈ lines, '\n' ∉ line) :
    gapLines (((emit lines).drop 1).splitOn '\n') = gapLines lines := by
  cases lines with
  | nil => exact gapLines_blank []
  | cons line lines => rw [emit_cons, List.drop_succ_cons, List.drop_zero, splitOn_emit plain]

theorem regapped_front {text : List Char}
    (lines : List.replicate n [] ++ gapLines (text.splitOn '\n') = kept ++ List.replicate m [])
    (ends : m = 0 ∧ k = 1 ∨ last) :
    Regapped last false text (emit kept ++ List.replicate k '\n') := by
  obtain ⟨first, later, split, whole, plain⟩ := splitOn_lines text
  rw [split] at lines
  refine ⟨?_, newlines_start kept k, ?_⟩
  · have relined : Relined (first :: later) kept :=
      (lines ▸ (gapLines_relined (first :: later)).behind_blanks n).shorten m
    have laid := relined.reflowed (w := []) (v := []) (e := []) rfl rfl (.inl rfl) rfl
      (newlines_white k) (newlines_end ends)
    rw [List.append_nil] at laid
    -- the newline in front of the first line is none of the text
    rcases Reflowed.cons_cases laid with ⟨_, spaced, _⟩ | ⟨other, _⟩
    · exact whole ▸ spaced
    · exact (other rfl).elim
  · rw [if_neg Bool.false_ne_true, ← emit_replicate, ← emit_append]
    have alike := gapLines_alike (first :: later) lines ends
    rw [PartsAlike, ← gapLines_drop (kept_plain plain lines k)] at alike
    exact PartsAlike.front (split ▸ alike)

theorem regapped_behind {text first : List Char} {later : Lines}
    (split : text.splitOn '\n' = first :: later)
    (lines : List.replicate n [] ++ gapLines later = kept ++ List.replicate m [])
    (ends : m = 0 ∧ k = 1 ∨ last) :
    Regapped last true text ((if trim first = [] then [] else [' '] ++ trim first) ++
      (emit kept ++ List.replicate k '\n')) := by
  obtain ⟨_, _, split', whole, plain⟩ := splitOn_lines text
  cases split.symm.trans split'
  obtain ⟨plain_first, plain_later⟩ := List.forall_mem_cons.mp plain
  refine ⟨?_, ?_, ?_⟩
  · have relined : Relined later kept :=
      (lines ▸ (gapLines_relined later).behind_blanks n).shorten m
    exact whole ▸ respaced_lines _ relined rfl (newlines_white k) (newlines_end ends)
  · split
    · exact newlines_start kept k
    · rfl
  · rw [if_pos rfl, ← emit_replicate, ← emit_append]
    have lead : '\n' ∉ (if trim first = [] then [] else [' '] ++ trim first) := by
      split
      · exact List.not_mem_nil
      · rename_i some_text
        exact List.not_mem_cons_of_ne_of_not_mem (by decide)
          (Tight.trim plain_first some_text).plain
    refine (gapLines_alike later lines ends).behind split (splitOn_emit
      (List.forall_mem_cons.mpr ⟨lead, kept_plain plain_later lines k⟩)) ?_
    split
    · rename_i blank
      rw [blank]
      rfl
    · exact (trim_blank_append (by decide) _).trans (trim_trim first)

end Regapped

/-- The line of a brace is not blank, also with a text behind it. -/
theorem extendLast_solid (front : Lines) (text : List Char) :
    ∀ last ∈ (extendLast (front ++ [['}']]) text).getLast?, last ≠ [] := by
  intro last found blank
  rw [extendLast] at found
  split at found
  · rw [List.getLast?_concat] at found
    cases found
    cases blank
  · rw [List.getLast?_concat] at found
    dsimp only at found
    rw [List.getLast?_concat] at found
    cases found
    cases blank

/-- What stands between two rules is laid out anew, behind the lines before. -/
theorem gap_respaced {lines : Lines} {done : Nat} (before : Before lines done) (text : List Char) :
    ∃ front extra, gap lines text (0 < done) = front ++ extra ∧
      (∀ last ∈ front.getLast?, last ≠ []) ∧
      ∀ {last : Prop} {kept : Lines} {m k : Nat}, extra = kept ++ List.replicate m [] →
        (m = 0 ∧ k = 1 ∨ last) → ∃ g,
          emit (front ++ kept) ++ List.replicate k '\n' = emit lines ++ g ∧
            Regapped last (0 < done) text g := by
  obtain ⟨first, later, split, _⟩ := splitOn_lines text
  obtain ⟨n, same⟩ := gap_lines lines text first later split (0 < done)
  rcases before with ⟨rfl, rfl⟩ | ⟨behind, front, rfl⟩
  · exact ⟨[], _, same, nofun,
      fun lines ends => ⟨_, rfl, regapped_front (split ▸ lines) ends⟩⟩
  · rw [decide_eq_true behind, if_pos rfl, if_pos rfl] at same
    rw [decide_eq_true behind]
    refine ⟨_, _, same, extendLast_solid front (trim first),
      fun lines ends => ⟨_, ?_, regapped_behind split lines ends⟩⟩
    rw [emit_append, emit_extendLast (List.append_ne_nil_of_right_ne_nil _
      (List.cons_ne_nil _ _)), List.append_assoc, List.append_assoc]
    rfl

theorem rules_ahead {rs : List Rule} {lines lines' : Lines} {done done' : Nat}
    (h : rules o source rs lines done = .ok (lines', done'))
    (closed : ∀ r ∈ rs, ∀ rbrace ∈ r.rbrace, 0 < rbrace.stop) (before : Before lines done)
    (k : Nat) :
    ∃ g tail', emit ((gap lines' ((dropBytes? source done').getD []) (0 < done')).rdropWhile
      (·.isEmpty)) ++ List.replicate k '\n' = emit lines ++ (g ++ tail') ∧
      Regapped (rs = []) (0 < done) (gapText source done rs) g ∧ Loose (g ++ tail') ∧
        Ahead o source rs tail' := by
  induction rs generalizing lines done with
  | nil =>
    cases h
    obtain ⟨front, extra, same, solid, laid⟩ := gap_respaced before (gapText source done' [])
    rw [gapText] at same
    obtain ⟨n, split⟩ := rdropWhile_blank extra
    obtain ⟨g, text, laid⟩ := laid split (.inr (rfl : ([] : List Rule) = []))
    refine ⟨g, [], ?_, laid, ?_, .ended⟩
    · rw [same, rdropWhile_behind solid, text, List.append_nil]
    · rw [List.append_nil]
      cases g with
      | nil => exact .ended
      | cons c g => exact .white g laid.starts
  | cons r rest ih =>
    obtain ⟨closed_here, closed⟩ := List.forall_mem_cons.mp closed
    obtain ⟨lbrace, rbrace, inner, opens, closes, laid, h⟩ := rules_step h
    obtain ⟨brace, last⟩ := rule_last laid
    have wide := closed_here _ closes
    have behind :
      Before (gap lines (slice source ⟨done, r.span.start⟩) (0 < done) ++ inner) rbrace.stop :=
      .inr ⟨wide, _, by rw [last, List.append_assoc]⟩
    obtain ⟨close, tail, whole, between, apart, later⟩ := ih h closed behind
    rw [decide_eq_true wide] at between
    obtain ⟨head, opening, inside, split, headed, foreword, sections⟩ :=
      emit_rule laid (close ++ tail)
    obtain ⟨front, extra, same, _, gapped⟩ :=
      gap_respaced before (slice source ⟨done, r.span.start⟩)
    obtain ⟨g, text, gapped⟩ :=
      @gapped (r :: rest = []) extra 0 1 (List.append_nil _).symm (.inl ⟨rfl, rfl⟩)
    refine ⟨g, head ++ '{' :: (opening ++ inside), ?_, gapped, ?_,
      .rule opens closes headed foreword sections ⟨between.spaced, between.again⟩ apart later⟩
    · rw [whole, emit_append, List.append_assoc, split, same, ← List.append_assoc, ← text]
      simp only [List.append_assoc, List.cons_append, List.nil_append, List.replicate_one]
    · cases g with
      | nil => exact (gapped.spaced.ne_nil (List.cons_ne_nil _ _) rfl).elim
      | cons c g => exact .white _ gapped.starts

/-- The start of a text. What stands there is laid out anew, or there are only blanks. -/
inductive Opening (ended : Prop) : List Char → List Char → Prop
  | laid {cs cs' : List Char} (spaced : Respaced ended cs cs') : Opening ended cs cs'
  | blank {cs cs' : List Char} (blank : cs.all isBlank) (white : cs'.all isWhite) :
      Opening ended cs cs'

theorem Opening.of_behind {ended : Prop} {cs cs' : List Char}
    (h : Respaced ended cs ('\n' :: cs')) : Opening ended cs cs' := by
  obtain ⟨w, v, rest, rest', rfl, text, blank, white, later⟩ := h
  cases v with
  | cons c v =>
    cases text
    exact .laid ⟨w, v, rest, rest', rfl, rfl, blank, (Bool.and_eq_true_iff.mp white).2, later⟩
  | nil =>
    generalize whole : rest' = whole' at later
    obtain rfl : rest' = '\n' :: cs' := text.symm
    cases later with
    | @last u v blank' white' =>
      subst whole
      exact .blank (by rw [List.all_append, blank, blank']; rfl) (Bool.and_eq_true_iff.mp white').2
    | same inside =>
      cases whole
      exact (inside rfl).elim
    | @edge u v more more' blank' broken white' starts later =>
      cases v with
      | nil => cases starts
      | cons c v =>
        cases whole
        exact .laid ⟨w ++ u, v, more, more', (List.append_assoc ..).symm,
          rfl, by rw [List.all_append, blank, blank']; rfl,
          (Bool.and_eq_true_iff.mp white').2, later⟩

/-- The lines of a text, with a newline in front, and the one at the end. -/
theorem emit_finish (lines : Lines) (finalNewline : Bool) :
    ∃ k, emit (lines.rdropWhile (·.isEmpty)) ++ List.replicate k '\n' =
      '\n' :: finish lines finalNewline := by
  rw [finish, show (lines.reverse.dropWhile (·.isEmpty)).reverse =
    lines.rdropWhile (·.isEmpty) from rfl]
  generalize lines.rdropWhile (·.isEmpty) = kept
  cases kept with
  | nil => exact ⟨1, by simp [joinLines]⟩
  | cons line kept =>
    rw [← joinLines_emit (List.cons_ne_nil _ _)]
    split
    · exact ⟨1, rfl⟩
    · exact ⟨0, List.append_nil _⟩

/-- What is written of a text: up to the first rule, and from there on. -/
theorem finish_ahead {rs : List Rule} {lines' : Lines} {done' : Nat}
    (h : rules o source rs [] 0 = .ok (lines', done'))
    (closed : ∀ r ∈ rs, ∀ rbrace ∈ r.rbrace, 0 < rbrace.stop) (finalNewline : Bool) :
    ∃ g tail', finish (gap lines' ((dropBytes? source done').getD []) (0 < done')) finalNewline =
      g ++ tail' ∧ Opening (rs = []) (gapText source 0 rs) g ∧
      GapAlike (rs = []) false (gapText source 0 rs) g ∧ Ahead o source rs tail' := by
  obtain ⟨k, whole⟩ :=
    emit_finish (gap lines' ((dropBytes? source done').getD []) (0 < done')) finalNewline
  generalize finish (gap lines' ((dropBytes? source done').getD []) (0 < done')) finalNewline =
    out at whole ⊢
  obtain ⟨g, tail', text, laid, _, ahead⟩ := rules_ahead h closed (.inl ⟨rfl, rfl⟩) k
  have split : '\n' :: out = g ++ tail' := whole.symm.trans text
  cases g with
  | nil =>
    cases ahead with
    | ended => cases split
    | rule => exact (laid.spaced.ne_nil (List.cons_ne_nil _ _) rfl).elim
  | cons c g =>
    cases split
    exact ⟨g, tail', rfl, .of_behind laid.spaced, laid.again, ahead⟩

end Format

/-- Only a text without errors is laid out. -/
theorem format_clean {o : FormatOptions} {source out : List Char} (h : format o source = .ok out) :
    (parse source).errors = [] := by
  rw [format] at h
  dsimp only at h
  split at h
  · cases h
  · assumption

/-- What is written of a text: up to the first rule, and from there on. -/
theorem format_ahead {o : FormatOptions} {source out : List Char} (h : format o source = .ok out)
    (closed : ∀ r ∈ (parse source).rules, ∀ rbrace ∈ r.rbrace, 0 < rbrace.stop) :
      ∃ g tail', out = g ++ tail' ∧
      Format.Opening ((parse source).rules = []) (Format.gapText source 0 (parse source).rules) g ∧
      Format.GapAlike ((parse source).rules = []) false
        (Format.gapText source 0 (parse source).rules) g ∧
        Format.Ahead o source (parse source).rules tail' := by
  rw [format] at h
  dsimp only at h
  split at h
  · cases h
  · cases laid : Format.rules o source (parse source).rules [] 0 with
    | error e =>
      rw [laid] at h
      cases h
    | ok result =>
      rw [laid] at h
      obtain ⟨lines', done'⟩ := result
      obtain ⟨g, tail', same, opening, alike, ahead⟩ :=
        Format.finish_ahead laid closed (o.finalNewline || source.getLast? == some '\n')
      refine ⟨g, tail', ?_, opening, alike, ahead⟩
      cases h
      exact same

end RuleDesk
