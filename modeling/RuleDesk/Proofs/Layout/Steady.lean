import RuleDesk.Feature.Formatting
import RuleDesk.Proofs.Layout.Formatted
import RuleDesk.Proofs.Layout.Overflow

namespace RuleDesk

/-! ## A text that is laid out stays as it is

Each rule of the laid out text has the lines of the rule that it comes of, and each text between
two rules adds the lines that were there. So the second time the same lines are put together. -/

open RuleDesk.Parser

namespace Format

variable {o : FormatOptions} {source out : List Char}

/-- The lines of a rule. -/
def ruleLines (o : FormatOptions) (source : List Char) (r : Rule) (lbrace rbrace : Span) : Lines :=
  [headLine source r, ['\x7b']] ++ block o (foreword source r lbrace rbrace) 1 ++
    r.sections.flatMap (sectionLines o source) ++ [['\x7d']]

theorem rule_lines {r : Rule} {lbrace rbrace : Span} {lines : Lines}
    (h : rule o source r lbrace rbrace = .ok lines) :
    lines = ruleLines o source r lbrace rbrace := by
  rw [rule] at h
  split at h
  · cases h
  · cases h
    rfl

theorem rule_cases (o : FormatOptions) (source : List Char) (r : Rule) (lbrace rbrace : Span) :
    rule o source r lbrace rbrace = .ok (ruleLines o source r lbrace rbrace) ∨
      rule o source r lbrace rbrace = .error .columnOverflow := by
  rw [rule]
  split
  · exact .inr rfl
  · exact .inl rfl

/-- Rules with the same lines. -/
theorem ruleLines_again {r r' : Rule} {lbrace rbrace lbrace' rbrace' : Span}
    (h : LinesAlike o source out r r' lbrace rbrace lbrace' rbrace') :
    ruleLines o out r' lbrace' rbrace' = ruleLines o source r lbrace rbrace := by
  have sections : r'.sections.map (sectionLines o out) = r.sections.map (sectionLines o source) :=
    (map_eq_of_forall₂ h.sections fun _ _ known => by
      rw [sectionLines, sectionLines, known.kind, known.lines]).symm
  rw [ruleLines, ruleLines, h.head, h.front, List.flatMap_def, List.flatMap_def,
    sections]

/-- The rules of the laid out text are laid out behind the same lines as before. -/
theorem rules_again {rs rs' : List Rule} (alike : RulesAlike o source out rs rs')
    {lines lines₁ : Lines} {done done' done₁ : Nat}
    (h : rules o source rs lines done = .ok (lines₁, done₁)) (behind : 0 < done ↔ 0 < done')
    (between : GapAlike (rs = []) (0 < done) (gapText source done rs) (gapText out done' rs')) :
    rules o out rs' lines done' = .error .columnOverflow ∨ ∃ lines₂ done₂,
      rules o out rs' lines done' = .ok (lines₂, done₂) ∧
      (gap lines₂ ((dropBytes? out done₂).getD []) (0 < done₂)).rdropWhile (·.isEmpty) =
        (gap lines₁ ((dropBytes? source done₁).getD []) (0 < done₁)).rdropWhile (·.isEmpty) := by
  -- the lines in front of the next rule are the same in both texts, so they are one variable
  induction alike generalizing lines done done' with
  | ended =>
    cases h
    refine .inr ⟨lines₁, done', rfl, ?_⟩
    rw [← decide_eq_decide.mpr behind]
    exact (between lines₁).elim (fun same => same ▸ rfl) And.right
  | @rule r r' rest rest' lbrace rbrace lbrace' rbrace' opens closes opens' closes' wide same
      later_between _ ih =>
    rw [rules_cons opens closes] at h
    rw [rules_cons opens' closes']
    cases laid : rule o source r lbrace rbrace with
    | error e =>
      rw [laid] at h
      cases h
    | ok inner =>
      rw [laid] at h
      rcases rule_cases o out r' lbrace' rbrace' with again | overflow
      · have gap_eq : gap lines (slice out ⟨done', r'.span.start⟩) (0 < done') =
            gap lines (slice source ⟨done, r.span.start⟩) (0 < done) := by
          rw [← decide_eq_decide.mpr behind]
          exact (between lines).elim id fun last => (List.cons_ne_nil _ _ last.1).elim
        rw [again, ruleLines_again same, ← rule_lines laid, Except.bind, gap_eq]
        refine ih h (iff_of_true wide.1 wide.2) ?_
        rw [decide_eq_true wide.1]
        exact later_between
      · exact .inl (by rw [overflow]; rfl)

/-! ### The newline at the end -/

/-- Behind the rules there are no lines, or the last one is a brace. -/
theorem rules_before {rs : List Rule} {lines lines₁ : Lines} {done done₁ : Nat}
    (h : rules o source rs lines done = .ok (lines₁, done₁))
    (closed : ∀ r ∈ rs, ∀ rbrace ∈ r.rbrace, 0 < rbrace.stop) (before : Before lines done) :
    Before lines₁ done₁ := by
  induction rs generalizing lines done with
  | nil =>
    cases h
    exact before
  | cons r rest ih =>
    obtain ⟨closed_here, closed⟩ := List.forall_mem_cons.mp closed
    obtain ⟨lbrace, rbrace, inner, _, closes, laid, h⟩ := rules_step h
    obtain ⟨brace, last⟩ := rule_last laid
    exact ih h closed (.inr ⟨closed_here _ closes, _, by rw [last, List.append_assoc]⟩)

theorem trim_ends (cs : List Char) : (trim cs).getLast? ≠ some '\n' := fun last =>
  Bool.noConfusion ((trim_trimmed cs).ends _ last)

/-- The line of a brace does not end in a newline, also with a text behind it. -/
theorem extendLast_ends (front : Lines) (text : List Char) :
    ∀ last ∈ (extendLast (front ++ [['}']]) (trim text)).getLast?, last.getLast? ≠ some '\n' := by
  intro last found
  rw [extendLast, List.getLast?_concat] at found
  split at found
  · rw [List.getLast?_concat] at found
    cases found
    decide
  · rename_i some_text
    dsimp only at found
    rw [List.getLast?_concat] at found
    cases found
    obtain ⟨c, cs, same⟩ := List.exists_cons_of_ne_nil (mt List.isEmpty_iff.mpr some_text)
    rw [List.getLast?_append_of_ne_nil _ (List.cons_ne_nil _ _), same,
      List.getLast?_cons_cons, ← same]
    exact trim_ends text

/-- The last line of a text does not end in a newline. -/
theorem gap_ends {lines : Lines} {done : Nat} (before : Before lines done) (text : List Char) :
    ∀ last ∈ ((gap lines text (0 < done)).rdropWhile (·.isEmpty)).getLast?,
      last.getLast? ≠ some '\n' := by
  obtain ⟨first, later, split, _⟩ := splitOn_lines text
  obtain ⟨n, same⟩ := gap_lines lines text first later split (0 < done)
  rw [same]
  have ends : ∀ {parts : Lines} {last : List Char},
      last ∈ (List.replicate n [] ++ gapLines parts : Lines).rdropWhile (·.isEmpty) →
        last.getLast? ≠ some '\n' := by
    intro parts last member
    rcases List.mem_append.mp ((List.rdropWhile_prefix _ _).subset member) with blank | added
    · rw [List.eq_of_mem_replicate blank]
      exact Option.some_ne_none _ ∘ Eq.symm
    · rcases mem_gapLines parts added with rfl | ⟨part, _, rfl⟩
      · exact Option.some_ne_none _ ∘ Eq.symm
      · exact trim_ends part
  rcases before with ⟨rfl, rfl⟩ | ⟨behind, front, rfl⟩
  · exact fun last found => ends (List.mem_of_getLast? found)
  · rw [decide_eq_true behind, if_pos rfl, if_pos rfl,
      rdropWhile_behind (extendLast_solid front (trim first))]
    intro last found
    rw [List.getLast?_append, Option.mem_def, Option.or_eq_some_iff] at found
    rcases found with added | ⟨_, brace⟩
    · exact ends (List.mem_of_getLast? added)
    · exact extendLast_ends front first last brace

/-- A text that is put together of lines ends as the last one does. -/
theorem joinLines_ends (front : Lines) {last : List Char} (some_text : last ≠ [])
    (ends : last.getLast? ≠ some '\n') : (joinLines (front ++ [last])).getLast? ≠ some '\n' := by
  have whole := joinLines_emit (List.append_ne_nil_of_right_ne_nil front (List.cons_ne_nil last []))
  rw [emit_append, emit_cons, emit_nil, List.append_nil] at whole
  intro newline
  refine ends ?_
  calc last.getLast?
    _ = (emit front ++ '\n' :: last).getLast? := by
      obtain ⟨c, cs, rfl⟩ := List.exists_cons_of_ne_nil some_text
      rw [List.getLast?_append_of_ne_nil _ (List.cons_ne_nil _ _), List.getLast?_cons_cons]
    _ = ('\n' :: joinLines (front ++ [last])).getLast? := by rw [whole]
    _ = some '\n' := by rw [List.getLast?_cons, newline]; rfl

/-- Blank lines at the end do not count. -/
theorem finish_congr {lines lines' : Lines}
    (same : lines'.rdropWhile (·.isEmpty) = lines.rdropWhile (·.isEmpty)) (newline : Bool) :
    finish lines' newline = finish lines newline := by
  rw [finish, finish, ← List.rdropWhile, ← List.rdropWhile, same]

/-- The lines of a text do not end in a newline, so whether there is one is seen of the text. -/
theorem finish_again {lines : Lines} (ends : ∀ last ∈ (lines.rdropWhile (·.isEmpty)).getLast?,
      last.getLast? ≠ some '\n') (wanted was : Bool) :
    finish lines (wanted || (finish lines (wanted || was)).getLast? == some '\n') =
      finish lines (wanted || was) := by
  have finish_eq : ∀ newline, finish lines newline =
      if newline && !(joinLines (lines.rdropWhile (·.isEmpty))).isEmpty then
        joinLines (lines.rdropWhile (·.isEmpty)) ++ ['\n']
      else joinLines (lines.rdropWhile (·.isEmpty)) := fun _ => rfl
  have solid := List.rdropWhile_last_not (fun line : List Char => line.isEmpty) lines
  have plain : (joinLines (lines.rdropWhile (·.isEmpty))).getLast? ≠ some '\n' := by
    generalize lines.rdropWhile (·.isEmpty) = kept at ends solid
    rcases List.eq_nil_or_concat kept with rfl | ⟨front, last, rfl⟩
    · exact Option.some_ne_none _ ∘ Eq.symm
    · rw [List.concat_eq_append] at ends solid ⊢
      have some_text := solid (List.append_ne_nil_of_right_ne_nil front (List.cons_ne_nil last []))
      rw [List.getLast_concat, List.isEmpty_iff] at some_text
      exact joinLines_ends front some_text (ends last List.getLast?_concat)
  generalize joinLines (lines.rdropWhile (·.isEmpty)) = text at finish_eq plain
  rw [finish_eq, finish_eq]
  cases wanted with
  | true => rfl
  | false =>
    cases was with
    | false => simp [plain]
    | true =>
      cases text with
      | nil => rfl
      | cons c cs =>
        have ends : (c :: (cs ++ ['\n'])).getLast? = some '\n' :=
          List.getLast?_concat (l := c :: cs)
        simp [ends]

end Format

/-- A text that is laid out is laid out as it is, if its columns can be counted. -/
theorem format_again {o : FormatOptions} {source out : List Char} (h : format o source = .ok out) :
    format o out = .ok out ∨ format o out = .error .columnOverflow := by
  obtain ⟨all, all', parsed, parsed', _, same_lines, between⟩ := format_relaid h
  obtain ⟨_, runs, _⟩ := parse_clean (format_clean h)
  have closed := runs.closed
  rw [parsed] at closed
  rw [format, parsed] at h
  rw [format, parsed']
  dsimp only at h closed ⊢
  cases laid : Format.rules o source all.rules [] 0 with
  | error e =>
    rw [laid] at h
    cases h
  | ok result =>
    obtain ⟨lines, done⟩ := result
    rw [laid] at h
    have written := Except.ok.inj h
    have ends := Format.gap_ends (Format.rules_before laid closed (.inl ⟨rfl, rfl⟩))
      ((dropBytes? source done).getD [])
    rcases Format.rules_again same_lines laid Iff.rfl between with overflow | ⟨_, _, again, same⟩
    · exact .inr (by rw [overflow]; rfl)
    · refine .inl ?_
      rw [again]
      refine congrArg Except.ok ?_
      dsimp only at written ⊢
      rw [Format.finish_congr same, ← written]
      exact Format.finish_again ends _ _

/-- A text that is laid out is laid out as it is, unless the columns of a line are too many to
count. That takes tabs wider than a request can ask for, or a text too long for the parser. -/
theorem format_formatted (o : FormatOptions) (source out : List Char)
    (h : format o source = .ok out) :
    format o out = .ok out ∨ format o out = .error .columnOverflow ∧
      (0x100000000 ≤ o.tabSize ∨ Span.maxOffset ≤ byteLength out) :=
  (format_again h).imp_right fun overflow => ⟨overflow, format_overflow overflow⟩

/-- With a comment in front of the sections, one behind the rule, and sections that start inside
of lines. -/
theorem format_formatted_spreadRule :
    format ⟨.spaces 2, 4, true⟩ crowdedRule = .ok spreadRule ∧
      format ⟨.spaces 2, 4, true⟩ spreadRule = .ok spreadRule := by
  have laid : format ⟨.spaces 2, 4, true⟩ crowdedRule = .ok spreadRule := by decide +kernel
  refine ⟨laid, (format_formatted _ _ _ laid).resolve_right ?_⟩
  rintro ⟨-, wide | long⟩
  · exact absurd wide (by decide)
  · exact absurd long (by decide +kernel)

/-- A rule with each line of its condition one blank further in, and what it is laid out as with
tabs. -/
def steppedRule : List Char :=
  "rule a \x7b\n condition:\n  true\n   or\n    true\n\x7d\n".toList

def tabbedRule : List Char :=
  "rule a\n\x7b\n\tcondition:\n\t\ttrue\n\t\t or\n\t\t  true\n\x7d\n".toList

/-- Two tabs of this size and two blanks have more columns than can be counted. -/
theorem format_tabbedRule_overflows :
    format ⟨.tabs, 0x7FFFFFFFFFFFFFFF, true⟩ steppedRule = .ok tabbedRule ∧
      format ⟨.tabs, 0x7FFFFFFFFFFFFFFF, true⟩ tabbedRule = .error .columnOverflow := by
  decide +kernel

/-! ### Requests -/

/-- There is no edit for a document that is laid out as its client wants it. -/
theorem Snapshot.formatting_steady {s : Snapshot} {uri : String} {x : DocumentIndex}
    (has : s.require uri = .ok x) (short : byteLength x.document.text < Span.maxOffset)
    {j : Json} {o : FormatOptions} (options : Lsp.formatOptions j = .ok o) {source : List Char}
    (laid : format o source = .ok x.document.text) : s.formatting uri o = .ok none := by
  have again : format o x.document.text = .ok x.document.text := by
    refine (format_again laid).resolve_right fun overflow => ?_
    have narrow := Lsp.formatOptions_narrow options
    rcases format_overflow overflow with wide | long <;> omega
  unfold formatting
  rw [has]
  dsimp only [bind, Except.bind]
  rw [again]
  dsimp only
  rw [if_pos rfl]
  rfl

end RuleDesk
