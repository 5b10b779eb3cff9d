import RuleDesk.Proofs.Lexing.Spelling
import RuleDesk.Proofs.Parsing.Beside

namespace RuleDesk

/-! ## The parse of a text that is spelled anew -/

namespace Spelling

variable {p : Spelling} {text text' : List Char}

/-- How the identifiers of a text are seen in the one that is spelled anew. -/
def view (p : Spelling) : View :=
  ⟨p.offset, fun span name => String.ofList (p.spell span.start name.toList)⟩

theorem view_name (t : Token) : p.view.name t.span t.name = (p.token t).name := by
  show String.ofList (p.spell t.start (String.ofList t.text).toList) = _
  rw [String.toList_ofList]
  rfl

/-- One text becomes the other one, and all the places are those of tokens that
the parse of the first one reads without an error. -/
structure Fits (p : Spelling) (text text' : List Char) : Prop where
  clean : (finalState text).errors = []
  zero : p.offset 0 = 0
  texts : Respelled p 0 text text'
  read : ∀ m ∈ p.places, ∃ t ∈ (finalState text).read, t.start = m ∧ (∃ s, t.kind = .sigil s) ∧
      p.Names t.text

namespace Fits

variable (fits : p.Fits text text') {later earlier : List Token} {t : Token}

include fits

/-- A place is before, at or behind one of the tokens read. -/
theorem place (split : (finalState text).read = later ++ t :: earlier) {m : Nat}
    (member : m ∈ p.places) :
    m < stopOf earlier ∨ (m = t.start ∧ (∃ s, t.kind = .sigil s) ∧ p.Names t.text) ∨
      t.stop ≤ m := by
  obtain ⟨v, inside, rfl, named⟩ := fits.read m member
  have from_text := (finalState_tracked text).read
  rw [split] at inside from_text
  rcases List.mem_append.mp inside with behind | inside
  · exact .inr
      (.inr ((List.pairwise_append.mp from_text.ordered).2.2 v behind t (List.mem_cons_self ..)))
  rcases List.mem_cons.mp inside with rfl | before
  · exact .inr (.inl ⟨rfl, named⟩)
  · have before_t : ReadFrom text earlier := @ReadFrom.earlier _ _ [t] from_text.earlier
    refine .inl (Nat.lt_of_lt_of_le ?_ (before_t.stop_le v before))
    have nonempty := from_text.nonempty v (List.mem_append_right _ (List.mem_cons_of_mem _ before))
    exact Nat.lt_add_of_pos_right
      (Nat.lt_of_lt_of_le (List.length_pos_iff.mpr nonempty) (length_le_byteLength _))

theorem kind (split : (finalState text).read = later ++ t :: earlier) {c after : Cursor}
    (behind : c.Behind text earlier)
    (next : c.nextSolid? = some (t, after)) (here : t.start ∈ p.places) : (∃ s, t.kind = .sigil s) ∧
    p.Names t.text := by
  obtain ⟨start, _, _⟩ := Cursor.nextSolid?_place next
  rcases fits.place split here with before | ⟨_, named⟩ | after
  · exact absurd (Nat.lt_of_lt_of_le before (behind.stop ▸ start)) (Nat.lt_irrefl _)
  · exact named
  · have nonempty := List.length_pos_iff.mpr (Cursor.nextSolid?_nonempty next)
    have width := length_le_byteLength t.text
    exact absurd after
      (Nat.not_le_of_lt (Nat.lt_add_of_pos_right (Nat.lt_of_lt_of_le nonempty width)))

theorem clear (split : (finalState text).read = later ++ t :: earlier) {c after : Cursor}
    (behind : c.Behind text earlier)
    (next : c.nextSolid? = some (t, after)) : Cursor.Respelled.Clear p c t := by
  obtain ⟨start, _, _⟩ := Cursor.nextSolid?_place next
  refine ⟨fun m member => ?_, fun m member => ?_, fun here => (fits.kind split behind next here).2⟩
  · rcases fits.place split member with before | ⟨here, _⟩ | after
    · exact .inl (behind.stop ▸ before)
    · exact .inr (Nat.le_of_eq here.symm)
    · exact .inr (Nat.le_trans (Nat.le_add_right _ _) after)
  · rcases fits.place split member with before | ⟨here, _⟩ | after
    · exact .inl (Nat.le_trans (Nat.le_of_lt before) (behind.stop ▸ start))
    · exact .inl (Nat.le_of_eq here)
    · exact .inr after

theorem behind_all {m : Nat} (member : m ∈ p.places) : m < stopOf (finalState text).read := by
  obtain ⟨v, inside, rfl, _⟩ := fits.read m member
  have from_text := (finalState_tracked text).read
  have nonempty := List.length_pos_iff.mpr (from_text.nonempty v inside)
  exact Nat.lt_of_lt_of_le
    (Nat.lt_add_of_pos_right (Nat.lt_of_lt_of_le nonempty (length_le_byteLength _)))
    (from_text.stop_le v inside)

end Fits

theorem Fits.textStop (fits : p.Fits text text') {c c' : Cursor} (near : c.Respelled p c')
    (behind : c.Behind text (finalState text).read) :
    p.offset (c.offset + byteLength c.rest) = c'.offset + byteLength c'.rest := by
  have rest := near.rest
  rw [← List.append_nil c.rest] at rest
  obtain ⟨last, text, ends, offset⟩ :=
    rest.split fun m member => .inl (behind.stop ▸ fits.behind_all member)
  cases ends
  rw [offset, near.offset, text, List.append_nil]

/-- The next tokens of both texts are the same one but for its name. -/
theorem Fits.next (fits : p.Fits text text') {later earlier : List Token} {t : Token}
    {c c' after : Cursor}
    (read : (finalState text).read = later ++ t :: earlier) (near : c.Respelled p c')
    (behind : c.Behind text earlier)
    (next : c.nextSolid? = some (t, after)) : ∃ t' after', c'.nextSolid? = some (t', after') ∧
      t.Alike False p.view .same t' ∧
      (∀ u ∈ earlier.head?, u.kind.joins t.kind → (t.start = c.offset ↔ t'.start = c'.offset)) ∧
      ∀ mode, (after.enter mode).Respelled p (after'.enter mode) := by
  obtain ⟨after', found, rest, gap⟩ := near.nextSolid? next (fits.clear read behind next)
  have place := Cursor.nextSolid?_place next
  have stop : p.offset t.stop = (p.token t).stop := by
    rw [← place.2.1, rest.offset, (Cursor.nextSolid?_place found).2.1]
  refine ⟨p.token t, after', found, ⟨rfl, ?_, fun _ => view_name t, fun _ other => ?_⟩, fun _ _ _ =>
    ?_, rest.enter⟩
  · exact congrArg (Span.mk (p.offset t.start)) stop
  · refine (spell_other (fun here => other ?_) t.text).symm
    obtain ⟨⟨s, kind⟩, _⟩ := fits.kind read behind next here
    rw [kind]
    rfl
  · rw [← near.offset]
    show _ ↔ p.offset t.start = _
    have start := place.1
    omega

/-- The text stands beside the one that is spelled anew. -/
def Fits.beside (fits : p.Fits text text') : Beside text (finalState text) where
  left := p.view
  right := .same
  ends {a b c d} first second := by
    have first : p.offset a = c := first
    have second : p.offset b = d := second
    show p.offset (max a b) = max c d
    rcases Nat.le_total a b with le | le
    · rw [Nat.max_eq_right le, second, Nat.max_eq_right (first ▸ second ▸ p.ordered le)]
    · rw [Nat.max_eq_left le, first, Nat.max_eq_left (first ▸ second ▸ p.ordered le)]
  keeps := View.same_keepsNames
  unnamed span name := by
    have short : ∀ cs : List Char, cs.length ≤ 1 →
        (p.view.name span name = String.ofList cs ↔ name = String.ofList cs) := by
      intro cs few
      show String.ofList (p.spell span.start name.toList) = _ ↔ _
      rw [String.ofList_inj, spell_short _ few, ← String.ofList_inj, String.ofList_toList]
    exact ⟨short [] (Nat.zero_le 1), short ['$'] (Nat.le_refl 1)⟩
  clean := fits.clean
  tracked := finalState_tracked text
  compared _ := True
  plain _ := trivial
  near _ c c' := c.Respelled p c'
  here near := near.offset
  next read near behind next :=
    have ⟨t', after', found, alike, touching, rest⟩ := fits.next read near behind next
    ⟨t', after', found, alike, touching, fun _ mode _ => rest mode⟩
  ended near :=
    have behind := (finalState_tracked text).behind
    have none := finalState_nextSolid? text
    .text none (near.nextSolid?_none none fun _ member => behind.stop ▸ fits.behind_all member)
      (fits.textStop near behind)

end Spelling

/-! ### Names that are words -/

/-- A name that starts like a word and so with no sigil. -/
def Ident.IsWord (i : Ident) : Prop := i.name.toList.head?.any isWordStart

theorem Cursor.nextSolid?_word {c after : Cursor} {t : Token} (h : c.nextSolid? = some (t, after))
    (kind : t.kind = .ident) :
    t.text.head?.any isWordStart := by
  revert h
  refine nextSolid?_induct (motive := fun _ o => o = some (t, after) → t.text.head?.any isWordStart)
    ?_ ?_ ?_ c
  · exact fun _ _ none => nomatch none
  · exact fun _ _ _ _ _ ih => ih
  · rintro c _ _ read _ ⟨⟩
    have nonempty := rest_ne_nil read
    have normal := next?_normal read (by rw [kind]; exact nofun)
    rw [next?_of_read (c := { c with mode := .normal }) nonempty rfl] at normal
    cases normal
    have word := @Lexeme.word?_of_normal c.rest
      (by rw [show (Lexeme.normal c.rest).kind = .ident from kind]; rfl)
    dsimp only
    cases text : c.rest with
    | nil => exact (nonempty text).elim
    | cons d rest =>
      rw [text] at word
      have start : isWordStart d := by
        by_contra other
        rw [Lexeme.word?_none rest (Bool.eq_false_iff.mpr other)] at word
        cases word
      have size := (@Mode.read_fits .normal (d :: rest) (List.cons_ne_nil _ _)).1
      obtain ⟨n, count⟩ : ∃ n, (Lexeme.normal (d :: rest)).size = n + 1 :=
        Nat.exists_eq_add_one.mpr size
      rw [count, List.take_succ_cons]
      exact start

theorem Spelling.spell_word {p : Spelling} (place : Nat) {text : List Char}
    (word : text.head?.any isWordStart) :
    p.spell place text = text := by
  refine if_neg fun both => ?_
  obtain ⟨s, rfl⟩ := both.2.eq
  cases s <;> cases word

namespace Parser

/-- The names of the tags of a rule are words. -/
def WordTags (r : Rule) : Prop := ∀ i ∈ r.tags, i.IsWord

theorem tags_words : tags.Gives fun is => ∀ i ∈ is, i.IsWord := by
  have none : ∀ i ∈ ([] : List Ident), i.IsWord := fun _ none => (List.not_mem_nil none).elim
  have step : ∀ is : List Ident, (∀ i ∈ is, i.IsWord) → (tagStep is).Gives fun r => ∀ i ∈ r.value,
      i.IsWord := by
    intro is words
    have word : (eat .ident).Gives fun o => ∀ t ∈ o, (identOf t).IsWord := by
      intro s t read
      rw [Option.mem_def, run_eat] at read
      split at read
      · obtain ⟨after, ahead⟩ := ParseState.next?_eq_some read
        rename_i kind
        rw [ParseState.kindAhead?_of_next read] at kind
        show (String.ofList t.text).toList.head?.any isWordStart
        rw [String.toList_ofList]
        exact Cursor.nextSolid?_word (s.input.ahead_eq.symm.trans ahead) (Option.some.inj kind)
      · cases read
    refine word.after fun o read => ?_
    cases o with
    | none => exact .pure words
    | some t =>
      dsimp only
      split
      · exact .bind fun _ => .pure words
      · refine .pure fun i member => ?_
        rcases List.mem_append.mp member with old | last
        · exact words i old
        · exact List.mem_singleton.mp last ▸ read t rfl
  refine .bind fun o => ?_
  split
  · exact .iterate step none
  · exact .pure none

theorem ruleAfterKeyword_words (start : Nat) (flags : RuleFlags) :
    (ruleAfterKeyword start flags).Gives WordTags := by
  have head : (ruleHead flags).Gives WordTags :=
    .bind fun _ => tags_words.after fun is words => .bind fun _ => .pure words
  refine head.after fun r words => (Lockstep.ruleBody_grows r).after fun q grows s => ?_
  have same := (grows.trans (Lockstep.ruleEnd_grows start q s)).tags
  exact fun i member => words i (same ▸ member)

end Parser

theorem parse_wordTags (text : List Char) : ∀ r ∈ (parse text).rules, Parser.WordTags r :=
  parse_rules_give Parser.ruleAfterKeyword_words text

/-- The patterns of a rule that have different names are still spelled differently. -/
def Spelling.Distinct (p : Spelling) (r : Rule) : Prop :=
  ∀ a ∈ r.patterns, ∀ b ∈ r.patterns,
    p.spell a.ident.span.start a.ident.name.toList =
      p.spell b.ident.span.start b.ident.name.toList → a.ident.name = b.ident.name

/-- What a text says is the same when patterns are spelled anew, but for their names. -/
theorem Spelling.Fits.parse {p : Spelling} {text text' : List Char} (fits : p.Fits text text')
    (distinct : ∀ r ∈ (RuleDesk.parse text).rules, p.Distinct r) :
    RuleDesk.parse text' = (RuleDesk.parse text).rebase p.view ∧
      (RuleDesk.parse text').errors = [] := by
  have names : ∀ r ∈ (RuleDesk.parse text).rules, fits.beside.lockstep.distinctNames r := by
    refine fun r member => ⟨fun i first j second same => ?_, fun i first j second same => ?_⟩
    · have words := parse_wordTags text r member
      have same : String.ofList (p.spell i.span.start i.name.toList) =
          String.ofList (p.spell j.span.start j.name.toList) := same
      rw [spell_word _ (words i first), spell_word _ (words j second), String.ofList_toList,
        String.ofList_toList] at same
      exact same
    · obtain ⟨a, inside, rfl⟩ := List.mem_map.mp first
      obtain ⟨b, inside', rfl⟩ := List.mem_map.mp second
      exact distinct r member a inside b inside' (String.ofList_inj.mp same)
  have start : (Cursor.start text).Respelled p (Cursor.start text') := ⟨rfl, fits.zero, fits.texts⟩
  obtain ⟨errors, same⟩ := fits.beside.parse (fun _ => trivial) start names
  exact ⟨(SourceFile.rebase_same _).symm.trans same, errors⟩

end RuleDesk
