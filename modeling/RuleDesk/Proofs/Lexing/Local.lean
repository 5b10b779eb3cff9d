import RuleDesk.Proofs.Lexing.Break

namespace RuleDesk

/-! ## How far a token looks

A token is read by its own characters and by one or two behind it. Only a block
comment that is not closed in a hex pattern is looked for in all the rest. -/

/-- Texts that start with the same character, or both with one of a word. -/
inductive SameEdge : List Char → List Char → Prop
  | ended : SameEdge [] []
  | same (c : Char) (rest rest' : List Char) : SameEdge (c :: rest) (c :: rest')
  | word {c c' : Char} (rest rest' : List Char) (start : isWordStart c) (start' : isWordStart c') :
    SameEdge (c :: rest) (c' :: rest')

/-- Texts that are the same as far as a token in front of them can look. No
token looks past a sigil. -/
inductive Front : List Char → List Char → Prop
  | ended : Front [] []
  | sigil {c : Char} (rest rest' : List Char) (sigil : (Sigil.ofChar? c).isSome) :
      Front (c :: rest) (c :: rest')
  | char {c : Char} {rest rest' : List Char} (edge : SameEdge rest rest')
      (second : isWordPart c || c == '?' → rest.head? = rest'.head?) :
      Front (c :: rest) (c :: rest')

/-- What was read of a text with this front is not longer than the front. -/
def Within (front : List Char) (o : Option Lexeme) : Prop := ∀ l ∈ o, l.size ≤ front.length

/-- One way to read a text or else another one. The second one matters only if
the first one fails. -/
theorem either_same {P : Lexeme → Prop} {o o' p p' : Option Lexeme} (h : ∀ l ∈ o.or o', P l)
    (first : (∀ l ∈ o, P l) → p = o) (second : o = none → (∀ l ∈ o', P l) → p' = o') :
    p.or p' = o.or o' := by
  cases o with
  | none => rw [first nofun, Option.none_or, Option.none_or, second rfl h]
  | some l => rw [first h, Option.some_or, Option.some_or]

theorem SameEdge.any {rest rest' : List Char} (edge : SameEdge rest rest') (p : Char → Bool)
    {b : Bool} (words : ∀ c, isWordStart c → p c = b) : rest.head?.any p = rest'.head?.any p := by
  cases edge with
  | ended => rfl
  | same => rfl
  | word _ _ start start' => exact (words _ start).trans (words _ start').symm

theorem Front.edge {rest rest' : List Char} (front : Front rest rest') : SameEdge rest rest' := by
  cases front with
  | ended => exact .ended
  | sigil => exact .same ..
  | char => exact .same ..

theorem Front.head {rest rest' : List Char} (front : Front rest rest') :
    rest.head? = rest'.head? := by
  cases front <;> rfl

theorem Front.second {rest rest' : List Char} (front : Front rest rest') {c : Char}
    (head : rest.head? = some c)
    (part : isWordPart c || c == '?') : rest.tail.head? = rest'.tail.head? := by
  cases front with
  | ended => cases head
  | sigil rest rest' sigil =>
    cases head
    unfold Sigil.ofChar? at sigil
    split at sigil
    · exact absurd part (by decide)
    · exact absurd part (by decide)
    · exact absurd part (by decide)
    · exact absurd part (by decide)
    · cases sigil
  | char edge second =>
    cases head
    exact second part

theorem Front.tail {rest rest' : List Char} {c : Char} (edge : Front rest rest')
    (head : rest.head? = some c) (other : Sigil.ofChar? c = none) :
    SameEdge rest.tail rest'.tail := by
  cases edge with
  | ended => cases head
  | sigil _ _ sigil =>
    cases head
    rw [other] at sigil
    cases sigil
  | char edge => exact edge

theorem code_of_isWordStart {c : Char} (start : isWordStart c) :
    (97 ≤ c.toNat ∧ c.toNat ≤ 122 ∨ 65 ≤ c.toNat ∧ c.toNat ≤ 90) ∨ c.toNat = 95 := by
  simp only [isWordStart, isAsciiLetter, Bool.or_eq_true, Bool.and_eq_true, decide_eq_true_eq,
    beq_iff_eq, Char.le_def, UInt32.le_iff_toNat_le] at start
  exact start.imp_right (congrArg Char.toNat)

theorem isDigit_of_isWordStart {c : Char} (start : isWordStart c) : c.isDigit = false := by
  have code := code_of_isWordStart start
  have value : c.val.toNat = c.toNat := rfl
  have zero : '0'.val.toNat = 48 := rfl
  have nine : '9'.val.toNat = 57 := rfl
  simp only [Char.isDigit, Bool.and_eq_false_iff, decide_eq_false_iff_not, ge_iff_le,
    UInt32.le_iff_toNat_le]
  omega

theorem isBlank_of_isWordStart {c : Char} (start : isWordStart c) : isBlank c = false := by
  have code := code_of_isWordStart start
  simp only [isBlank, Bool.or_eq_false_iff, Bool.and_eq_false_iff, decide_eq_false_iff_not,
    beq_eq_false_iff_ne]
  omega

section Runs

variable {p : Char → Bool} {front rest rest' : List Char}

theorem runLength_eq_zero : runLength p rest = 0 ↔ rest.head?.any p = false := by
  cases rest with
  | nil => exact ⟨fun _ => rfl, fun _ => rfl⟩
  | cons c rest =>
    cases taken : p c with
    | true => simp [runLength, taken]
    | false => simp [runLength, taken]

/-- A run that ends in the front or right behind it. -/
theorem runLength_local (short : runLength p (front ++ rest) ≤ front.length)
    (head : rest.head?.any p = rest'.head?.any p) :
    runLength p (front ++ rest') = runLength p (front ++ rest) := by
  induction front with
  | nil =>
    have none : runLength p rest = 0 := Nat.le_zero.mp short
    exact (runLength_eq_zero.mpr (head ▸ runLength_eq_zero.mp none)).trans none.symm
  | cons c front ih =>
    simp only [List.cons_append, runLength] at short ⊢
    split at short
    · rw [if_pos ‹_›, if_pos ‹_›, ih (Nat.le_of_succ_le_succ short)]
    · rw [if_neg ‹_›, if_neg ‹_›]

/-- A backslash is looked past, since it may escape what follows it. -/
def SameEscape (rest rest' : List Char) : Prop :=
  rest.head? = some '\\' → rest.tail.head?.all (· == '\n') = rest'.tail.head?.all (· == '\n')

theorem Front.escape (front : Front rest rest') : SameEscape rest rest' := by
  cases front with
  | ended => exact nofun
  | sigil rest rest' sigil =>
    intro backslash
    cases backslash
    exact nomatch sigil
  | char edge second =>
    intro _
    cases edge with
    | ended => rfl
    | same => rfl
    | @word c c' _ _ start start' =>
      have other : ∀ c, isWordStart c → (c == '\n') = false := fun c start => by
        refine beq_eq_false_iff_ne.mpr ?_
        rintro rfl
        cases start
      exact (other c start).trans (other c' start').symm

theorem runLength_of_all (all : front.all p) (rest : List Char) :
    runLength p (front ++ rest) = front.length + runLength p rest := by
  induction front with
  | nil => exact (Nat.zero_add _).symm
  | cons c front ih =>
    obtain ⟨here, later⟩ := Bool.and_eq_true_iff.mp all
    rw [List.cons_append, runLength, if_pos here, ih later, List.length_cons]
    omega

theorem runLength_passes (long : front.length ≤ runLength p (front ++ rest)) : front.all p := by
  induction front with
  | nil => rfl
  | cons c front ih =>
    rw [List.cons_append, runLength] at long
    split at long
    · exact Bool.and_eq_true_iff.mpr ⟨‹_›, ih (Nat.le_of_succ_le_succ long)⟩
    · exact (Nat.not_succ_le_zero _ long).elim

theorem escapedRunLength_escape :
    escapedRunLength p ('\\' :: rest) = 0 ↔ rest.head?.all (· == '\n') = true := by
  cases rest with
  | nil => exact ⟨fun _ => rfl, fun _ => rfl⟩
  | cons c rest =>
    rw [escapedRunLength]
    split
    · rename_i newline
      exact ⟨fun _ => newline, fun _ => rfl⟩
    · rename_i other
      exact ⟨fun zero => (Nat.succ_ne_zero _ zero).elim, fun newline => (other newline).elim⟩

theorem escapedRunLength_local (short : escapedRunLength p (front ++ rest) ≤ front.length)
    (edge : SameEdge rest rest')
    (words : ∀ c, isWordStart c → p c = true) (escape : SameEscape rest rest') :
    escapedRunLength p (front ++ rest') = escapedRunLength p (front ++ rest) := by
  induction size : front.length using Nat.strongRecOn generalizing front with
  | _ size ih =>
    cases front with
    | nil =>
      have none : escapedRunLength p rest = 0 := Nat.le_zero.mp short
      rw [List.nil_append, List.nil_append, none]
      cases edge with
      | ended => exact none
      | same c rest rest' =>
        by_cases backslash : c = '\\'
        · subst backslash
          exact escapedRunLength_escape.mpr
            ((escape rfl).symm.trans (escapedRunLength_escape.mp none))
        · rw [escapedRunLength_plain _ backslash] at none ⊢
          split at none
          · cases none
          · rename_i refused
            rw [if_neg refused]
      | @word c c' rest rest' start start' =>
        have other : c ≠ '\\' := by rintro rfl; cases start
        rw [escapedRunLength_plain _ other, if_pos (words c start)] at none
        cases none
    | cons c front =>
      by_cases backslash : c = '\\'
      · subst backslash
        cases front with
        | nil =>
          have none : escapedRunLength p ('\\' :: rest) = 0 := by
            by_cases ends : rest.head?.all (· == '\n') = true
            · exact escapedRunLength_escape.mpr ends
            · cases rest with
              | nil => exact (ends rfl).elim
              | cons d rest =>
                have ends : ¬ (d == '\n') = true := ends
                rw [List.singleton_append, escapedRunLength, if_neg ends] at short
                exact absurd short (by simp)
          have none' : escapedRunLength p ('\\' :: rest') = 0 := by
            have ends := escapedRunLength_escape.mp none
            refine escapedRunLength_escape.mpr ?_
            cases edge with
            | ended => rfl
            | same => exact ends
            | word _ _ start =>
              obtain rfl := beq_iff_eq.mp ends
              cases start
          exact none'.trans none.symm
        | cons d front =>
          simp only [List.cons_append, escapedRunLength, List.length_cons] at short ⊢
          split
          · rfl
          · rename_i inside
            rw [if_neg inside] at short
            have shorter : front.length < ('\\' :: d :: front).length := by
              simp only [List.length_cons]; omega
            rw [ih front.length (size ▸ shorter) (Nat.le_of_add_le_add_right short) rfl]
      · rw [List.cons_append, escapedRunLength_plain _ backslash] at short ⊢
        rw [List.cons_append, escapedRunLength_plain _ backslash]
        split at short
        · rw [if_pos ‹_›, if_pos ‹_›,
            ih front.length (size ▸ Nat.lt_succ_self _) (Nat.le_of_succ_le_succ short) rfl]
        · rw [if_neg ‹_›, if_neg ‹_›]

end Runs

namespace Lexeme

variable {front rest rest' : List Char}

theorem word?_local (nonempty : front ≠ []) (edge : SameEdge rest rest')
    (h : Within front (word? (front ++ rest))) :
    word? (front ++ rest') = word? (front ++ rest) := by
  cases front with
  | nil => exact (nonempty rfl).elim
  | cons c front =>
    simp only [List.cons_append, word?] at h ⊢
    split
    · rename_i start
      rw [if_pos start] at h
      have short : runLength isWordPart (front ++ rest) ≤ front.length := by
        split at h
        · exact Nat.le_of_succ_le_succ (h _ rfl)
        · exact Nat.le_of_succ_le_succ (h _ rfl)
      have words : ∀ c, isWordStart c → isWordPart c = true := fun c start => by
        rw [isWordPart, start, Bool.true_or]
      rw [runLength_local short (edge.any _ words), List.take_append_of_le_length short,
        List.take_append_of_le_length short]
    · rfl

theorem sigil?_local (nonempty : front ≠ []) (edge : SameEdge rest rest')
    (h : Within front (sigil? (front ++ rest))) :
    sigil? (front ++ rest') = sigil? (front ++ rest) := by
  cases front with
  | nil => exact (nonempty rfl).elim
  | cons c front =>
    simp only [List.cons_append, sigil?] at h ⊢
    cases sigil : Sigil.ofChar? c with
    | none => rfl
    | some s =>
      rw [sigil] at h
      have short : runLength isWordPart (front ++ rest) ≤ front.length :=
        Nat.le_of_succ_le_succ (h _ rfl)
      have words : ∀ c, isWordStart c → isWordPart c = true := fun c start => by
        rw [isWordPart, start, Bool.true_or]
      rw [runLength_local short (edge.any _ words)]

/-- Symbols have one or two characters, and no word starts with any of them. -/
theorem symbol_texts :
    Symbol.table.all (fun entry => entry.2.length ≤ 2 && entry.2.all fun c => !isWordStart c) =
      true := by decide

theorem symbol?_local (nonempty : front ≠ []) (edge : SameEdge rest rest') :
    symbol? (front ++ rest') = symbol? (front ++ rest) := by
  unfold symbol?
  congr 1
  refine List.find?_congr fun entry member => ?_
  have texts := List.all_eq_true.mp symbol_texts entry member
  simp only [Bool.and_eq_true, decide_eq_true_eq, List.all_eq_true, Bool.not_eq_true'] at texts
  obtain ⟨short, other⟩ := texts
  generalize entry.2 = text at short other
  match front, text with
  | [], _ => exact (nonempty rfl).elim
  | _ :: _, [] => rfl
  | c :: _, [a] => simp only [List.cons_append, List.isPrefixOf]
  | c :: d :: front, [a, b] => simp only [List.cons_append, List.isPrefixOf]
  | [c], [a, b] =>
    have no_word : ∀ c, isWordStart c → (b == c) = false := fun c start => by
      refine beq_eq_false_iff_ne.mpr ?_
      rintro rfl
      rw [other b (List.mem_cons_of_mem _ (List.mem_singleton_self _))] at start
      cases start
    cases edge with
    | ended => rfl
    | same d rest rest' => simp only [List.cons_append, List.nil_append, List.isPrefixOf]
    | word rest rest' start start' =>
      simp only [List.cons_append, List.nil_append, List.isPrefixOf, no_word _ start,
        no_word _ start']
  | _ :: _, _ :: _ :: _ :: _ => simp at short

/-- What closes a literal is looked for behind its body. -/
theorem drop_head_local {n : Nat} {c : Char} (fits : n ≤ front.length) (edge : SameEdge rest rest')
    (other : isWordStart c = false) :
    ((front ++ rest').drop n).head? = some c ↔ ((front ++ rest).drop n).head? = some c := by
  rw [List.drop_append_of_le_length fits, List.drop_append_of_le_length fits]
  cases front.drop n with
  | cons d more => exact Iff.rfl
  | nil =>
    have no_word : ∀ {d}, isWordStart d → ¬ some d = some c := fun start same => by
      rw [Option.some.inj same, other] at start
      cases start
    cases edge with
    | ended => exact Iff.rfl
    | same => exact Iff.rfl
    | word _ _ start start' =>
      exact ⟨fun same => (no_word start' same).elim, fun same => (no_word start same).elim⟩

theorem string?_quote (cs : List Char) : string? ('"' :: cs) =
    let body := escapedRunLength (fun c => c != '"' && c != '\n') cs
    if (cs.drop body).head? = some '"' then some ⟨.string, body + 2⟩
      else some ⟨.openString, body + 1⟩ := by
  simp only [string?]
  generalize cs.drop _ = ds
  cases ds with
  | nil => rfl
  | cons d ds =>
    by_cases quote : d = '"'
    · subst quote
      rfl
    · simp [quote]

theorem string?_other {c : Char} (cs : List Char) (other : c ≠ '"') : string? (c :: cs) = none := by
  unfold string?
  split
  · rename_i eq
    cases eq
    exact (other rfl).elim
  · rfl

theorem string?_local (nonempty : front ≠ []) (edge : SameEdge rest rest')
    (escape : SameEscape rest rest')
    (h : Within front (string? (front ++ rest))) :
    string? (front ++ rest') = string? (front ++ rest) := by
  cases front with
  | nil => exact (nonempty rfl).elim
  | cons c front =>
    by_cases quote : c = '"'
    · subst quote
      simp only [List.cons_append, string?_quote] at h ⊢
      have words : ∀ c, isWordStart c → (c != '"' && c != '\n') = true := fun c start => by
        refine Bool.and_eq_true_iff.mpr ⟨bne_iff_ne.mpr ?_, bne_iff_ne.mpr ?_⟩ <;> rintro rfl
          <;> cases start
      have short :
          escapedRunLength (fun c => c != '"' && c != '\n') (front ++ rest) ≤ front.length := by
        split at h
        · exact Nat.le_of_lt (Nat.le_of_succ_le_succ (h _ rfl))
        · exact Nat.le_of_succ_le_succ (h _ rfl)
      simp only [escapedRunLength_local short edge words escape,
        drop_head_local short edge (show isWordStart '"' = false from rfl)]
    · rw [List.cons_append, List.cons_append, string?_other _ quote, string?_other _ quote]

theorem closeComment?_pos {cs : List Char} {n : Nat} (closed : closeComment? cs = some n) :
    0 < n := by
  unfold closeComment? at closed
  split at closed
  · cases closed
    exact Nat.succ_pos _
  · obtain ⟨m, _, rfl⟩ := Option.map_eq_some_iff.mp closed
    exact Nat.succ_pos m
  · cases closed

/-- What closes a comment is found by the characters up to it. -/
theorem closeComment?_take {cs : List Char} {n : Nat} (closed : closeComment? cs = some n)
    (more : List Char) :
    closeComment? (cs.take n ++ more) = some n := by
  induction cs generalizing n with
  | nil => cases closed
  | cons c cs ih =>
    unfold closeComment? at closed
    split at closed
    · rename_i eq
      cases eq
      cases closed
      rfl
    · rename_i other eq
      cases eq
      obtain ⟨m, found, rfl⟩ := Option.map_eq_some_iff.mp closed
      rw [List.take_succ_cons, List.cons_append, closeComment?.eq_2, ih found, Option.map_some]
      intro tail star eq
      cases cs with
      | nil => cases found
      | cons d cs =>
        cases m with
        | zero => exact (Nat.lt_irrefl 0 (closeComment?_pos found)).elim
        | succ m =>
          cases eq
          exact other cs star rfl
    · rename_i eq
      cases eq

theorem closeComment?_local {n : Nat} (closed : closeComment? (front ++ rest) = some n)
    (fits : n ≤ front.length) :
    closeComment? (front ++ rest') = some n := by
  have same := closeComment?_take closed (front.drop n ++ rest')
  rwa [List.take_append_of_le_length fits, ← List.append_assoc, List.take_append_drop] at same

theorem closeHexComment?_plain {c : Char} (cs : List Char) (other : c ≠ '*') :
    closeHexComment? (c :: cs) = (closeHexComment? cs).map (· + 1) :=
  closeHexComment?.eq_4 _ _ (fun _ star => (other star).elim) (fun _ _ star => (other star).elim)
    fun star => (other star).elim

theorem closeHexComment?_take {cs : List Char} {n : Nat} (closed : closeHexComment? cs = some n)
    (more : List Char) :
    closeHexComment? (cs.take n ++ more) = some n := by
  fun_induction closeHexComment? cs generalizing n with
  | case1 rest => cases closed; rfl
  | case2 c rest other ih =>
    obtain ⟨m, found, rfl⟩ := Option.map_eq_some_iff.mp closed
    rw [List.take_succ_cons, List.take_succ_cons, List.cons_append, List.cons_append,
      closeHexComment?.eq_2 _ _ (by simpa using other), ih found, Option.map_some]
  | case3 => cases closed
  | case4 c rest _ pair single ih =>
    obtain ⟨m, found, rfl⟩ := Option.map_eq_some_iff.mp closed
    have other : c ≠ '*' := by
      rintro rfl
      cases rest with
      | nil => exact single rfl rfl
      | cons d rest => exact pair d rest rfl rfl
    rw [List.take_succ_cons, List.cons_append, closeHexComment?_plain _ other, ih found,
      Option.map_some]
  | case5 => cases closed

theorem closeHexComment?_local {n : Nat} (closed : closeHexComment? (front ++ rest) = some n)
    (fits : n ≤ front.length) :
    closeHexComment? (front ++ rest') = some n := by
  have same := closeHexComment?_take closed (front.drop n ++ rest')
  rwa [List.take_append_of_le_length fits, ← List.append_assoc, List.take_append_drop] at same

/-- The letters behind a regular expression. At most two of them are flags. -/
theorem flags_local (short : min 2 (runLength isAsciiLetter (front ++ rest)) ≤ front.length)
    (head : rest.head? = rest'.head?) :
    min 2 (runLength isAsciiLetter (front ++ rest')) =
      min 2 (runLength isAsciiLetter (front ++ rest)) := by
  by_cases inside : runLength isAsciiLetter (front ++ rest) ≤ front.length
  · rw [runLength_local inside (by rw [head])]
  · have two : 2 ≤ front.length := by omega
    have all : front.all isAsciiLetter := runLength_passes (Nat.le_of_lt (Nat.not_le.mp inside))
    have first := runLength_of_all all rest
    have second := runLength_of_all all rest'
    omega

theorem regexp?_eq (cs : List Char) : regexp? cs =
    let body := escapedRunLength (fun c => c != '/' && c != '\n') cs
    if body = 0 then none
    else if (cs.drop body).head? = some '/' then
      some ⟨.regexp, body + 2 + min 2 (runLength isAsciiLetter (cs.drop (body + 1)))⟩
    else some ⟨.openRegexp, body + 1⟩ := by
  simp only [regexp?, beq_iff_eq]
  split
  · rfl
  · rw [← List.drop_drop]
    generalize cs.drop _ = ds
    cases ds with
    | nil => rfl
    | cons d ds =>
      by_cases slash : d = '/'
      · subst slash
        rfl
      · simp [slash]

theorem newline?_local (nonempty : front ≠ []) (edge : SameEdge rest rest') :
    newline? (front ++ rest') = newline? (front ++ rest) := by
  match front with
  | [] => exact (nonempty rfl).elim
  | c :: d :: front =>
    by_cases carriage : c = '\r'
    · by_cases feed : d = '\n' <;> simp [newline?, carriage, feed]
    · by_cases feed : c = '\n' <;> simp [newline?, carriage, feed]
  | [c] =>
    by_cases carriage : c = '\r'
    · have no_feed : ∀ c, isWordStart c → c ≠ '\n' := by
        rintro c start rfl
        cases start
      cases edge with
      | ended => rfl
      | same d => by_cases feed : d = '\n' <;> simp [newline?, carriage, feed]
      | word _ _ start start' => simp [newline?, carriage, no_feed _ start, no_feed _ start']
    · by_cases feed : c = '\n' <;> simp [newline?, carriage, feed]

theorem blank?_local (edge : SameEdge rest rest') (h : Within front (blank? (front ++ rest))) :
    blank? (front ++ rest') = blank? (front ++ rest) := by
  have words : ∀ c, isWordStart c → (c == ' ' || c == '\t') = false := fun c start => by
    refine Bool.or_eq_false_iff.mpr ⟨beq_eq_false_iff_ne.mpr ?_, beq_eq_false_iff_ne.mpr ?_⟩
      <;> rintro rfl <;> cases start
  have short : runLength (fun c => c == ' ' || c == '\t') (front ++ rest) ≤ front.length := by
    unfold blank? at h
    dsimp only at h
    split at h
    · rename_i none
      rw [beq_iff_eq.mp none]
      exact Nat.zero_le _
    · exact h _ rfl
  simp only [blank?, runLength_local short (edge.any _ words)]

theorem unknown_local (edge : SameEdge rest rest')
    (h : (unknown (front ++ rest)).size ≤ front.length) :
    unknown (front ++ rest') = unknown (front ++ rest) := by
  have words : ∀ c, isWordStart c → (!isBlank c) = true := fun c start => by
    rw [isBlank_of_isWordStart start]; rfl
  have short : runLength (fun c => !isBlank c) (front ++ rest) ≤ front.length :=
    Nat.le_trans (Nat.le_max_right ..) h
  simp only [unknown, runLength_local short (edge.any _ words)]

theorem regexp?_local (edge : SameEdge rest rest') (escape : SameEscape rest rest')
    (plain : rest.head? = rest'.head? ∨ ∀ l ∈ regexp? (front ++ rest), l.kind ≠ .regexp)
    (h : ∀ l ∈ regexp? (front ++ rest), l.size ≤ front.length + 1) :
    regexp? (front ++ rest') = regexp? (front ++ rest) := by
  have words : ∀ c, isWordStart c → (c != '/' && c != '\n') = true := fun c start => by
    refine Bool.and_eq_true_iff.mpr ⟨bne_iff_ne.mpr ?_, bne_iff_ne.mpr ?_⟩ <;> rintro rfl
      <;> cases start
  have same := @escapedRunLength_local (fun c => c != '/' && c != '\n') front rest rest'
  simp only [regexp?_eq] at h plain ⊢
  generalize escapedRunLength (fun c => c != '/' && c != '\n') (front ++ rest) =
    body at h plain same ⊢
  by_cases none : body = 0
  · rw [same (none ▸ Nat.zero_le _) edge words escape, if_pos none, if_pos none]
  simp only [if_neg none] at h plain
  have short : body ≤ front.length := by
    split at h
    · have := h _ rfl
      dsimp only at this
      omega
    · exact Nat.le_of_succ_le_succ (h _ rfl)
  simp only [same short edge words escape, if_neg none,
    drop_head_local short edge (show isWordStart '/' = false from rfl)]
  split
  · rename_i closed
    rw [if_pos closed] at h plain
    have size : body + 2 + min 2 (runLength isAsciiLetter ((front ++ rest).drop (body + 1))) ≤
        front.length + 1 := h _ rfl
    have fits : body + 1 ≤ front.length := by omega
    have head := plain.resolve_right fun other => other _ rfl rfl
    rw [List.drop_append_of_le_length fits] at size ⊢
    rw [List.drop_append_of_le_length fits, flags_local (by rw [List.length_drop]; omega) head]
  · rfl

theorem slash?_eq (cs : List Char) : slash? ('/' :: cs) =
    if cs.head? = some '/' then some ⟨.comment, runLength (· != '\n') cs.tail + 2⟩
    else if cs.head? = some '*' then some
      (match closeComment? cs.tail with
      | some n => ⟨.comment, n + 2⟩
      | none => ⟨.unknown, cs.tail.length + 2⟩)
    else regexp? cs := by
  cases cs with
  | nil => rfl
  | cons c cs =>
    by_cases line : c = '/'
    · subst line
      rfl
    · by_cases block : c = '*'
      · subst block
        simp only [slash?, List.tail_cons]
        cases closeComment? cs <;> rfl
      · simp [slash?, line, block]

theorem slash?_other {c : Char} (cs : List Char) (other : c ≠ '/') : slash? (c :: cs) = none := by
  simp [slash?, other]

/-- Comments are read by what is within them. So is a regular expression, but
for the letters that may follow it. -/
theorem slash?_local (nonempty : front ≠ []) (edge : SameEdge rest rest')
    (escape : SameEscape rest rest')
    (plain : rest.head? = rest'.head? ∨ ∀ l ∈ slash? (front ++ rest), l.kind ≠ .regexp)
    (h : Within front (slash? (front ++ rest))) :
    slash? (front ++ rest') = slash? (front ++ rest) := by
  cases front with
  | nil => exact (nonempty rfl).elim
  | cons c front =>
    by_cases slash : c = '/'
    · subst slash
      rw [List.cons_append, slash?_eq] at h plain
      rw [List.cons_append, List.cons_append, slash?_eq, slash?_eq]
      have second : ∀ c, isWordStart c = false →
          ((front ++ rest').head? = some c ↔ (front ++ rest).head? = some c) := fun c other =>
        drop_head_local (Nat.zero_le _) edge other
      simp only [second '/' rfl, second '*' rfl]
      by_cases line : (front ++ rest).head? = some '/'
      · rw [if_pos line] at h ⊢
        rw [if_pos line]
        have size : runLength (· != '\n') (front ++ rest).tail + 2 ≤ front.length + 1 := h _ rfl
        cases front with
        | nil => simp at size
        | cons d front =>
          have words : ∀ c, isWordStart c → (c != '\n') = true := fun c start => by
            refine bne_iff_ne.mpr ?_
            rintro rfl
            cases start
          have short : runLength (· != '\n') (front ++ rest) ≤ front.length :=
            Nat.le_of_add_le_add_right size
          simp only [List.cons_append, List.tail_cons, runLength_local short (edge.any _ words)]
      · rw [if_neg line] at h plain ⊢
        rw [if_neg line]
        by_cases block : (front ++ rest).head? = some '*'
        · rw [if_pos block] at h ⊢
          rw [if_pos block]
          cases front with
          | nil =>
            have size := h _ rfl
            split at size <;> simp at size
          | cons d front =>
            simp only [List.cons_append, List.tail_cons] at h ⊢
            cases closed : closeComment? (front ++ rest) with
            | some n =>
              rw [closed] at h
              rw [closeComment?_local closed (Nat.le_of_add_le_add_right (h _ rfl))]
            | none =>
              rw [closed] at h
              have size : (front ++ rest).length + 2 ≤ front.length + 2 := h _ rfl
              have ended : rest = [] :=
                List.eq_nil_of_length_eq_zero (by rw [List.length_append] at size; omega)
              subst ended
              cases edge
              rw [closed]
        · rw [if_neg block] at h plain ⊢
          rw [if_neg block]
          exact regexp?_local edge escape plain fun l found => h l found
    · rw [List.cons_append, List.cons_append, slash?_other _ slash, slash?_other _ slash]

theorem prefixed?_zero (cs : List Char) : prefixed? ('0' :: cs) =
    if cs.head? = some 'x' then
      if runLength isHexDigit cs.tail == 0 then none
        else some ⟨.integer, runLength isHexDigit cs.tail + 2⟩
    else if cs.head? = some 'o' then
      if runLength isOctalDigit cs.tail == 0 then none
        else some ⟨.integer, runLength isOctalDigit cs.tail + 2⟩
    else none := by
  cases cs with
  | nil => rfl
  | cons c cs =>
    by_cases hex : c = 'x'
    · subst hex
      rfl
    · by_cases octal : c = 'o'
      · subst octal
        rfl
      · simp [prefixed?, hex, octal]

theorem prefixed?_other {c : Char} (cs : List Char) (other : c ≠ '0') :
    prefixed? (c :: cs) = none := by
  simp [prefixed?, other]

/-- The digits behind a base, of which there may be none. -/
theorem based_local {p : Char → Bool} {c : Char} (part : isWordPart c) (edge : Front rest rest')
    (head : (front ++ rest).head? = some c)
    (h : runLength p (front ++ rest).tail = 0 ∨
    runLength p (front ++ rest).tail + 2 ≤ front.length + 1) :
    runLength p (front ++ rest').tail = runLength p (front ++ rest).tail := by
  cases front with
  | cons d front =>
    simp only [List.cons_append, List.tail_cons, List.length_cons] at h ⊢
    exact runLength_local (by omega) (by rw [edge.head])
  | nil =>
    have none : runLength p rest.tail = 0 := h.resolve_right fun long => by simp at long
    rw [List.nil_append, List.nil_append, none]
    exact runLength_eq_zero.mpr
      (edge.second head (Bool.or_eq_true_iff.mpr (.inl part)) ▸ runLength_eq_zero.mp none)

theorem prefixed?_local (nonempty : front ≠ []) (edge : Front rest rest')
    (h : Within front (prefixed? (front ++ rest))) :
    prefixed? (front ++ rest') = prefixed? (front ++ rest) := by
  cases front with
  | nil => exact (nonempty rfl).elim
  | cons c front =>
    by_cases zero : c = '0'
    · subst zero
      rw [List.cons_append, prefixed?_zero] at h
      rw [List.cons_append, List.cons_append, prefixed?_zero, prefixed?_zero]
      have second : ∀ c, (front ++ rest').head? = some c ↔ (front ++ rest).head? = some c :=
        fun c => by
        rw [List.head?_append, List.head?_append, edge.head]
      simp only [second]
      split
      · rename_i head
        rw [if_pos head] at h
        rw [based_local (by decide) edge head]
        by_cases none : runLength isHexDigit (front ++ rest).tail == 0
        · exact .inl (beq_iff_eq.mp none)
        · rw [if_neg none] at h
          exact .inr (h _ rfl)
      · rename_i no_hex
        rw [if_neg no_hex] at h
        split
        · rename_i head
          rw [if_pos head] at h
          rw [based_local (by decide) edge head]
          by_cases none : runLength isOctalDigit (front ++ rest).tail == 0
          · exact .inl (beq_iff_eq.mp none)
          · rw [if_neg none] at h
            exact .inr (h _ rfl)
        · rfl
    · rw [List.cons_append, List.cons_append, prefixed?_other _ zero, prefixed?_other _ zero]

theorem afterDigits_eq (digits : Nat) (cs : List Char) : afterDigits digits cs =
    if cs.head? = some '.' then
      if runLength Char.isDigit cs.tail == 0 then ⟨.integer, digits⟩
        else ⟨.float, digits + 1 + runLength Char.isDigit cs.tail⟩
    else if (cs.head? = some 'K' ∨ cs.head? = some 'M') ∧
      cs.tail.head? = some 'B' then ⟨.integer, digits + 2⟩
    else ⟨.integer, digits⟩ := by
  unfold afterDigits
  split
  · rfl
  · rfl
  · rfl
  · rename_i no_point no_kilo no_mega
    cases cs with
    | nil => rfl
    | cons c cs =>
      have point : ¬ (c :: cs).head? = some '.' := by
        rintro head
        cases head
        exact no_point cs rfl
      have unit : ¬ (((c :: cs).head? = some 'K' ∨ (c :: cs).head? = some 'M') ∧
          (c :: cs).tail.head? = some 'B') := by
        rintro ⟨head, second⟩
        cases cs with
        | nil => cases second
        | cons d cs =>
          cases second
          rcases head with head | head
          · cases head
            exact no_kilo cs rfl
          · cases head
            exact no_mega cs rfl
      rw [if_neg point, if_neg unit]

theorem afterDigits_local {digits : Nat} (edge : Front rest rest')
    (h : (afterDigits digits (front ++ rest)).size ≤ digits + front.length) :
    afterDigits digits (front ++ rest') = afterDigits digits (front ++ rest) := by
  have head : (front ++ rest').head? = (front ++ rest).head? := by
    rw [List.head?_append, List.head?_append, edge.head]
  rw [afterDigits_eq] at h
  rw [afterDigits_eq, afterDigits_eq, head]
  split
  · rename_i point
    rw [if_pos point] at h
    have fraction : runLength Char.isDigit (front ++ rest').tail =
        runLength Char.isDigit (front ++ rest).tail := by
      cases front with
      | cons d front =>
        refine runLength_local ?_ (by rw [edge.head])
        split at h
        · rename_i none
          exact beq_iff_eq.mp none ▸ Nat.zero_le _
        · simp only [List.cons_append, List.tail_cons, List.length_cons] at h ⊢
          omega
      | nil =>
        have none : runLength Char.isDigit rest.tail = 0 := by
          split at h
          · rename_i none
            exact beq_iff_eq.mp none
          · simp only [List.length_nil] at h
            omega
        rw [List.nil_append, List.nil_append, none]
        exact runLength_eq_zero.mpr ((edge.tail point rfl).any _ (fun _ => isDigit_of_isWordStart) ▸
          runLength_eq_zero.mp none)
    rw [fraction]
  · have second : (front ++ rest).head? = some 'K' ∨ (front ++ rest).head? = some 'M' →
        (front ++ rest').tail.head? = (front ++ rest).tail.head? := by
      intro unit
      cases front with
      | cons d front => simp only [List.cons_append, List.tail_cons, List.head?_append, edge.head]
      | nil => rcases unit with unit | unit <;> exact (edge.second unit (by decide)).symm
    have same : (((front ++ rest).head? = some 'K' ∨ (front ++ rest).head? = some 'M') ∧
        (front ++ rest').tail.head? = some 'B') ↔
        (((front ++ rest).head? = some 'K' ∨ (front ++ rest).head? = some 'M') ∧
          (front ++ rest).tail.head? = some 'B') :=
      and_congr_right fun unit => by rw [second unit]
    simp only [same]

theorem number?_local (nonempty : front ≠ []) (edge : Front rest rest')
    (h : Within front (number? (front ++ rest))) :
    number? (front ++ rest') = number? (front ++ rest) := by
  refine either_same h (prefixed?_local nonempty edge) fun _ h => ?_
  have short : runLength Char.isDigit (front ++ rest) ≤ front.length := by
    dsimp only at h
    split at h
    · rename_i none
      rw [beq_iff_eq.mp none]
      exact Nat.zero_le _
    · exact Nat.le_trans (afterDigits_fits _ _).1 (h _ rfl)
  dsimp only at h ⊢
  rw [runLength_local short (by rw [edge.head])]
  split
  · rfl
  · rename_i some_digit
    rw [if_neg some_digit] at h
    have size := h _ rfl
    rw [List.drop_append_of_le_length short] at size ⊢
    rw [List.drop_append_of_le_length short, afterDigits_local edge]
    rw [List.length_drop]
    omega

/-! ### Tokens of normal mode -/

theorem normal_local (nonempty : front ≠ []) (edge : Front rest rest')
    (h : (normal (front ++ rest)).size ≤ front.length) :
    normal (front ++ rest') = normal (front ++ rest) := by
  refine Option.some.inj ?_
  have whole : Within front (some (normal (front ++ rest))) :=
    fun l found => Option.some.inj found ▸ h
  rw [normal_or] at whole
  rw [normal_or, normal_or]
  have seam := edge.edge
  refine either_same whole (word?_local nonempty seam) fun _ h =>
    either_same h (number?_local nonempty edge) fun _ h =>
    either_same h (fun _ => symbol?_local nonempty seam) fun _ h =>
      either_same h (sigil?_local nonempty seam) fun _ h =>
    either_same h (string?_local nonempty seam edge.escape) fun _ h =>
    either_same h (slash?_local nonempty seam edge.escape (.inl edge.head)) fun _ h =>
    either_same h (fun _ => newline?_local nonempty seam) fun _ h =>
      either_same h (blank?_local seam) fun _ h => ?_
  rw [unknown_local seam (h _ rfl)]

theorem number?_of_not_digit {c : Char} (other : c.isDigit = false) (cs : List Char) :
    number? (c :: cs) = none := by
  have none : runLength Char.isDigit (c :: cs) = 0 := runLength_eq_zero.mpr other
  have zero : c ≠ '0' := by
    rintro rfl
    cases other
  rw [number?, prefixed?_other _ zero, none]
  rfl

theorem isDigit_of_number? {c : Char} {cs : List Char} (h : number? (c :: cs) = none) :
    c.isDigit = false := by
  have digits := (Option.or_eq_none_iff.mp h).2
  dsimp only at digits
  split at digits
  · rename_i none
    exact runLength_eq_zero.mp (beq_iff_eq.mp none)
  · cases digits

/-- What is read as a symbol is one of the table. -/
theorem symbol?_of_normal {cs : List Char} {s : Symbol} (h : (normal cs).kind = .symbol s) :
    symbol? cs = some (normal cs) := by
  cases normal_readBy cs with
  | symbol read => exact read
  | word _ kind | number _ kind | sigil _ kind | string _ kind | slash _ kind | white _ kind
    | unknown kind => simp [h, Kind.isWord] at kind

/-- A symbol is spelled as the table says. -/
theorem text_of_symbol {cs : List Char} {s : Symbol} (h : (normal cs).kind = .symbol s) :
    (s, cs.take (normal cs).size) ∈ Symbol.table := by
  obtain ⟨entry, found, same⟩ := Option.map_eq_some_iff.mp (symbol?_of_normal h)
  rw [← same] at h ⊢
  cases h
  have prefixed : entry.2.isPrefixOf cs = true :=
    List.find?_some (p := fun entry : Symbol × List Char => entry.2.isPrefixOf cs) found
  have text : cs.take entry.2.length = entry.2 :=
    (List.prefix_iff_eq_take.mp (List.isPrefixOf_iff_prefix.mp prefixed)).symm
  show (entry.1, cs.take entry.2.length) ∈ Symbol.table
  rw [text]
  exact List.mem_of_find?_eq_some found

/-! ### Tokens of a hex pattern -/

theorem isHexByteChar_part {c : Char} (h : isHexByteChar c) : isWordPart c || c == '?' := by
  refine Bool.or_eq_true_iff.mpr
    ((Bool.or_eq_true_iff.mp h).imp_left fun digit => Bool.or_eq_true_iff.mpr ?_)
  simp only [isHexDigit, Bool.or_eq_true] at digit
  rcases digit with (digit | lower) | upper
  · exact .inr (isDecimalDigit_of_isDigit digit)
  · refine .inl (Bool.or_eq_true_iff.mpr (.inl (Bool.or_eq_true_iff.mpr (.inl ?_))))
    simp only [Bool.and_eq_true, decide_eq_true_eq] at lower ⊢
    exact ⟨lower.1, Char.le_trans lower.2 (by decide)⟩
  · refine .inl (Bool.or_eq_true_iff.mpr (.inl (Bool.or_eq_true_iff.mpr (.inr ?_))))
    simp only [Bool.and_eq_true, decide_eq_true_eq] at upper ⊢
    exact ⟨upper.1, Char.le_trans upper.2 (by decide)⟩

theorem hexByte?_plain {c : Char} (cs : List Char) (other : c ≠ '~') : hexByte? (c :: cs) =
    if isHexByteChar c && cs.head?.any isHexByteChar then some ⟨.hexByte, 2⟩ else none := by
  cases cs with
  | nil => simp [hexByte?]
  | cons d cs => simp [hexByte?, other]

theorem hexByte?_tilde (cs : List Char) : hexByte? ('~' :: cs) =
    if cs.head?.any isHexByteChar && cs.tail.head?.any isHexByteChar then some ⟨.hexByte, 3⟩
      else none := by
  match cs with
  | [] => rfl
  | [c] =>
    have none : hexByte? ['~', c] = if isHexByteChar '~' && isHexByteChar c then some ⟨.hexByte, 2⟩
        else none := rfl
    rw [none]
    simp [show isHexByteChar '~' = false from rfl]
  | c :: d :: cs => rfl

theorem hexByte?_local (nonempty : front ≠ []) (edge : Front rest rest')
    (h : Within front (hexByte? (front ++ rest))) :
    hexByte? (front ++ rest') = hexByte? (front ++ rest) := by
  cases front with
  | nil => exact (nonempty rfl).elim
  | cons c front =>
    have head : (front ++ rest').head? = (front ++ rest).head? := by
      rw [List.head?_append, List.head?_append, edge.head]
    by_cases tilde : c = '~'
    · subst tilde
      rw [List.cons_append, List.cons_append, hexByte?_tilde, hexByte?_tilde, head]
      have second : (front ++ rest).head?.any isHexByteChar →
          (front ++ rest').tail.head? = (front ++ rest).tail.head? := by
        intro first
        cases front with
        | cons d front => simp only [List.cons_append, List.tail_cons, List.head?_append, edge.head]
        | nil =>
          cases rest with
          | nil => cases first
          | cons d rest => exact (edge.second (c := d) rfl (isHexByteChar_part first)).symm
      cases first : (front ++ rest).head?.any isHexByteChar with
      | false => rfl
      | true => rw [second first]
    · rw [List.cons_append, List.cons_append, hexByte?_plain _ tilde, hexByte?_plain _ tilde, head]

theorem hexSymbol?_local (nonempty : front ≠ []) :
    hexSymbol? (front ++ rest') = hexSymbol? (front ++ rest) := by
  cases front with
  | nil => exact (nonempty rfl).elim
  | cons c front =>
    unfold hexSymbol?
    split <;> simp_all

theorem hexComment?_local (edge : Front rest rest')
    (unclosed : hexComment? (front ++ rest) = none → hexComment? (front ++ rest') = none)
    (h : Within front (hexComment? (front ++ rest))) :
    hexComment? (front ++ rest') = hexComment? (front ++ rest) := by
  cases found : hexComment? (front ++ rest) with
  | none => exact unclosed found
  | some l =>
    have size := h l found
    unfold hexComment? at found
    split at found
    · rename_i tail eq
      cases found
      match front with
      | [] => simp at size
      | [_] => simp at size
      | c :: d :: front =>
        cases eq
        have words : ∀ c, isWordStart c → (c != '\n') = true := fun c start => by
          refine bne_iff_ne.mpr ?_
          rintro rfl
          cases start
        have short : runLength (· != '\n') (front ++ rest) ≤ front.length :=
          Nat.le_of_add_le_add_right size
        exact congrArg (fun n => some (⟨.comment, n + 2⟩ : Lexeme))
          (runLength_local short (edge.edge.any _ words))
    · rename_i tail eq
      obtain ⟨n, closed, rfl⟩ := Option.map_eq_some_iff.mp found
      match front with
      | [] => simp at size
      | [_] => simp at size
      | c :: d :: front =>
        cases eq
        have closed' : closeHexComment? (front ++ rest') = some n :=
          closeHexComment?_local closed (Nat.le_of_add_le_add_right size)
        exact congrArg (Option.map fun n => (⟨.comment, n + 2⟩ : Lexeme)) closed'
    · cases found

theorem hex?_local (nonempty : front ≠ []) (edge : Front rest rest')
    (unclosed : hexComment? (front ++ rest) = none → hexComment? (front ++ rest') = none)
    (h : Within front (hex? (front ++ rest))) : hex? (front ++ rest') = hex? (front ++ rest) := by
  refine either_same h (hexByte?_local nonempty edge) fun _ h =>
    either_same h (fun _ => hexSymbol?_local nonempty) fun _ h =>
    either_same h (hexComment?_local edge unclosed) fun _ h =>
      either_same h (fun _ => newline?_local nonempty edge.edge) fun _ h =>
    blank?_local edge.edge h

theorem jumpInteger?_local (nonempty : front ≠ []) (edge : Front rest rest')
    (h : Within front (jumpInteger? (front ++ rest))) :
    jumpInteger? (front ++ rest') = jumpInteger? (front ++ rest) := by
  refine either_same h (prefixed?_local nonempty edge) fun _ h => ?_
  have short : runLength Char.isDigit (front ++ rest) ≤ front.length := by
    dsimp only at h
    split at h
    · rename_i none
      rw [beq_iff_eq.mp none]
      exact Nat.zero_le _
    · exact h _ rfl
  dsimp only
  rw [runLength_local short (by rw [edge.head])]

theorem jump?_local (nonempty : front ≠ []) (edge : Front rest rest')
    (h : Within front (jump? (front ++ rest))) :
    jump? (front ++ rest') = jump? (front ++ rest) := by
  have hyphen : jumpHyphen? (front ++ rest') = jumpHyphen? (front ++ rest) := by
    cases front with
    | nil => exact (nonempty rfl).elim
    | cons c front =>
      unfold jumpHyphen?
      split <;> simp_all
  refine either_same h (fun _ => hyphen) fun _ h => either_same h (jumpInteger?_local nonempty edge)
    fun _ h =>
    either_same h (fun _ => newline?_local nonempty edge.edge) fun _ h => blank?_local edge.edge h

end Lexeme

/-- A token is read by its own text and by what it can look at behind it. -/
theorem Mode.read_local (mode : Mode) {front rest rest' : List Char} (nonempty : front ≠ [])
    (edge : Front rest rest')
    (unclosed : Lexeme.hexComment? (front ++ rest) = none →
    Lexeme.hexComment? (front ++ rest') = none)
    (h : (mode.read (front ++ rest)).2.size ≤ front.length) :
    mode.read (front ++ rest') = mode.read (front ++ rest) := by
  have normal : (Lexeme.normal (front ++ rest)).size ≤ front.length →
    Lexeme.normal (front ++ rest') = Lexeme.normal (front ++ rest) :=
    Lexeme.normal_local nonempty edge
  have hex : Within front (Lexeme.hex? (front ++ rest)) →
    Lexeme.hex? (front ++ rest') = Lexeme.hex? (front ++ rest) :=
    Lexeme.hex?_local nonempty edge unclosed
  cases mode with
  | normal => exact congrArg (Prod.mk Mode.normal) (normal h)
  | hex =>
    simp only [read] at h ⊢
    cases found : Lexeme.hex? (front ++ rest) with
    | some l =>
      rw [found] at h hex
      rw [hex fun _ same => Option.some.inj same ▸ h]
    | none =>
      rw [found] at h hex
      rw [hex fun _ same => (Option.not_mem_none _ same).elim]
      exact congrArg (Prod.mk Mode.normal) (normal h)
  | jump =>
    have jump : Within front (Lexeme.jump? (front ++ rest)) →
      Lexeme.jump? (front ++ rest') = Lexeme.jump? (front ++ rest) :=
      Lexeme.jump?_local nonempty edge
    simp only [read] at h ⊢
    cases found : Lexeme.jump? (front ++ rest) with
    | some l =>
      rw [found] at h jump
      rw [jump fun _ same => Option.some.inj same ▸ h]
    | none =>
      rw [found] at h jump
      rw [jump fun _ same => (Option.not_mem_none _ same).elim]
      dsimp only at h ⊢
      cases found : Lexeme.hex? (front ++ rest) with
      | some l =>
        rw [found] at h hex
        rw [hex fun _ same => Option.some.inj same ▸ h]
      | none =>
        rw [found] at h hex
        rw [hex fun _ same => (Option.not_mem_none _ same).elim]
        exact congrArg (Prod.mk Mode.normal) (normal h)

end RuleDesk
