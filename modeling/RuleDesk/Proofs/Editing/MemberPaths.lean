import Mathlib.Data.List.Induction
import RuleDesk.Proofs.Editing.Completion

namespace RuleDesk

/-! ## How paths are written -/

/-- A text in which each bracket that opens is closed again. -/
inductive Balanced : List Char → Prop
  | nil : Balanced []
  | char {c : Char} {cs : List Char} (opens : c ≠ '[') (closes : c ≠ ']') (later : Balanced cs) :
      Balanced (c :: cs)
  | pair {inner cs : List Char} (inside : Balanced inner) (later : Balanced cs) :
      Balanced ('[' :: inner ++ ']' :: cs)

/-- The names that members have: ASCII letters, digits and underscores, of
which the first is no digit. -/
structure IsMemberName (name : String) : Prop where
  nonempty : name.toList ≠ []
  chars : name.toList.all Completion.isWordChar
  start : Completion.startsWithDigit name.toList = false

namespace Path

/-- A path from a field on, with names that members can have. -/
structure IsNamed (p : Path) : Prop where
  rooted : ∃ name, p.head? = some (.field name)
  names : ∀ name, .field name ∈ p → IsMemberName name

/-- A path as it may be written: its fields with dots between them, and any
text with balanced brackets for the item of an array or a dictionary. -/
inductive Written : Path → List Char → Prop
  | root (name : String) : Written [.field name] name.toList
  | member {p : Path} {cs : List Char} (earlier : Written p cs) (name : String) :
      Written (p ++ [.field name]) (cs ++ '.' :: name.toList)
  | item {p : Path} {cs inner : List Char} (earlier : Written p cs) (inside : Balanced inner) :
      Written (p ++ [.index]) (cs ++ '[' :: inner ++ [']'])

theorem Written.ne_nil {p : Path} {cs : List Char} (h : Written p cs)
    (names : ∀ name, .field name ∈ p → IsMemberName name) : cs ≠ [] := by
  cases h with
  | root name => exact (names name List.mem_cons_self).nonempty
  | member earlier name => exact List.append_ne_nil_of_right_ne_nil _ (List.cons_ne_nil _ _)
  | item earlier inside => exact List.append_ne_nil_of_right_ne_nil _ (List.cons_ne_nil _ _)

theorem Written.length_le {p : Path} {cs : List Char} (h : Written p cs)
    (names : ∀ name, .field name ∈ p → IsMemberName name) :
    p.length ≤ cs.length := by
  induction h with
  | root name => exact List.length_pos_iff.mpr (names name List.mem_cons_self).nonempty
  | member earlier name ih =>
    have := ih fun name inside => names name (List.mem_append_left _ inside)
    simp only [List.length_append, List.length_cons, List.length_nil]
    omega
  | item earlier inside ih =>
    have := ih fun name inside => names name (List.mem_append_left _ inside)
    simp only [List.length_append, List.length_cons, List.length_nil]
    omega

theorem text_append_index (p : Path) : text (p ++ [.index]) = text p ++ "[]" := by
  rw [text, List.foldl_append]
  rfl

theorem text_append_field (p : Path) (name : String) :
    text (p ++ [.field name]) = if text p == "" then name else text p ++ "." ++ name := by
  rw [text, List.foldl_append]
  rfl

/-- The text of a path is one way to write it. -/
theorem written_text {p : Path} (h : p.IsNamed) : Written p p.text.toList := by
  obtain ⟨⟨root, rooted⟩, names⟩ := h
  induction p using List.reverseRecOn with
  | nil => exact absurd rooted (by simp)
  | append_singleton p s ih =>
    cases p with
    | nil =>
      obtain rfl : s = .field root := Option.some.inj rooted
      rw [text_append_field]
      exact .root root
    | cons first p =>
      have earlier := ih (fun name inside => names name (List.mem_append_left _ inside)) rooted
      cases s with
      | field name =>
        have nonempty : text (first :: p) ≠ "" := fun empty =>
          earlier.ne_nil (fun name inside => names name (List.mem_append_left _ inside))
            (empty ▸ rfl)
        have spelled : ("." ++ name).toList = '.' :: name.toList := String.toList_append
        rw [text_append_field, if_neg (by rwa [beq_iff_eq]), String.append_assoc,
          String.toList_append, spelled]
        exact .member earlier name
      | index =>
        have spelled : (text (first :: p)).toList ++ "[]".toList =
          (text (first :: p)).toList ++ ['['] ++ [']'] :=
          (List.append_assoc _ ['['] [']']).symm
        rw [text_append_index, String.toList_append, spelled]
        exact .item earlier .nil

end Path

namespace Completion

/-! ## Bracket pairs, read backwards -/

/-- The bracket pairs around some texts, in a row. -/
def bracketed (inners : List (List Char)) : List Char :=
  inners.flatMap fun inner => '[' :: inner ++ [']']

theorem bracketed_append (inners : List (List Char)) (inner : List Char) :
    (bracketed (inners ++ [inner])).reverse =
      ']' :: inner.reverse ++ '[' :: (bracketed inners).reverse := by
  simp [bracketed]

theorem length_le_bracketed (inners : List (List Char)) :
    inners.length ≤ (bracketed inners).length := by
  induction inners with
  | nil => exact Nat.le_refl 0
  | cons inner inners ih =>
    simp only [bracketed, List.flatMap_cons, List.length_append, List.length_cons] at ih ⊢
    omega

theorem openBracket?_close (depth : Nat) (rest : List Char) :
    openBracket? depth (']' :: rest) = openBracket? (depth + 1) rest := rfl

theorem openBracket?_open {depth : Nat} (h : 1 ≤ depth) (rest : List Char) :
    openBracket? (depth + 1) ('[' :: rest) = openBracket? depth rest := by
  have deeper : ¬depth + 1 ≤ 1 := by omega
  have other : ('[' == ']') = false := by decide
  simp only [openBracket?, other, deeper, beq_self_eq_true, Bool.false_eq_true, if_false, if_true,
    Nat.add_sub_cancel]

/-- What is balanced changes nothing about the bracket that is looked for. -/
theorem openBracket?_balanced {inner : List Char} (h : Balanced inner) {depth : Nat}
    (started : 1 ≤ depth) (rest : List Char) :
    openBracket? depth (inner.reverse ++ rest) = openBracket? depth rest := by
  induction h generalizing depth rest with
  | nil => rfl
  | @char c cs opens closes later ih =>
    rw [List.reverse_cons, List.append_assoc, ih started, List.singleton_append, openBracket?,
      if_neg (by rwa [beq_iff_eq]), if_neg (by rwa [beq_iff_eq])]
  | @pair inner cs inside later ihInside ihLater =>
    have reversed : ('[' :: inner ++ ']' :: cs).reverse ++ rest =
        cs.reverse ++ ']' :: (inner.reverse ++ '[' :: rest) := by simp
    rw [reversed, ihLater started, openBracket?_close, ihInside (Nat.le_add_left 1 depth),
      openBracket?_open started]

theorem openBracket?_pair {inner : List Char} (h : Balanced inner) (rest : List Char) :
    openBracket? 0 (']' :: inner.reverse ++ '[' :: rest) = some rest := by
  rw [List.cons_append, openBracket?_close, openBracket?_balanced h (Nat.le_refl 1)]
  rfl

theorem skipBrackets?_bracketed {inners : List (List Char)}
    (balanced : ∀ inner ∈ inners, Balanced inner) {rest : List Char}
    (ends : rest.head? ≠ some ']') {fuel : Nat} (enough : inners.length ≤ fuel) :
    skipBrackets? fuel ((bracketed inners).reverse ++ rest) = some (inners.length, rest) := by
  have stop : ∀ fuel, skipBrackets? fuel rest = some (0, rest)
    | 0 => rfl
    | _ + 1 => if_neg (by rwa [beq_iff_eq])
  induction inners using List.reverseRecOn generalizing fuel with
  | nil => exact stop fuel
  | append_singleton inners inner ih =>
    rw [List.length_append, List.length_singleton] at enough ⊢
    obtain ⟨fuel, rfl⟩ : ∃ less, fuel = less + 1 := ⟨fuel - 1, by omega⟩
    have earlier : skipBrackets? fuel ((bracketed inners).reverse ++ rest) =
      some (inners.length, rest) :=
      ih (fun inner inside => balanced inner (List.mem_append_left _ inside)) (by omega)
    have opened := openBracket?_pair (balanced inner (List.mem_append_right _ List.mem_cons_self))
      ((bracketed inners).reverse ++ rest)
    have closed : (bracketed (inners ++ [inner])).reverse ++ rest =
        ']' :: inner.reverse ++ '[' :: ((bracketed inners).reverse ++ rest) := by
      rw [bracketed_append, List.append_assoc]
      rfl
    rw [closed, skipBrackets?, opened]
    simp [earlier]

/-! ## Paths, read backwards -/

theorem splitWord_name {name : String} (h : IsMemberName name) {rest : List Char}
    (ends : ∀ c ∈ rest.head?, isWordChar c = false ∧ c.utf8Size = 1) :
    splitWord (name.toList.reverse ++ rest) = .ok (name.toList, rest) := by
  have chars : ∀ c ∈ name.toList.reverse, isWordChar c :=
    fun c inside => List.all_eq_true.mp h.chars c (List.mem_reverse.mp inside)
  rw [splitWord_eq, List.takeWhile_append_of_pos chars, List.dropWhile_append_of_pos chars]
  cases rest with
  | nil => simp
  | cons c rest =>
    obtain ⟨other, narrow⟩ := ends c rfl
    rw [List.dropWhile_cons_of_neg (by rw [other]; exact Bool.false_ne_true),
      List.takeWhile_cons_of_neg (by rw [other]; exact Bool.false_ne_true)]
    simp [narrow]

theorem ofChar?_mem {c : Char} {s : Sigil} (h : Sigil.ofChar? c = some s) :
    c ∈ ['$', '#', '@', '!'] := by
  unfold Sigil.ofChar? at h
  split at h
  · decide
  · decide
  · decide
  · decide
  · cases h

/-- What may stand in front of a path: a character that is no part of one and
no sigil. -/
def EndsBeforePath (front : List Char) : Prop :=
  ∀ c, front.getLast? = some c → c.toNat < 128 ∧ isWordChar c = false ∧
    c ∉ ['.', '$', '#', '@', '!']

section

variable {name : String} (named : IsMemberName name) {inners : List (List Char)}
    (balanced : ∀ inner ∈ inners, Balanced inner)

include named balanced

theorem skipBrackets?_name (rest : List Char) :
    skipBrackets? ((bracketed inners).reverse ++ (name.toList.reverse ++ rest)).length
      ((bracketed inners).reverse ++ (name.toList.reverse ++ rest)) =
      some (inners.length, name.toList.reverse ++ rest) := by
  refine skipBrackets?_bracketed balanced (fun closes => ?_) ?_
  · have last : name.toList.reverse.head? = some ']' := by
      rwa [List.head?_append, List.head?_eq_some_head (by simpa using named.nonempty),
        Option.some_or, ← List.head?_eq_some_head] at closes
    exact absurd (List.all_eq_true.mp named.chars ']'
      (List.mem_reverse.mp (List.mem_of_head? last))) (by decide)
  · rw [List.length_append, List.length_reverse]
    exact Nat.le_add_right_of_le (length_le_bracketed inners)

/-- One turn of the reader: the brackets at the end, the name before them and a dot. -/
theorem pathBackwards_member (earlier : List Char) (fuel : Nat) (after : Path) :
    pathBackwards (fuel + 1)
      ((bracketed inners).reverse ++ (name.toList.reverse ++ '.' :: earlier)) after =
      pathBackwards fuel earlier
        (.field name :: (List.replicate inners.length .index ++ after)) := by
  have ends : ∀ c ∈ ('.' :: earlier).head?, isWordChar c = false ∧ c.utf8Size = 1 := by
    rintro c ⟨⟩
    decide
  simp only [pathBackwards, skipBrackets?_name named balanced, splitWord_name named ends,
    List.isEmpty_eq_false_iff.mpr named.nonempty, named.start,
    Bool.or_self, Bool.false_eq_true, if_false, String.ofList_toList, Except.bind, bind, pure]

/-- The last turn: nothing of the path is in front of the name. -/
theorem pathBackwards_root {front : List Char} (h : EndsBeforePath front) (fuel : Nat)
    (after : Path) :
    pathBackwards (fuel + 1)
      ((bracketed inners).reverse ++ (name.toList.reverse ++ front.reverse)) after =
      .ok (some (.field name :: (List.replicate inners.length .index ++ after))) := by
  have ends : ∀ c ∈ front.reverse.head?, isWordChar c = false ∧ c.utf8Size = 1 := by
    intro c last
    obtain ⟨narrow, other, -⟩ := h c (List.head?_reverse ▸ last)
    exact ⟨other,
      Char.utf8Size_eq_one_iff.mpr (UInt32.le_iff_toNat_le.mpr (Nat.le_of_lt_succ narrow))⟩
  simp only [pathBackwards, skipBrackets?_name named balanced, splitWord_name named ends,
    List.isEmpty_eq_false_iff.mpr named.nonempty, named.start,
    Bool.or_self, Bool.false_eq_true, if_false, String.ofList_toList, Except.bind, bind, pure]
  cases back : front.reverse with
  | nil => rfl
  | cons c rest =>
    obtain ⟨-, -, sign⟩ := h c (by rw [← List.head?_reverse, back]; rfl)
    have plain : Sigil.ofChar? c = none := by
      cases found : Sigil.ofChar? c with
      | none => rfl
      | some s =>
        exact absurd (ofChar?_mem found) fun inside => sign (List.mem_cons_of_mem '.' inside)
    split
    next same => exact absurd ((List.cons.inj same).1 ▸ List.mem_cons_self) sign
    next same =>
      obtain ⟨rfl, rfl⟩ := List.cons.inj same
      rw [plain]
      rfl
    next same => cases same

end

/-- A written path is read back, with any brackets `inners` still to be read behind it. -/
theorem pathBackwards_written {p : Path} {cs : List Char} (written : p.Written cs)
    (names : ∀ name, .field name ∈ p → IsMemberName name)
    {front : List Char} (h : EndsBeforePath front) (inners : List (List Char))
    (balanced : ∀ inner ∈ inners, Balanced inner) (fuel : Nat)
    (enough : p.length < fuel) (after : Path) :
    pathBackwards fuel ((bracketed inners).reverse ++ (front ++ cs).reverse) after =
      .ok (some (p ++ (List.replicate inners.length .index ++ after))) := by
  induction written generalizing inners fuel after with
  | root name =>
    obtain ⟨fuel, rfl⟩ : ∃ less, fuel = less + 1 := ⟨fuel - 1, by omega⟩
    rw [List.reverse_append]
    exact pathBackwards_root (names name List.mem_cons_self) balanced h fuel after
  | @member p cs earlier name ih =>
    rw [List.length_append, List.length_singleton] at enough
    obtain ⟨fuel, rfl⟩ : ∃ less, fuel = less + 1 := ⟨fuel - 1, by omega⟩
    have named := names name (List.mem_append_right _ List.mem_cons_self)
    have whole : (front ++ (cs ++ '.' :: name.toList)).reverse =
        name.toList.reverse ++ '.' :: (front ++ cs).reverse := by simp
    have read :=
      ih (fun name inside => names name (List.mem_append_left _ inside)) [] nofun fuel (by omega)
      (.field name :: (List.replicate inners.length .index ++ after))
    rw [whole, pathBackwards_member named balanced]
    simpa [bracketed] using read
  | @item p cs inner earlier inside ih =>
    rw [List.length_append, List.length_singleton] at enough
    have whole : (bracketed inners).reverse ++ (front ++ (cs ++ '[' :: inner ++ [']'])).reverse =
        (bracketed (inner :: inners)).reverse ++ (front ++ cs).reverse := by simp [bracketed]
    have every : ∀ i ∈ inner :: inners, Balanced i := List.forall_mem_cons.mpr ⟨inside, balanced⟩
    have read := ih (fun name inside => names name (List.mem_append_left _ inside))
      (inner :: inners) every fuel (by omega) after
    rw [whole, read]
    simp [List.replicate_succ]

/-- Reading backwards finds the path that was written, whatever is in its
brackets, and so for the text of each path. -/
theorem pathBefore_written {p : Path} (h : p.IsNamed) :
    (∀ front cs, EndsBeforePath front → p.Written cs →
      pathBefore (front ++ cs).reverse = .ok (some p)) ∧
    pathBefore p.text.toList.reverse = .ok (some p) := by
  have reads : ∀ front cs, EndsBeforePath front → p.Written cs →
      pathBefore (front ++ cs).reverse = .ok (some p) := by
    intro front cs before written
    have enough : p.length < (front ++ cs).reverse.length + 1 := by
      have := written.length_le h.names
      rw [List.length_reverse, List.length_append]
      omega
    have read := pathBackwards_written written h.names before [] nofun _ enough []
    simpa [bracketed, pathBefore] using read
  exact ⟨reads, reads [] _ nofun (Path.written_text h)⟩

/-- Brackets in brackets and one pair behind another, with an operator in front. -/
theorem pathBefore_written_nested :
    Path.IsNamed [.field "pe", .field "sections", .index, .index, .field "name"] ∧
    pathBefore "not pe.sections[a[é] + 1][].name".toList.reverse =
      .ok (some [.field "pe", .field "sections", .index, .index, .field "name"]) := by
  have named : Path.IsNamed [.field "pe", .field "sections", .index, .index, .field "name"] := by
    refine ⟨⟨"pe", rfl⟩, fun name inside => ?_⟩
    simp only [List.mem_cons, Segment.field.injEq, List.not_mem_nil, or_false, reduceCtorEq,
      false_or] at inside
    rcases inside with rfl | rfl | rfl <;> exact ⟨by decide, by decide, by decide⟩
  have inside : Balanced ("a".toList ++ ('[' :: "é".toList ++ ']' :: " + 1".toList)) :=
    .char (by decide) (by decide) (.pair (.char (by decide) (by decide) .nil)
      (.char (by decide) (by decide) (.char (by decide) (by decide)
        (.char (by decide) (by decide) (.char (by decide) (by decide) .nil)))))
  have written :=
    Path.Written.member (.item (.item (.member (.root "pe") "sections") inside) .nil) "name"
  have before : EndsBeforePath "not ".toList := by
    rintro c ⟨⟩
    decide
  exact ⟨named, (pathBefore_written named).1 "not ".toList _ before written⟩

end Completion

end RuleDesk
