import Mathlib.Data.List.TakeWhile
import RuleDesk.Catalog.Builtin
import RuleDesk.Feature.Completion
import RuleDesk.Index.Visit
import RuleDesk.Proofs.Editing.LinePositions

namespace RuleDesk

/-! ## The words that completion looks back for

Completion reads the text before the cursor backwards, for the word at its end and for
the words of the path before a dot or a bracket. The byte behind the character before a
word is taken for the start of the word, so a longer character there has no slice. -/

namespace Lines

/-- A position becomes a place between two characters. -/
theorem offset?_boundary {text : List Char} {p : Position} {n : Nat} (h : offset? text p = some n) :
    ∃ before next, text = before ++ next ∧ n = byteLength before := by
  have inside : p.line < count text := by
    by_contra past
    rw [offset?_eq_none.mpr (Nat.le_of_not_lt past)] at h
    cases h
  obtain ⟨first, content, tail, line⟩ := exists_line.mpr inside
  have place : n = _ := Option.some.inj (h.symm.trans line.offset)
  obtain ⟨left, split⟩ := before_start content p.column
  refine ⟨first ++ before content p.column, left ++ tail, ?_, place⟩
  rw [line.split, List.append_assoc, ← List.append_assoc (before content p.column), split]

end Lines

namespace Completion

/-- The characters of the words. -/
def isWordChar (c : Char) : Bool := isWordStart c || c.isDigit

theorem isWordChar_one_byte {c : Char} (h : isWordChar c) : c.utf8Size = 1 := by
  refine Char.utf8Size_eq_one_iff.mpr ?_
  simp only [isWordChar, isWordStart, isAsciiLetter, Char.isDigit, Char.le_def, Bool.or_eq_true,
    Bool.and_eq_true, decide_eq_true_eq, beq_iff_eq] at h
  rcases h with ((⟨-, le⟩ | ⟨-, le⟩) | rfl) | ⟨-, le⟩
  · exact UInt32.le_trans le (by decide)
  · exact UInt32.le_trans le (by decide)
  · decide
  · exact UInt32.le_trans le (by decide)

/-- True of the start of a key: what stands behind the last bracket, if it is nothing yet, or
a quote and no other one, and no bracket. -/
def isKeyStart : List Char → Bool
  | [] => true
  | '"' :: key => key.all fun c => c != '"' && c != '[' && c != ']'
  | _ => false

/-- True of what stands between a word of a path and the cursor: the characters of words, dots,
and anything in brackets, of which the last one may be open and have the start of a key. The
number counts the brackets that are open already. -/
def isPathTail : Nat → List Char → Bool
  | depth, [] => depth == 0
  | 0, c :: rest =>
    if c == '[' then isKeyStart rest || isPathTail 1 rest
    else (isWordChar c || c == '.') && isPathTail 0 rest
  | depth + 1, c :: rest =>
    if c == '[' then isPathTail (depth + 2) rest
    else if c == ']' then isPathTail depth rest
    else isPathTail (depth + 1) rest

/-- True if a character of more than one byte stands right before a word of the path that ends
the text. The path may be the word at the end only, and words may be empty. -/
def cutsCharacter : List Char → Bool
  | [] => false
  | c :: later => (c.utf8Size != 1 && isPathTail 0 later) || cutsCharacter later

theorem isPathTail_word {word : List Char} (all : ∀ d ∈ word, isWordChar d) (tail : List Char) :
    isPathTail 0 (word ++ tail) = isPathTail 0 tail := by
  induction word with
  | nil => rfl
  | cons c word ih =>
    obtain ⟨part, all⟩ := List.forall_mem_cons.mp all
    have other : (c == '[') = false := beq_eq_false_iff_ne.mpr (by rintro rfl; cases part)
    rw [List.cons_append, isPathTail, other, part, ih all]
    rfl

theorem isPathTail_dot (tail : List Char) : isPathTail 0 ('.' :: tail) = isPathTail 0 tail := by
  rw [isPathTail]
  rfl

theorem isPathTail_key {inside : List Char} (start : isKeyStart inside) :
    isPathTail 0 ('[' :: inside) := by
  rw [isPathTail, start]
  rfl

theorem cutsCharacter_of_tail (front : List Char) {tail : List Char} {c : Char}
    (wide : c.utf8Size ≠ 1) (isTail : isPathTail 0 tail) : cutsCharacter (front ++ c :: tail) := by
  induction front with
  | nil =>
    rw [List.nil_append, cutsCharacter, isTail, bne_iff_ne.mpr wide]
    rfl
  | cons d front ih => exact Bool.or_eq_true_iff.mpr (.inr ih)

/-- What is before the places of a text, given backwards, where a word of the path at its end may
end. -/
def WordEnds (back rest : List Char) : Prop :=
  ∃ later, back = later ++ rest ∧ isPathTail 0 later.reverse

variable {back rest left : List Char}

theorem WordEnds.cursor : WordEnds back back := ⟨[], rfl, rfl⟩

/-- Behind a word and a dot. -/
theorem WordEnds.dot (h : WordEnds back rest) {word : List Char} (all : ∀ d ∈ word, isWordChar d)
    (split : rest = word ++ '.' :: left) : WordEnds back left := by
  obtain ⟨later, rfl, isTail⟩ := h
  refine ⟨later ++ (word ++ ['.']), by rw [split]; simp, ?_⟩
  rw [List.reverse_append, List.reverse_append, List.reverse_singleton, List.append_assoc,
    List.singleton_append, isPathTail_dot,
    isPathTail_word fun d member => all d (List.mem_reverse.mp member)]
  exact isTail

/-- Such a word, given backwards. -/
theorem WordEnds.cuts (h : WordEnds back rest) {word earlier : List Char} {c : Char}
    (split : rest = word ++ c :: earlier) (all : ∀ d ∈ word, isWordChar d)
    (wide : c.utf8Size ≠ 1) : cutsCharacter back.reverse := by
  obtain ⟨later, rfl, isTail⟩ := h
  have tail : isPathTail 0 (word.reverse ++ later.reverse) := by
    rw [isPathTail_word fun d member => all d (List.mem_reverse.mp member)]
    exact isTail
  have cut := cutsCharacter_of_tail earlier.reverse wide tail
  simpa [split] using cut

theorem splitWord_eq (back : List Char) : splitWord back = match back.dropWhile isWordChar with
    | [] => .ok ((back.takeWhile isWordChar).reverse, back.dropWhile isWordChar)
    | c :: _ =>
      if c.utf8Size = 1 then .ok ((back.takeWhile isWordChar).reverse, back.dropWhile isWordChar)
      else .error .insideCharacter :=
  rfl

variable (narrow : ¬ cutsCharacter back.reverse)

include narrow

theorem splitWord_ok (h : WordEnds back rest) :
    ∃ word left, splitWord rest = .ok (word, left) ∧ (∀ d ∈ word.reverse, isWordChar d) ∧
      rest = word.reverse ++ left := by
  have whole : rest = rest.takeWhile isWordChar ++ rest.dropWhile isWordChar :=
    List.takeWhile_append_dropWhile.symm
  have split : rest = (rest.takeWhile isWordChar).reverse.reverse ++ rest.dropWhile isWordChar := by
    rwa [List.reverse_reverse]
  have all : ∀ d ∈ rest.takeWhile isWordChar, isWordChar d := fun _ => List.mem_takeWhile_imp
  have all' : ∀ d ∈ (rest.takeWhile isWordChar).reverse.reverse, isWordChar d := by
    rwa [List.reverse_reverse]
  rw [splitWord_eq]
  cases found : rest.dropWhile isWordChar with
  | nil => exact ⟨_, _, rfl, all', found ▸ split⟩
  | cons c earlier =>
    by_cases wide : c.utf8Size = 1
    · exact ⟨_, _, if_pos wide, all', found ▸ split⟩
    · exact (narrow (h.cuts (found ▸ whole) all wide)).elim

omit narrow in
/-- The text from the bracket on that opens the one which ends a text leads from no bracket to as
many as are closed behind it. -/
theorem openBracket?_ends {depth : Nat} (closed : 0 < depth)
    (h : openBracket? depth back = some rest) :
    ∃ later, back = later ++ rest ∧
      ∀ tail, isPathTail depth tail → isPathTail 0 (later.reverse ++ tail) := by
  fun_induction openBracket? depth back with
  | case1 => cases h
  | case2 depth c back closes ih =>
    obtain ⟨later, rfl, leads⟩ := ih (Nat.succ_pos _) h
    obtain rfl := beq_iff_eq.mp closes
    refine ⟨']' :: later, rfl, fun tail isTail => ?_⟩
    rw [List.reverse_cons, List.append_assoc]
    exact leads _ (by rw [List.singleton_append, isPathTail]; exact isTail)
  | case3 depth c back _ opens last =>
    cases h
    obtain rfl := beq_iff_eq.mp opens
    obtain rfl : depth = 1 := by omega
    refine ⟨['['], rfl, fun tail isTail => ?_⟩
    rw [List.reverse_singleton, List.singleton_append, isPathTail, isTail]
    exact Bool.or_true _
  | case4 depth c back _ opens more ih =>
    obtain ⟨n, rfl⟩ : ∃ n, depth = n + 2 := ⟨depth - 2, by omega⟩
    obtain ⟨later, rfl, leads⟩ := ih (Nat.succ_pos _) h
    obtain rfl := beq_iff_eq.mp opens
    refine ⟨'[' :: later, rfl, fun tail isTail => ?_⟩
    rw [List.reverse_cons, List.append_assoc]
    exact leads _ (by rw [List.singleton_append, Nat.add_succ_sub_one, isPathTail]; exact isTail)
  | case5 depth c back other other' ih =>
    obtain ⟨n, rfl⟩ : ∃ n, depth = n + 1 := ⟨depth - 1, by omega⟩
    obtain ⟨later, rfl, leads⟩ := ih (Nat.succ_pos _) h
    refine ⟨c :: later, rfl, fun tail isTail => ?_⟩
    rw [List.reverse_cons, List.append_assoc]
    refine leads _ ?_
    rw [List.singleton_append, isPathTail, if_neg other', if_neg other]
    exact isTail

omit narrow in
/-- Before the brackets that end a text, the word of the path goes on. -/
theorem WordEnds.skipBrackets {fuel pairs : Nat} (h : WordEnds back rest)
    (skipped : skipBrackets? fuel rest = some (pairs, left)) : WordEnds back left := by
  induction fuel generalizing rest pairs with
  | zero =>
    cases skipped
    exact h
  | succ fuel ih =>
    unfold skipBrackets? at skipped
    split at skipped
    · rename_i closes
      obtain ⟨before, opened, skipped⟩ := Option.bind_eq_some_iff.mp skipped
      obtain ⟨⟨pairs, rest'⟩, more, same⟩ := Option.bind_eq_some_iff.mp skipped
      cases same
      refine ih ?_ more
      obtain ⟨later, rfl, isTail⟩ := h
      obtain ⟨inside, rfl⟩ := List.head?_eq_some_iff.mp (beq_iff_eq.mp closes)
      rw [openBracket?, if_pos (beq_self_eq_true _)] at opened
      obtain ⟨own, rfl, leads⟩ := openBracket?_ends Nat.one_pos opened
      refine ⟨later ++ ']' :: own, by simp, ?_⟩
      rw [List.reverse_append, List.reverse_cons, List.append_assoc]
      exact leads _ (by rw [List.singleton_append, isPathTail]; exact isTail)
    · cases skipped
      exact h

theorem pathBackwards_ok (fuel : Nat) (h : WordEnds back rest) (after : Path) :
    ∃ path?, pathBackwards fuel rest after = .ok path? := by
  induction fuel generalizing rest after with
  | zero => exact ⟨none, rfl⟩
  | succ fuel ih =>
    unfold pathBackwards
    split
    · exact ⟨none, rfl⟩
    rename_i pairs before skipped
    have ends := h.skipBrackets skipped
    obtain ⟨word, left, read, all, split⟩ := splitWord_ok narrow ends
    simp only [read, bind, Except.bind]
    split
    · exact ⟨none, rfl⟩
    split
    · exact ih (ends.dot all split) _
    · split <;> exact ⟨_, rfl⟩
    · exact ⟨_, rfl⟩

theorem pathBefore_ok (h : WordEnds back rest) : ∃ path?, pathBefore rest = .ok path? :=
  pathBackwards_ok narrow _ h []

variable (catalog : Catalog) (x : DocumentIndex) (offset : Nat)

theorem memberNode_ok (h : WordEnds back rest) :
    ∃ node?, memberNode catalog x offset rest = .ok node? := by
  obtain ⟨path?, found⟩ := pathBefore_ok narrow h
  exact ⟨_, by rw [memberNode, found]; rfl⟩

omit narrow in
/-- Before the bracket of a key that is being written, a word of a path may end. -/
theorem WordEnds.key {inside : List Char} (start : isKeyStart inside) :
    WordEnds (inside.reverse ++ '[' :: rest) rest :=
  ⟨inside.reverse ++ ['['], by simp, by simpa using isPathTail_key start⟩

theorem keyItems_ok : ∃ items?, keyItems catalog x offset back = .ok items? := by
  unfold keyItems
  dsimp only
  split
  · exact ⟨none, rfl⟩
  rename_i c before found
  have bracket : c = '[' := by
    have first := List.head?_dropWhile_not (· != '[') back
    rw [found] at first
    simpa using first
  have split : back = (back.takeWhile (· != '[')).reverse.reverse ++ '[' :: before := by
    rw [List.reverse_reverse, ← bracket, ← found, bracket, List.takeWhile_append_dropWhile]
  have unopened : ∀ d ∈ (back.takeWhile (· != '[')).reverse, d != '[' := fun d member =>
    List.mem_takeWhile_imp (p := (· != '[')) (List.mem_reverse.mp member)
  generalize (back.takeWhile (· != '[')).reverse = inside at split unopened
  have path : isKeyStart inside → ∃ path?, pathBefore before = .ok path? := fun start =>
    pathBefore_ok narrow (split ▸ .key start)
  split
  · exact ⟨none, rfl⟩
  rename_i quoted key
  have start : isKeyStart inside := by
    split at key
    · rfl
    · split at key
      · cases key
      · rename_i rest plain
        refine List.all_eq_true.mpr fun d member => ?_
        have opens := unopened d (List.mem_cons_of_mem _ member)
        have other := fun same => plain (List.any_eq_true.mpr ⟨d, member, same⟩)
        simpa [opens, not_or] using other
    · cases key
  obtain ⟨path?, path⟩ := path start
  simp only [path, bind, Except.bind]
  split <;> exact ⟨_, rfl⟩

theorem itemsAt_ok (s : Snapshot) (next : List Char) :
    ∃ items, itemsAt s catalog x offset back next = .ok items := by
  obtain ⟨keys?, keys⟩ := keyItems_ok narrow catalog x offset
  obtain ⟨word, left, read, all, split⟩ := splitWord_ok narrow .cursor
  simp only [itemsAt, keys, read, bind, Except.bind]
  split
  · exact ⟨_, rfl⟩
  split
  · obtain ⟨node?, node⟩ := memberNode_ok narrow catalog x offset (WordEnds.cursor.dot all split)
    simp only [node]
    exact ⟨_, rfl⟩
  · split
    · exact ⟨_, rfl⟩
    · split <;> exact ⟨_, rfl⟩

end Completion

/-- Completion answers at every position of a document, with a list if the line of the position
exists, unless a character of more than one byte stands right before a word of the path that
ends there. -/
theorem Snapshot.completion_answers {s : Snapshot} {uri : String} {x : DocumentIndex}
    (has : s.require uri = .ok x) (catalog : Catalog)
    {p : Position} (narrow : ∀ before ∈ (x.document.offset? p).bind (takeBytes? x.document.text),
    ¬ Completion.cutsCharacter before) :
    ∃ items?, s.completion catalog uri p = .ok items? ∧
      (items?.isSome ↔ p.line < Lines.count x.document.text) := by
  rw [completion, has]
  cases found : x.document.offset? p with
  | none =>
    refine ⟨none, ?_, iff_of_false nofun (Nat.not_lt.mpr (Lines.offset?_eq_none.mp found))⟩
    simp only [bind, Except.bind, found]
    rfl
  | some offset =>
    obtain ⟨before, next, text, rfl⟩ := Lines.offset?_boundary found
    have inside : p.line < Lines.count x.document.text := by
      by_contra past
      cases found.symm.trans (Lines.offset?_eq_none.mpr (Nat.le_of_not_lt past))
    have taken := takeBytes?_byteLength_append before next
    have dropped := dropBytes?_byteLength_append before next
    rw [← text] at taken dropped
    have narrow : ¬ Completion.cutsCharacter before.reverse.reverse := by
      rw [List.reverse_reverse]
      exact narrow before (by rw [found]; exact taken)
    obtain ⟨items, answer⟩ := Completion.itemsAt_ok narrow catalog x (byteLength before) s next
    refine ⟨some items, ?_, iff_of_true rfl inside⟩
    simp only [bind, Except.bind, found, taken, dropped, answer]
    rfl

/-- A document with a path before the cursor. It has characters of more than one byte, one of them
before a dot, but none right before a word of the path. -/
def memberDocument : DocumentIndex :=
  (Document.ofText "a.yar" none "/* é. */ rule a \x7b condition: \"é\" == pe.".toList).index
    Catalog.builtin 0

theorem Snapshot.completion_answers_member :
    (Snapshot.empty.withDocument memberDocument).require "a.yar" = .ok memberDocument ∧
      (∀ before ∈ (memberDocument.document.offset? ⟨0, 39⟩).bind
        (takeBytes? memberDocument.document.text), ¬ Completion.cutsCharacter before) ∧
      ∃ items?, (Snapshot.empty.withDocument memberDocument).completion Catalog.builtin "a.yar"
        ⟨0, 39⟩ = .ok items? ∧ (items?.isSome ↔ 0 < Lines.count memberDocument.document.text) := by
  have has : (Snapshot.empty.withDocument memberDocument).require "a.yar" =
      .ok memberDocument := rfl
  have narrow : ∀ before ∈ (memberDocument.document.offset? ⟨0, 39⟩).bind
      (takeBytes? memberDocument.document.text), ¬ Completion.cutsCharacter before := by
    decide +kernel
  exact ⟨has, narrow, completion_answers has Catalog.builtin narrow⟩

end RuleDesk
