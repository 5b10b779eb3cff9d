import Mathlib.Data.List.Basic
import Mathlib.Data.List.TakeWhile
import RuleDesk.Compiler.Message

namespace RuleDesk

/-! ## White space at the ends of a text -/

/-- `inner` is what remains of `whole` without the white space around it. -/
structure Trimmed (whole inner : List Char) : Prop where
  around : ∃ front back, whole = front ++ inner ++ back ∧ front.all isBlank ∧ back.all isBlank
  starts : ∀ c, inner.head? = some c → isBlank c = false
  ends : ∀ c, inner.getLast? = some c → isBlank c = false

theorem head?_dropWhile {p : α → Bool} {cs : List α} (h : (cs.dropWhile p).head? = some c) :
    p c = false := by
  have stopped := List.head?_dropWhile_not p cs
  rw [h] at stopped
  exact stopped

theorem dropWhile_of_head? {p : α → Bool} {cs : List α} (h : ∀ c, cs.head? = some c → p c = false) :
    cs.dropWhile p = cs := by
  cases cs with
  | nil => rfl
  | cons c rest => exact List.dropWhile_cons_of_neg (Bool.not_eq_true _ ▸ h c rfl)

theorem trim_trimmed (cs : List Char) : Trimmed cs (trim cs) := by
  have back : ((trimStart cs).reverse.takeWhile isBlank).all isBlank := List.all_takeWhile
  have rest : trimStart cs = trim cs ++ ((trimStart cs).reverse.takeWhile isBlank).reverse := by
    rw [trim, trimEnd, ← List.reverse_append, List.takeWhile_append_dropWhile, List.reverse_reverse]
  refine ⟨⟨cs.takeWhile isBlank, _, ?_, List.all_takeWhile, List.all_reverse.trans back⟩, ?_, ?_⟩
  · rw [List.append_assoc, ← rest, trimStart, List.takeWhile_append_dropWhile]
  · intro c starts
    have start : (trimStart cs).head? = some c := by
      rw [rest, List.head?_append, starts, Option.some_or]
    exact head?_dropWhile start
  · intro c ends
    rw [trim, trimEnd, List.getLast?_reverse] at ends
    exact head?_dropWhile ends

/-- Only one text is left without the white space. -/
theorem Trimmed.trim_eq {whole inner : List Char} (h : Trimmed whole inner) :
    trim whole = inner := by
  obtain ⟨front, back, rfl, blankFront, blankBack⟩ := h.around
  have ended : (inner.reverse).dropWhile isBlank = inner.reverse :=
    dropWhile_of_head? fun c starts => h.ends c (List.head?_reverse ▸ starts)
  have started : trimStart (front ++ inner ++ back) = if inner = [] then [] else inner ++ back := by
    rw [trimStart, List.append_assoc, List.dropWhile_append_of_pos (List.all_eq_true.mp blankFront)]
    cases inner with
    | nil => exact List.dropWhile_eq_nil_iff.mpr (List.all_eq_true.mp blankBack)
    | cons c rest => exact dropWhile_of_head? fun d starts => h.starts d starts
  rw [trim, started]
  split
  next empty => exact empty.symm
  next =>
    have blank : ∀ c ∈ back.reverse, isBlank c :=
      fun c inside => List.all_eq_true.mp blankBack c (List.mem_reverse.mp inside)
    rw [trimEnd, List.reverse_append, List.dropWhile_append_of_pos blank, ended,
      List.reverse_reverse]

/-! ## Line numbers -/

theorem isBlank_of_isDigit {c : Char} (h : c.isDigit) : isBlank c = false := by
  simp only [Char.isDigit, Bool.and_eq_true, decide_eq_true_eq] at h
  have low : 48 ≤ c.toNat := h.1
  have high : c.toNat ≤ 57 := h.2
  simp only [isBlank, Bool.or_eq_false_iff, Bool.and_eq_false_iff, decide_eq_false_iff_not,
    beq_eq_false_iff_ne]
  omega

theorem digitsValue_eq_ofDigitChars {cs : List Char} (digits : ∀ c ∈ cs, c.isDigit) :
    digitsValue 10 cs = Nat.ofDigitChars 10 cs 0 := by
  rw [digitsValue, Nat.ofDigitChars_eq_foldl]
  refine List.foldl_ext _ _ _ fun n c inside => ?_
  rw [digitValue, if_pos (digits c inside), Nat.mul_comm]

theorem lineNumber?_toDigits (n : UInt32) :
    CompilerMessage.lineNumber? (Nat.toDigits 10 n.toNat) = some n.toNat := by
  have digits : ∀ c ∈ Nat.toDigits 10 n.toNat, c.isDigit :=
    fun c inside => Nat.isDigit_of_mem_toDigits (by omega) (by omega) inside
  have blank : ∀ c ∈ Nat.toDigits 10 n.toNat, isBlank c = false :=
    fun c inside => isBlank_of_isDigit (digits c inside)
  have trimmed : trim (Nat.toDigits 10 n.toNat) = Nat.toDigits 10 n.toNat := Trimmed.trim_eq
    ⟨⟨[], [], (List.append_nil _).symm, rfl, rfl⟩, fun c h => blank c (List.mem_of_head? h),
      fun c h => blank c (List.mem_of_getLast? h)⟩
  have unsigned : (Nat.toDigits 10 n.toNat).head? ≠ some '+' :=
    fun h => absurd (digits '+' (List.mem_of_head? h)) (by decide)
  have value : digitsValue 10 (Nat.toDigits 10 n.toNat) = n.toNat := by
    rw [digitsValue_eq_ofDigitChars digits, Nat.ofDigitChars_ten_toDigits]
  have narrow : isUnsigned32 n.toNat := by
    have := n.toNat_lt
    simp only [isUnsigned32, Bool.and_eq_true, decide_eq_true_eq]
    omega
  rw [CompilerMessage.lineNumber?]
  simp only [trimmed, if_neg unsigned, value, narrow, List.all_eq_true.mpr digits,
    List.isEmpty_eq_false_iff.mpr Nat.toDigits_ne_nil,
    Bool.not_true, Bool.or_self, Bool.false_eq_true, if_false]

/-! ## The place in front of a message -/

namespace CompilerMessage

/-- A text in whose places the separator does not begin is only passed. -/
theorem splitFirst?_append {separator passed rest before after : List Char}
    (clear : ∀ part, part <:+ passed → part ≠ [] → ¬separator <+: part ++ rest)
    (h : splitFirst? separator rest = some (before, after)) :
    splitFirst? separator (passed ++ rest) = some (passed ++ before, after) := by
  induction passed with
  | nil => exact h
  | cons c passed ih =>
    have here : separator.isPrefixOf (c :: (passed ++ rest)) = false := by
      rw [Bool.eq_false_iff, Ne, List.isPrefixOf_iff_prefix]
      exact clear (c :: passed) (List.suffix_refl _) (List.cons_ne_nil _ _)
    rw [List.cons_append, splitFirst?, here, if_neg Bool.false_ne_true,
      ih fun part inside => clear part (inside.trans (List.suffix_cons c passed)), Option.map_some,
        List.cons_append]

theorem splitFirst?_here {separator : List Char} (h : separator ≠ []) (after : List Char) :
    splitFirst? separator (separator ++ after) = some ([], after) := by
  obtain ⟨c, rest, rfl⟩ := List.exists_cons_of_ne_nil h
  have here : (c :: rest).isPrefixOf (c :: (rest ++ after)) = true :=
    List.isPrefixOf_iff_prefix.mpr (List.prefix_append (c :: rest) after)
  rw [List.cons_append, splitFirst?, if_pos here, ← List.cons_append, List.drop_left]

/-- A name without `): ` does not get one from the bracket that follows it. -/
theorem not_separator_before_bracket {name rest : List Char} (clear : ¬ "): ".toList <:+: name)
    {part : List Char} (h : part <:+ name) :
    ¬ "): ".toList <+: part ++ '(' :: rest := by
  rintro ⟨after, spelled⟩
  match part, h, spelled with
  | [], _, spelled => exact absurd (List.cons.inj spelled).1 (by decide)
  | [_], _, spelled => exact absurd (List.cons.inj (List.cons.inj spelled).2).1 (by decide)
  | [_, _], _, spelled =>
    exact absurd (List.cons.inj (List.cons.inj (List.cons.inj spelled).2).2).1 (by decide)
  | a :: b :: c :: part, h, spelled =>
    have whole : "): ".toList ++ after = [a, b, c] ++ (part ++ '(' :: rest) := spelled
    have same : "): ".toList = [a, b, c] := List.append_inj_left whole rfl
    exact clear (same ▸ (List.prefix_append [a, b, c] part).isInfix.trans h.isInfix)

/-- The numeral begins after the last bracket, whatever the name has. -/
theorem afterLast?_digits {digits : List Char} (h : ∀ c ∈ digits, c.isDigit) (name : List Char) :
    afterLast? '(' (name ++ '(' :: digits) = some digits := by
  have passed : ∀ c ∈ digits.reverse, (c != '(') = true := by
    intro c inside
    rw [bne_iff_ne]
    rintro rfl
    exact absurd (h '(' (List.mem_reverse.mp inside)) (by decide)
  have bracket : (name ++ '(' :: digits).contains '(' :=
    List.contains_iff_mem.mpr (List.mem_append_right name List.mem_cons_self)
  rw [afterLast?, if_pos bracket, List.reverse_append, List.reverse_cons, List.append_assoc,
    List.takeWhile_append_of_pos passed]
  simp

theorem splitFirst?_place {name digits : List Char} (clear : ¬ "): ".toList <:+: name)
    (h : ∀ c ∈ digits, c.isDigit) (text : List Char) :
    splitFirst? "): ".toList (name ++ '(' :: digits ++ ("): ".toList ++ text)) =
      some (name ++ '(' :: digits, text) := by
  have numeral : ∀ part, part <:+ '(' :: digits → part ≠ [] →
      ¬ "): ".toList <+: part ++ ("): ".toList ++ text) := by
    rintro (_ | ⟨c, part⟩) inside here ⟨after, spelled⟩
    · exact here rfl
    · have closed : c = ')' := (List.cons.inj spelled).1.symm
      subst closed
      rcases List.mem_cons.mp (inside.subset List.mem_cons_self) with bracket | digit
      · exact absurd bracket (by decide)
      · exact absurd (h ')' digit) (by decide)
  have split := splitFirst?_append numeral (splitFirst?_here (by decide) text)
  rw [List.append_nil] at split
  rw [List.append_assoc]
  exact splitFirst?_append (fun part inside _ => not_separator_before_bracket clear inside) split

/-! ## The line that the compiler writes -/

/-- How the compiler writes a message about a line of a file. -/
def written (name : List Char) (line : UInt32) (label : String) (message : List Char) : List Char :=
  name ++ "(".toList ++ (toString line).toList ++ "): ".toList ++ label.toList ++
    ": ".toList ++ message

/-- A line of the compiler is read as it was meant, with any brackets and
colons in the name and in the message. -/
theorem ofLine?_written (file : String) {name : List Char} (clear : ¬ "): ".toList <:+: name)
    (line : UInt32) {label : String} {severity : Severity}
    (h : (label, severity) ∈ [("error", Severity.error), ("warning", Severity.warning)])
    (message : List Char) :
    ∃ inner, Trimmed message inner ∧ ofLine? file (written name line label message) =
      some ⟨file, line.toNat, severity, String.ofList inner⟩ := by
  have digits : ∀ c ∈ Nat.toDigits 10 line.toNat, c.isDigit :=
    fun c inside => Nat.isDigit_of_mem_toDigits (by omega) (by omega) inside
  have labelled : ofLabelled (label.toList ++ ": ".toList ++ message) = (severity, message) := by
    simp only [List.mem_cons, Prod.mk.injEq, List.not_mem_nil, or_false] at h
    rcases h with ⟨rfl, rfl⟩ | ⟨rfl, rfl⟩ <;> rfl
  have spelled : written name line label message =
      name ++ '(' :: Nat.toDigits 10 line.toNat ++
        ("): ".toList ++ (label.toList ++ ": ".toList ++ message)) := by
    have numeral : (toString line).toList = Nat.toDigits 10 line.toNat := Nat.toList_repr
    rw [written, numeral]
    simp only [List.append_assoc]
    rfl
  refine ⟨trim message, trim_trimmed message, ?_⟩
  rw [spelled, ofLine?, splitFirst?_place clear digits]
  simp only [Option.bind_eq_bind, Option.bind_some, afterLast?_digits digits,
    lineNumber?_toDigits, labelled]

/-- A bracket and a colon in the name, and what looks like a second place in
the message. -/
theorem ofLine?_written_bracketed :
    ¬ "): ".toList <:+: "c:/rules(1).yar".toList ∧
      ("warning", Severity.warning) ∈ [("error", Severity.error), ("warning", Severity.warning)] ∧
    ofLine? "rules.yar"
      (written "c:/rules(1).yar".toList 4294967295 "warning" " $a (3): error: slow ".toList) =
      some ⟨"rules.yar", 4294967295, .warning, "$a (3): error: slow"⟩ := by
  have clear : ¬ "): ".toList <:+: "c:/rules(1).yar".toList :=
    fun inside => absurd (inside.subset (a := ' ') (by decide)) (by decide)
  have severity : ("warning", Severity.warning) ∈
      [("error", Severity.error), ("warning", Severity.warning)] := by decide
  obtain ⟨inner, trimmed, read⟩ :=
    ofLine?_written "rules.yar" clear 4294967295 severity " $a (3): error: slow ".toList
  have spelled : inner = "$a (3): error: slow".toList := trimmed.trim_eq.symm.trans (by decide)
  refine ⟨clear, severity, read.trans ?_⟩
  rw [spelled]
  rfl

end CompilerMessage

end RuleDesk
