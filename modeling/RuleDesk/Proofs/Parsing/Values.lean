import RuleDesk.Proofs.Lexing.Boundaries
import RuleDesk.Proofs.Lexing.Literals
import RuleDesk.Proofs.Parsing.State

namespace RuleDesk

/-! ## The values of integers

The value of a literal that does not fit is an error of its own kind. The
grammar goes on behind it as if nothing was wrong. -/

/-- Errors about the value of a literal. -/
def SyntaxFault.isOfValue : SyntaxFault → Bool
  | .invalidInteger _ => true
  | _ => false

/-- Errors of a text that is as the grammar asks: all of them are about values. -/
def Grammatical (errors : List SyntaxError) : Prop := ∀ e ∈ errors, e.fault.isOfValue

namespace Grammatical

variable {errors final : List SyntaxError} {e : SyntaxError}

theorem nil : Grammatical [] := nofun

theorem before (h : Grammatical final) (earlier : errors <+: final) : Grammatical errors :=
  fun e member => h e (earlier.subset member)

theorem not_grave (h : Grammatical (errors ++ [e])) (grave : e.fault.isOfValue = false) :
    False := by
  have ofValue := h e (List.mem_append_right _ (List.mem_singleton_self e))
  rw [grave] at ofValue
  cases ofValue

end Grammatical

namespace Token

/-- The error about a literal whose value does not fit. -/
def valueError (t : Token) : SyntaxError := ⟨.invalidInteger t.name, t.span⟩

/-- Tokens of one kind at one place are one token. -/
theorem eq_of_span {text : List Char} {t u : Token} (kind : t.kind = u.kind)
    (stands : StandsAt text t.start t.text)
    (stands' : StandsAt text u.start u.text) (place : t.span = u.span) : t = u := by
  have start : t.start = u.start := congrArg Span.start place
  have stop : t.start + byteLength t.text = u.start + byteLength u.text := congrArg Span.stop place
  have same : t.text = u.text := stands.eq_of_width (start ▸ stands') (by omega)
  cases t
  cases u
  cases kind
  cases start
  cases same
  rfl

/-- An integer of a text. -/
structure IsInteger (text : List Char) (t : Token) : Prop where
  kind : t.kind = .integer
  stands : StandsAt text t.start t.text
  nonempty : t.text ≠ []
  literal : ∃ n, IsLiteral t.text n

namespace IsInteger

variable {text : List Char} {t : Token}

theorem wide (h : t.IsInteger text) : t.start < t.stop := by
  have := length_le_byteLength t.text
  have := List.length_pos_iff.mpr h.nonempty
  rw [Token.stop]
  omega

end IsInteger

/-- The value that a tree has for an integer, when these are all the errors of
the parse. -/
structure Evaluates (text : List Char) (errors : List SyntaxError) (t : Token)
    (n : Nat) : Prop extends t.IsInteger text where
  value : n = (literalValue? t.text).getD 0
  reported : literalValue? t.text = none → t.valueError ∈ errors

end Token

/-- The errors about values, among those of a parse that has come to an offset.
They are about integers before it, one behind the other. -/
structure ValueErrors (text : List Char) (stop : Nat) (errors : List SyntaxError) : Prop where
  overflow : ∀ e ∈ errors, e.fault.isOfValue → ∃ t : Token, t.IsInteger text ∧
      literalValue? t.text = none ∧ e = t.valueError ∧ t.stop ≤ stop
  apart : (errors.filter (·.fault.isOfValue)).Pairwise fun e e' => e.span.stop ≤ e'.span.start

namespace ValueErrors

variable {text : List Char} {stop stop' : Nat} {errors : List SyntaxError}

theorem nil : ValueErrors text stop [] := ⟨nofun, .nil⟩

theorem later (h : ValueErrors text stop errors) (le : stop ≤ stop') :
    ValueErrors text stop' errors := by
  refine ⟨fun e member ofValue => ?_, h.apart⟩
  obtain ⟨t, integer, overflow, same, before⟩ := h.overflow e member ofValue
  exact ⟨t, integer, overflow, same, Nat.le_trans before le⟩

/-- Another kind of error changes nothing. -/
theorem other (h : ValueErrors text stop errors) {e : SyntaxError}
    (grave : e.fault.isOfValue = false) :
    ValueErrors text stop (errors ++ [e]) := by
  refine ⟨fun e' member ofValue => ?_, ?_⟩
  · rcases List.mem_append.mp member with before | last
    · exact h.overflow e' before ofValue
    · rw [List.mem_singleton.mp last, grave] at ofValue
      cases ofValue
  · rw [List.filter_append, List.filter_cons_of_neg (by rw [grave]; exact Bool.false_ne_true),
      List.filter_nil, List.append_nil]
    exact h.apart

/-- One more literal that does not fit, behind those so far. -/
theorem one (h : ValueErrors text stop errors) {t : Token} (integer : t.IsInteger text)
    (overflow : literalValue? t.text = none)
    (behind : stop ≤ t.start) : ValueErrors text t.stop (errors ++ [t.valueError]) := by
  refine ⟨fun e member ofValue => ?_, ?_⟩
  · rcases List.mem_append.mp member with before | last
    · exact (h.later (Nat.le_trans behind (Nat.le_add_right _ _))).overflow e before ofValue
    · exact ⟨t, integer, overflow, List.mem_singleton.mp last, Nat.le_refl _⟩
  · rw [List.filter_append, List.filter_cons_of_pos rfl, List.filter_nil]
    refine List.pairwise_append.mpr ⟨h.apart, List.pairwise_singleton ..,
      fun e member e' last => ?_⟩
    obtain ⟨inside, ofValue⟩ := List.mem_filter.mp member
    obtain ⟨u, _, _, rfl, before⟩ := h.overflow e inside ofValue
    rw [List.mem_singleton.mp last]
    exact Nat.le_trans before behind

/-- About an integer there is one error if its value does not fit, and none otherwise. -/
theorem filter_eq (h : ValueErrors text stop errors) {t : Token} (integer : t.IsInteger text)
    (reported : literalValue? t.text = none → t.valueError ∈ errors) :
    errors.filter (fun e => e.fault.isOfValue && e.span == t.span) = if literalValue? t.text = none
      then [t.valueError] else [] := by
  have about : ∀ e ∈ errors.filter (fun e => e.fault.isOfValue && e.span == t.span),
      literalValue? t.text = none ∧ e = t.valueError := by
    intro e member
    obtain ⟨inside, both⟩ := List.mem_filter.mp member
    obtain ⟨ofValue, place⟩ := Bool.and_eq_true_iff.mp both
    obtain ⟨u, other, overflow, rfl, _⟩ := h.overflow e inside ofValue
    obtain rfl := Token.eq_of_span (other.kind.trans integer.kind.symm) other.stands integer.stands
      (beq_iff_eq.mp place)
    exact ⟨overflow, rfl⟩
  split
  next overflow =>
    have member : t.valueError ∈ errors.filter (fun e => e.fault.isOfValue && e.span == t.span) :=
      List.mem_filter.mpr
        ⟨reported overflow, Bool.and_eq_true_iff.mpr ⟨rfl, beq_self_eq_true t.span⟩⟩
    have apart : (errors.filter (fun e => e.fault.isOfValue && e.span == t.span)).Pairwise
        fun e e' => e.span.stop ≤ e'.span.start := by
      have fewer : errors.filter (fun e => e.fault.isOfValue && e.span == t.span) =
          (errors.filter (·.fault.isOfValue)).filter (·.span == t.span) := by
        rw [List.filter_filter]
        exact List.filter_congr fun e _ => Bool.and_comm ..
      rw [fewer]
      exact h.apart.filter _
    generalize errors.filter (fun e => e.fault.isOfValue && e.span == t.span) =
      found at about member apart
    match found, member with
    | [e], _ => rw [(about e List.mem_cons_self).2]
    | e :: e' :: _, _ =>
      have order := (List.pairwise_cons.mp apart).1 e' List.mem_cons_self
      rw [(about e List.mem_cons_self).2,
        (about e' (List.mem_cons_of_mem _ List.mem_cons_self)).2] at order
      exact absurd order (Nat.not_le.mpr integer.wide)
  next fits => exact List.eq_nil_iff_forall_not_mem.mpr fun e member => fits (about e member).1

end ValueErrors

theorem Parser.faultOf_grave (t : Token) (expected : Expectation) :
    (faultOf t expected).isOfValue = false := by
  unfold faultOf
  split <;> rfl

/-! ### How a value is read -/

namespace ParseState

/-- The state after the value of a literal. -/
def valued (s : ParseState) (t : Token) : ParseState :=
  if literalValue? t.text = none then s.reported t.valueError else s

theorem valued_input (s : ParseState) (t : Token) : (s.valued t).input = s.input := by
  unfold valued
  split <;> rfl

theorem valued_read (s : ParseState) (t : Token) : (s.valued t).read = s.read := by
  unfold valued
  split <;> rfl

/-- The value may be found before the literal is passed or behind it. -/
theorem valued_advanced (s : ParseState) (t : Token) (mode : Mode) :
    (s.valued t).advanced mode = (s.advanced mode).valued t := by
  unfold advanced
  rw [valued_input]
  unfold valued
  cases s.input.ahead with
  | none => rfl
  | some entry =>
    dsimp only
    split <;> rfl

end ParseState

theorem Parser.run_integerValue (t : Token) (s : ParseState) :
    (integerValue t).run s = ((literalValue? t.text).getD 0, s.valued t) := by
  unfold integerValue ParseState.valued
  cases literalValue? t.text with
  | some n => rfl
  | none => rfl

end RuleDesk
