import RuleDesk.Proofs.Lexing.Solid
import RuleDesk.Proofs.Parsing.Conditions

namespace RuleDesk

/-- Any mode may be gone into. -/
def Mode.any (_ : Mode) : Prop := True

/-- No mode is gone into. -/
def Mode.unchanged (mode : Mode) : Prop := mode = .normal

theorem Mode.unchanged_normal : unchanged normal := rfl

/-! ### What the entries of a meta section are read from -/

/-- The tokens of the value of an entry. The value of an integer may have a sign. -/
inductive MetaValue.ReadFrom (text : List Char) (final : List SyntaxError) :
    MetaValue → List Token → Prop
  | integer {t : Token} {n : Nat} (h : t.Evaluates text final n) :
      ReadFrom text final (.integer n) [t]
  | negative {hyphen t : Token} {n : Nat} (kind : hyphen.kind = .symbol .hyphen)
      (h : t.Evaluates text final n) :
      ReadFrom text final (.integer (-n)) [hyphen, t]
  | other {value : MetaValue} {tokens : List Token} (plain : ∀ n, value ≠ .integer n)
      (none : ∀ t ∈ tokens, t.kind ≠ .integer) :
      ReadFrom text final value tokens

/-- The tokens of an entry: its name, an equals sign and those of its value. -/
def MetaEntry.ReadFrom (text : List Char) (final : List SyntaxError) (m : MetaEntry)
    (tokens : List Token) : Prop :=
  ∃ name equal value, tokens = name :: equal :: value ∧ name.kind = .ident ∧
    equal.kind = .symbol .equal ∧ m.ident = Parser.identOf name ∧ m.value.ReadFrom text final value

/-- Entries and their tokens. -/
def MetaEntry.AllRead (text : List Char) (final : List SyntaxError)
    (reads : List (MetaEntry × List Token)) : Prop :=
  ∀ x ∈ reads, x.1.ReadFrom text final x.2

/-- Entries that are read one behind the other, after those from before. -/
def MetasRead (text : List Char) (final : List SyntaxError) (before metas : List MetaEntry)
    (tokens : List Token) : Prop :=
  ∃ reads, metas = before ++ reads.map Prod.fst ∧ tokens = reads.flatMap Prod.snd ∧
    MetaEntry.AllRead text final reads

/-- Entries that other tokens follow only if the text is not grammatical. -/
def MetasLead (text : List Char) (final : List SyntaxError) (before metas : List MetaEntry)
    (tokens : List Token) : Prop :=
  ∃ front back, tokens = front ++ back ∧ MetasRead text final before metas front ∧
    (Grammatical final → back = [])

namespace MetasRead

variable {text : List Char} {final : List SyntaxError} {before metas : List MetaEntry}
    {tokens further : List Token}

theorem none : MetasRead text final before before [] := ⟨[], (List.append_nil _).symm, rfl, nofun⟩

theorem lead (h : MetasRead text final before metas tokens)
    (rest : Grammatical final → further = []) :
    MetasLead text final before metas (tokens ++ further) := ⟨tokens, further, rfl, h, rest⟩

theorem entry (h : MetasRead text final before metas tokens) {m : MetaEntry}
    (read : m.ReadFrom text final further) :
    MetasRead text final before (metas ++ [m]) (tokens ++ further) := by
  obtain ⟨reads, rfl, rfl, all⟩ := h
  refine ⟨reads ++ [(m, further)], ?_, ?_,
    List.forall_mem_append.mpr ⟨all, List.forall_mem_singleton.mpr read⟩⟩
  · rw [List.map_append, List.append_assoc]
    rfl
  · rw [List.flatMap_append, List.flatMap_singleton]

/-- The tokens of an entry stand among the others, one behind the other. -/
theorem part (h : MetasRead text final before metas tokens) {m : MetaEntry} (member : m ∈ metas) :
    m ∈ before ∨ ∃ part, part <:+: tokens ∧ m.ReadFrom text final part := by
  obtain ⟨reads, rfl, rfl, all⟩ := h
  refine (List.mem_append.mp member).imp_right fun new => ?_
  obtain ⟨x, among, rfl⟩ := List.mem_map.mp new
  rw [List.flatMap_def]
  exact ⟨x.2, List.infix_of_mem_flatten (List.mem_map_of_mem among), all x among⟩

end MetasRead

namespace Parser

namespace Reads

variable {text : List Char} {final : List SyntaxError} {M : Mode → Prop} {pre : ParseState → Prop}
  {p : Parser α} {f : α → Parser β} {post : α → List Token → Prop} {post' : β → List Token → Prop}

/-- Wherever this is, the next token is read if there is one. -/
theorem advanceAny {mode : Mode} (allowed : M mode) :
    Reads text final M pre (Parser.advanceInto mode) fun o tokens => tokens = o.toList := by
  intro s of _ quiet
  cases next : s.next? with
  | some t =>
    obtain ⟨of, tokens, walk, read, result, rfl⟩ := advanceInto allowed s of next quiet
    exact ⟨of, [t], walk, read, result ▸ rfl⟩
  | none =>
    rw [run_advanceInto, next, ParseState.advanced_of_none next]
    exact ⟨of, [], .stay _, rfl, rfl⟩

/-- At the end, only a look at the state. -/
theorem onlyLook {g : ParseState → α} (run : ∀ s, p.run s = (g s, s))
    (h : ∀ s, pre s → post (g s) []) :
    Reads text final M pre p post := by
  intro s of start _
  rw [run]
  exact ⟨of, [], .stay _, rfl, h s start⟩

/-- Something is read of which nothing has to be known. -/
theorem skip {skipped : α → List Token → Prop} (h : Reads text final M anywhere p skipped)
    (rest : ∀ a, Reads text final M anywhere (f a) fun _ _ => True) :
    Reads text final M pre (p >>= f) fun _ _ => True :=
  h.at.then fun a _ _ => rest a

theorem widen {N : Mode → Prop} (h : Reads text final N pre p post)
    (wider : ∀ mode, N mode → M mode) :
    Reads text final M pre p post := by
  intro s of start quiet
  obtain ⟨of, tokens, walk, read, holds⟩ := h s of start quiet
  exact ⟨of, tokens, walk.widen wider, read, holds⟩

/-- A part that is run from a known state and goes into fewer modes. -/
theorem step {s : ParseState} {N : Mode → Prop} (h : Reads text final N (· = s) p post)
    (wider : ∀ mode, N mode → M mode)
    (rest : ∀ tokens, post (p.run s).1 tokens → s.input.here.Walk N tokens (p.run s).2.input.here →
      Reads text final M (· = (p.run s).2) (f (p.run s).1) fun b more => post' b (tokens ++ more)) :
    Reads text final M (· = s) (p >>= f) post' := by
  rintro s of rfl quiet
  rw [run_bind] at quiet ⊢
  have later := (f (p.run s).1).forward (p.run s).2
  obtain ⟨of, tokens, walk, read, holds⟩ := h s of rfl (later.errors.trans quiet)
  obtain ⟨of', more, walk', read', holds'⟩ := rest tokens holds walk _ of rfl quiet
  refine ⟨of', tokens ++ more, (walk.widen wider).append walk', ?_, holds'⟩
  rw [read', read, List.reverse_append, List.append_assoc]

end Reads

section Skipped

variable {text : List Char} {final : List SyntaxError} {pre : ParseState → Prop}

/-- A loop of which nothing has to be known. -/
theorem loop_reads {step : α → Parser (ForInStep α)} (progress : Progress step)
    (h : ∀ a, Reads text final Mode.any anywhere (step a) fun _ _ => True) (a : α) :
    Reads text final Mode.any pre (iterate step a) fun _ _ => True := by
  refine .iterate (fun _ _ => True) (fun _ _ => True) progress (fun a _ _ => ?_) [] trivial
  exact (h a).weaken fun r _ _ => by cases r <;> trivial

/-! ### Entries of meta sections -/

/-- What is read for the value of an entry. -/
def MetaReading (text : List Char) (final : List SyntaxError) (o : Option MetaValue)
    (tokens : List Token) : Prop :=
  o.elim (¬ Grammatical final) (·.ReadFrom text final tokens)

theorem negativeMeta_reads {hyphen : Token} (kind : hyphen.kind = .symbol .hyphen) :
    Reads text final Mode.unchanged pre negativeMeta fun o tokens =>
      MetaReading text final o (hyphen :: tokens) := by
  have failed : Reads text final Mode.unchanged anywhere (do Parser.unexpected .number; return none)
      fun o tokens => MetaReading text final o (hyphen :: tokens) :=
    (Reads.unexpected _).then fun _ _ ⟨_, dirty⟩ => .pure dirty
  refine .peek failed.at fun t => ?_
  dsimp only
  split
  · rename_i integer
    exact .readLiteral Mode.unchanged_normal integer fun n evaluates =>
      .pure (MetaValue.ReadFrom.negative kind evaluates)
  · rename_i float
    refine .readNext Mode.unchanged_normal
      (.pure (MetaValue.ReadFrom.other nofun fun u member => ?_))
    rcases List.mem_pair.mp member with rfl | rfl
    · rw [kind]
      exact nofun
    · rw [float]
      exact nofun
  · exact failed.at

theorem metaValue_reads :
    Reads text final Mode.unchanged pre metaValue (MetaReading text final) := by
  have failed : Reads text final Mode.unchanged anywhere
    (do Parser.unexpected .metaValue; return none) (MetaReading text final) :=
    (Reads.unexpected _).then fun _ _ ⟨_, dirty⟩ => .pure dirty
  have plain : ∀ {t : Token} {value : MetaValue}, t.kind ≠ .integer → (∀ n, value ≠ .integer n) →
      Reads text final Mode.unchanged (fun s => anywhere s ∧ s.next? = some t)
        (do let _ ← advance; return some value) (MetaReading text final) :=
    fun kind other => .readNext Mode.unchanged_normal
      (.pure (MetaValue.ReadFrom.other other (List.forall_mem_singleton.mpr kind)))
  refine Reads.at (.peek failed.at fun t => ?_)
  dsimp only
  split
  · rename_i kind
    exact plain (kind ▸ nofun) nofun
  · rename_i kind
    exact plain (kind ▸ nofun) nofun
  · rename_i kind
    exact plain (kind ▸ nofun) nofun
  · rename_i kind
    refine .bind (m := fun s => anywhere s ∧ s.next? = some t) (Reads.report _ _ rfl)
      (fun s start => ⟨trivial, start.2⟩) ?_
    rintro _ _ ⟨rfl, _⟩
    exact plain (kind ▸ nofun) nofun
  · rename_i kind
    exact plain (kind ▸ nofun) nofun
  · rename_i integer
    exact .readValue Mode.unchanged_normal integer fun n evaluates =>
      .pure (MetaValue.ReadFrom.integer evaluates)
  · rename_i kind
    exact .readNext Mode.unchanged_normal (negativeMeta_reads kind)
  · exact failed.at

theorem metaStep_reads {before : List MetaEntry} (entries : List MetaEntry) (tokens : List Token)
    (h : MetasRead text final before entries tokens) :
    Reads text final Mode.unchanged anywhere (metaStep entries) fun r further =>
      Reads.around (MetasRead text final before) (MetasLead text final before) r
        (tokens ++ further) := by
  refine .eat Mode.unchanged_normal (.pure (h.lead fun _ => rfl)) fun name kind => ?_
  refine .expect Mode.unchanged_normal (fun dirty => .pure (h.lead fun yes => absurd yes dirty))
    fun equal kind' => ?_
  refine metaValue_reads.then fun o value read => ?_
  cases o with
  | none => exact .pure (h.lead fun yes => absurd yes read)
  | some v =>
    refine .pointHere fun stop => .pure (h.entry ⟨name, equal, value, ?_, kind, kind', rfl, read⟩)
    rw [List.append_nil]

/-! ### What no names are in -/

theorem hexJump_reads : Reads text final Mode.any pre hexJump fun _ _ => True := by
  have close : Reads text final Mode.any anywhere (do let _ ← expect (.symbol .rbracket); return ())
    fun _ _ => True :=
    .expect trivial (fun _ => .pure trivial) fun _ _ => .pure trivial
  have number : Reads text final Mode.any anywhere
      (do
        if (← eat (.symbol .hyphen)).isSome then
          let _ ← eat .integer
        let _ ← expect (.symbol .rbracket)) fun _ _ => True :=
    .eat trivial close fun _ _ => .eat trivial close fun _ _ => close
  exact .eat trivial number.at fun _ _ => number

theorem hexStep_reads (lbrace : Span) (progress : HexProgress) :
    Reads text final Mode.any pre (hexStep lbrace progress) fun _ _ => True := by
  cases progress with
  | ended stop => exact .pure trivial
  | within parens =>
    have stop : Reads text final Mode.any anywhere (do return .done (.ended (← lastStop)))
        fun (_ : ForInStep HexProgress) _ => True := .glance run_lastStop fun _ => .pure trivial
    refine .peek (.skip (Reads.report _ _ rfl) fun _ => stop) fun t => ?_
    dsimp only
    split
    · exact .skip (.advanceAny trivial) fun _ => .pure trivial
    split
    · exact .skip (.advanceAny trivial) fun _ => .skip (hexJump_reads) fun _ => .pure trivial
    split
    · exact .skip (.advanceAny trivial) fun _ => .pure trivial
    split
    · exact .skip (.advanceAny trivial) fun _ => .pure trivial
    split
    · exact .skip (.advanceAny trivial) fun _ => .pure trivial
    split
    · exact .skip (.advanceAny trivial) fun _ => .pure trivial
    refine .glance run_atSyncPoint fun sync => ?_
    split
    · exact .skip (Reads.report _ _ rfl) fun _ => stop
    · refine .skip (Reads.unexpected _) fun _ => .skip (Reads.skipToSyncPoint trivial) fun _ => ?_
      exact .eat trivial stop fun _ _ => .pure trivial

theorem hexPattern_reads (lbrace : Span) :
    Reads text final Mode.any pre (hexPattern lbrace) fun _ _ => True := by
  refine .skip (loop_reads (hexStep_progress lbrace) (hexStep_reads lbrace) _) fun progress => ?_
  cases progress with
  | ended stop => exact .pure trivial
  | within parens => exact .onlyLook run_lastStop fun _ _ => trivial

theorem patternValue_reads : Reads text final Mode.any pre patternValue fun _ _ => True := by
  refine .peek (.skip (Reads.unexpected _) fun _ => .pure trivial) fun t => ?_
  dsimp only
  split
  · exact .skip (.advanceAny trivial) fun _ => .pure trivial
  · exact .skip (.advanceAny trivial) fun _ => .pure trivial
  · exact .skip (.advanceAny trivial) fun _ => .skip (Reads.report _ _ rfl) fun _ => .pure trivial
  · exact .skip (.advanceAny trivial) fun _ => .skip (Reads.report _ _ rfl) fun _ => .pure trivial
  · exact .skip (.advanceAny trivial) fun _ => .skip (hexPattern_reads t.span) fun _ =>
      .pure trivial
  · exact .skip (Reads.unexpected _) fun _ => .pure trivial

theorem skipArguments_reads : Reads text final Mode.any pre skipArguments fun _ _ => True := by
  have step : ∀ u, Reads text final Mode.any anywhere (argumentStep u) fun _ _ => True := by
    refine fun u => .glance run_atArgumentsEnd fun ended => ?_
    split
    · exact .pure trivial
    · exact .skip (.advanceAny trivial) fun _ => .pure trivial
  refine .eat trivial (.pure trivial) fun _ _ => .skip (loop_reads argumentStep_progress step ())
    fun _ => ?_
  exact .expect trivial (fun _ => .pure trivial) fun _ _ => .pure trivial

theorem modifiers_reads : Reads text final Mode.any pre modifiers fun _ _ => True := by
  refine loop_reads modifierStep_progress (fun ms => .peek (.pure trivial) fun t => ?_) []
  have item : Reads text final Mode.any anywhere
      (do return .yield (ms ++ [⟨⟨t.start, ← lastStop⟩, t.name⟩]))
        fun (_ : ForInStep (List Modifier)) _ => True :=
    .glance run_lastStop fun _ => .pure trivial
  refine .glance (run_isBareModifier · _) fun bare => ?_
  split
  · exact .skip (.advanceAny trivial) fun _ => item
  split
  · exact .skip (.advanceAny trivial) fun _ => .skip (skipArguments_reads) fun _ => item
  · exact .pure trivial

end Skipped

end Parser

end RuleDesk
