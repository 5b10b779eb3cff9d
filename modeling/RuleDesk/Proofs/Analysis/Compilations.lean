import RuleDesk.Proofs.Analysis.Answers

namespace RuleDesk

namespace Analysis

/-- A compiler is in use, and what is changed is to be compiled. -/
def CompilesChanges (a : Analysis) : Prop := a.compiler.isSome = true ∧
  a.settings.compileOnChange = true

/-- True of a run in which this is so all the time. -/
def AlwaysCompiles : Analysis → List Step → Prop
  | a, [] => a.CompilesChanges
  | a, s :: rest => a.CompilesChanges ∧ AlwaysCompiles (a.after s) rest

/-- True of a save that takes the place of a pass that is still pending, and
after which nothing is to be compiled. -/
def Drops (a : Analysis) (uri : String) (action : Action) : Prop :=
  ∃ text, action = .save uri text ∧ a.settings.compileOnSave = false ∧ ¬ a.AtRest uri

/-- True of a run in which no step drops a compilation. -/
def NeverDrops (uri : String) : Analysis → List Step → Prop
  | _, [] => True
  | a, s :: rest => ¬ a.Drops uri s.action ∧ NeverDrops uri (a.after s) rest

/-- One of the steps that come after some others ends a compilation of a
document. What was compiled is what the editor held of it at that moment. -/
def CompletedIn (a : Analysis) (uri : String) (before later : List Step) : Prop :=
  ∃ mid s rest document answer version text, later = mid ++ s :: rest ∧
    (a.run (before ++ mid)).Completes uri s.action document answer ∧
      a.Answered (before ++ mid) document answer ∧
    EditorCopy.ofSteps uri (before ++ mid) = some ⟨version, text⟩ ∧
      document = .ofText uri (some version) text

variable {a b m : Analysis} {uri : String} {d : OpenDocument} {x : DocumentIndex} {action : Action}
  {skipped starting : Prop}

/-- Nothing is left out but what is saved. -/
theorem CompilesChanges.skips (h : a.CompilesChanges) {saved : Bool}
    (skips : a.compileDelay? saved = none) :
    saved = true ∧ a.settings.compileOnSave = false := by
  obtain ⟨compiler, on_change⟩ := h
  obtain ⟨c, in_use⟩ := Option.isSome_iff_exists.mp compiler
  unfold compileDelay? at skips
  rw [in_use, on_change] at skips
  cases saved with
  | false => cases skips
  | true =>
    cases on_save : a.settings.compileOnSave with
    | false => exact ⟨rfl, rfl⟩
    | true =>
      rw [on_save] at skips
      cases skips

theorem CompilesChanges.drops (h : a.CompilesChanges) {text : Option (List Char)}
    (skips : a.compileDelay? true = none)
    (pending : a.pending uri ≠ []) : a.Drops uri (.save uri text) :=
  ⟨text, rfl, (h.skips skips).2, fun rest => pending (atRest_iff.mp rest)⟩

theorem Onward.pending (h : Onward a b uri d x skipped) (goes_on : ¬ skipped) :
    b.pending uri ≠ [] := by
  cases h with
  | ends reason _ => exact absurd reason goes_on
  | waits _ _ queued _ _ => rw [queued]; exact nofun
  | compiles _ _ queued _ _ _ => rw [queued]; exact nofun

theorem Turn.pending (turn : Turn a action uri starting b) (compiles : a.CompilesChanges)
    (stays : action ≠ .close uri) (keeps : ¬ a.Drops uri action) (pending : a.pending uri ≠ []) :
    b.pending uri ≠ [] ∨ ∃ document answer, a.Completes uri action document answer := by
  have in_use : a.compiler ≠ none := Option.isSome_iff_ne_none.mp compiles.1
  cases turn with
  | rests _ _ same => exact Or.inl (same.pending ▸ pending)
  | closes _ own _ _ => exact absurd own stays
  | begins _ takes _ onward =>
    refine Or.inl (onward.pending fun uncompiled => ?_)
    cases takes with
    | newer _ _ => cases (compiles.skips uncompiled).1
    | saved _ _ => exact keeps (compiles.drops uncompiled pending)
    | unchanged _ => exact keeps (compiles.drops uncompiled pending)
    | again command _ => rcases command with rfl | rfl <;> exact in_use uncompiled
  | continues _ _ _ _ _ _ _ _ _ onward => exact Or.inl (onward.pending in_use)
  | finishes _ due here stage _ _ _ _ _ _ _ _ => exact Or.inr ⟨_, _, _, due, here, stage⟩

theorem Turns.pending (turns : Turns action uri starting a b) (compiles : a.CompilesChanges)
    (stays : action ≠ .close uri) (keeps : ¬ a.Drops uri action) (pending : a.pending uri ≠ []) :
    b.pending uri ≠ [] ∨ ∃ document answer, a.Completes uri action document answer := by
  induction turns with
  | last turn => exact turn.pending compiles stays keeps pending
  | next all turn frame _ ih =>
    -- all documents are compiled, and no compilation ends at that
    subst all
    rcases turn.pending compiles stays keeps pending with still | ⟨_, _, _, due, _⟩
    · refine (ih ⟨frame.compiler ▸ compiles.1, frame.settings ▸ compiles.2⟩ ?_ still).imp_right ?_
      · rintro ⟨_, saves, _⟩
        cases saves
      · rintro ⟨_, _, _, due, _⟩
        cases due.1
    · cases due.1

/-- A change that is accepted leaves a pass pending. -/
theorem Turns.pending_of_change (turns : Turns action uri starting a b)
    (compiles : a.CompilesChanges)
    (starts : starting) {version : Int} {text : List Char}
    (change : action = .change uri version text) :
    b.pending uri ≠ [] := by
  subst change
  cases turns with
  | next all => cases all
  | last turn =>
    cases turn with
    | rests none_starts _ _ => exact absurd starts none_starts
    | closes none_starts _ _ _ => exact absurd starts none_starts
    | begins _ takes _ onward =>
      refine onward.pending fun uncompiled => ?_
      cases (compiles.skips uncompiled).1
    | continues none_starts _ _ _ _ _ _ _ _ _ => exact absurd starts none_starts
    | finishes none_starts _ _ _ _ _ _ _ _ _ _ _ => exact absurd starts none_starts

/-- What is compiled when a compilation ends is what the editor holds. -/
theorem Begun.compiles_copy (h : a.Begun uri) {before : List Step} {document : Document}
    {answer : CompilerAnswer} (held : (EditorCopy.ofSteps uri before).isSome = true)
    (ends : (a.run before).Completes uri action document answer) :
    a.Answered before document answer ∧ ∃ version text,
      EditorCopy.ofSteps uri before = some ⟨version, text⟩ ∧
        document = .ofText uri (some version) text := by
  obtain ⟨p, due, here, stage⟩ := ends
  obtain ⟨copy, holds⟩ := Option.isSome_iff_exists.mp held
  obtain ⟨x, shown, indexed⟩ := ((run_tracks h.tracks h.sound before).held copy holds).2
  obtain ⟨answered, y, in_snapshot, rfl⟩ :=
    (h.fresh before).inHand p document answer (due.pending here) stage
  obtain rfl := Option.some.inj (shown.symm.trans in_snapshot)
  exact ⟨answered, copy.version, copy.text, holds, congrArg DocumentIndex.document indexed⟩

/-- A pass that is pending before some steps, or another one after it, ends in
one of them unless a pass is pending after them. -/
theorem Begun.completes (h : a.Begun uri) (later before : List Step)
    (held : (EditorCopy.ofSteps uri before).isSome = true)
    (pending : (a.run before).pending uri ≠ [])
    (compiles : AlwaysCompiles (a.run before) later) (keeps : NeverDrops uri (a.run before) later)
    (stays : ∀ s ∈ later, s.action ≠ .close uri) :
    (a.run (before ++ later)).pending uri ≠ [] ∨ a.CompletedIn uri before later := by
  induction later generalizing before with
  | nil =>
    rw [List.append_nil]
    exact Or.inl pending
  | cons s rest ih =>
    have stay := stays s List.mem_cons_self
    rcases (h.turns before s).pending compiles.1 stay keeps.1 pending
      with still | ⟨document, answer, ends⟩
    · have holds : (EditorCopy.ofSteps uri (before ++ [s])).isSome = true := by
        rw [EditorCopy.ofSteps_concat, EditorCopy.after_isSome]
        exact Or.inr ⟨held, stay⟩
      have next := ih (before ++ [s]) holds still (run_concat a before s ▸ compiles.2)
        (run_concat a before s ▸ keeps.2) fun t member => stays t (List.mem_cons_of_mem s member)
      rw [List.append_assoc, List.singleton_append] at next
      refine next.imp_right ?_
      rintro ⟨mid, t, after, document, answer, version, text, rfl, ends, answered, copy, same⟩
      rw [List.append_assoc, List.singleton_append] at ends answered copy
      exact ⟨s :: mid, t, after, document, answer, version, text, rfl, ends, answered, copy, same⟩
    · obtain ⟨answered, version, text, copy, same⟩ := h.compiles_copy held ends
      rw [← List.append_nil before] at ends answered copy
      exact Or.inr ⟨[], s, rest, document, answer, version, text, rfl, ends, answered, copy, same⟩

/-- After a change of a document that is accepted, that text or one that came
after it was handed to the compiler and the compilation has ended when no pass
is pending any more, as long as no save drops it. -/
theorem start_compiles_changes (catalog : Catalog) (settings : Settings)
    (compiler : Option Compiler) (uri : String)
    (before later : List Step) (s : Step) (version : Int) (text : List Char)
    (change : s.action = .change uri version text)
    (accepted : ((start catalog settings compiler).run before).acceptsChange uri version = true)
    (stays : ∀ t ∈ later, t.action ≠ .close uri)
    (compiles : AlwaysCompiles ((start catalog settings compiler).run before) (s :: later))
    (keeps : NeverDrops uri ((start catalog settings compiler).run (before ++ [s])) later)
    (rest : ((start catalog settings compiler).run (before ++ s :: later)).AtRest uri) :
    (start catalog settings compiler).CompletedIn uri (before ++ [s]) later := by
  have begun := start_begun catalog settings compiler uri
  have held : (EditorCopy.ofSteps uri (before ++ [s])).isSome = true := by
    rw [EditorCopy.ofSteps_concat, EditorCopy.after_isSome]
    exact Or.inl ⟨version, text, change⟩
  have starts : ((start catalog settings compiler).run before).startsPass uri s.action = true := by
    rw [change, startsPass, accepted, beq_self_eq_true, Bool.and_self]
  have pending := (begun.turns before s).pending_of_change compiles.1 starts change
  have split : before ++ s :: later = (before ++ [s]) ++ later := by
    rw [List.append_assoc, List.singleton_append]
  rw [split] at rest
  refine (begun.completes later (before ++ [s]) held pending ?_ keeps stays).resolve_left ?_
  · rw [run_concat]
    exact compiles.2
  · rw [ne_eq, Decidable.not_not]
    exact atRest_iff.mp rest

/-- A compiler that has nothing to say, and says so at once. -/
def silent : Compiler := ⟨0, fun _ => .messages []⟩

/-- A document is opened. -/
def opening : Step :=
  ⟨.empty, .change "file:///a.yar" 1 "rule a \x7b condition: true \x7d".toList⟩

/-- The document is changed once more and saved before its pass is due. -/
def changedAndSaved : List Step :=
  [⟨.empty, .change "file:///a.yar" 2 "rule b \x7b condition: true \x7d".toList⟩,
    ⟨.empty, .save "file:///a.yar" none⟩, ⟨.empty, .wake 2⟩, ⟨.empty, .wake 2⟩,
    ⟨.empty, .tick 300⟩, ⟨.empty, .wake 0⟩, ⟨.empty, .wake 1⟩]

theorem start_compiles_changes_changedAndSaved :
    AlwaysCompiles (start ⟨[]⟩ .standard (some silent)) (opening :: changedAndSaved) ∧
    NeverDrops "file:///a.yar" ((start ⟨[]⟩ .standard (some silent)).run [opening])
      changedAndSaved ∧
    ((start ⟨[]⟩ .standard (some silent)).run (opening :: changedAndSaved)).AtRest
      "file:///a.yar" ∧
    (start ⟨[]⟩ .standard (some silent)).CompletedIn "file:///a.yar" [opening]
      changedAndSaved := by
  have always : ∀ n, n ≤ 8 → ((start ⟨[]⟩ .standard (some silent)).run
      ((opening :: changedAndSaved).take n)).CompilesChanges := by
    have computed : (List.range 9).all fun n => 
        ((start ⟨[]⟩ .standard (some silent)).run
          ((opening :: changedAndSaved).take n)).compiler.isSome &&
        ((start ⟨[]⟩ .standard (some silent)).run
          ((opening :: changedAndSaved).take n)).settings.compileOnChange := by decide +kernel
    intro n le
    have := List.all_eq_true.mp computed n (List.mem_range.mpr (by omega))
    exact Bool.and_eq_true_iff.mp this
  have compiles : AlwaysCompiles (start ⟨[]⟩ .standard (some silent))
      (opening :: changedAndSaved) :=
    ⟨always 0 (by decide), always 1 (by decide), always 2 (by decide), always 3 (by decide),
      always 4 (by decide), always 5 (by decide), always 6 (by decide), always 7 (by decide),
      always 8 (by decide)⟩
  have keeps : NeverDrops "file:///a.yar" ((start ⟨[]⟩ .standard (some silent)).run [opening])
      changedAndSaved := by
    have on_save : ((start ⟨[]⟩ .standard (some silent)).run
        ((opening :: changedAndSaved).take 2)).settings.compileOnSave = true := by decide +kernel
    refine ⟨?_, ?_, ?_, ?_, ?_, ?_, ?_, trivial⟩ <;> rintro ⟨_, saves, off, _⟩
    case refine_2 => exact Bool.false_ne_true (off.symm.trans on_save)
    all_goals cases saves
  have no_passes :
      ((start ⟨[]⟩ .standard (some silent)).run (opening :: changedAndSaved)).passes = [] :=
    List.isEmpty_iff.mp (by decide +kernel)
  have rest : ((start ⟨[]⟩ .standard (some silent)).run (opening :: changedAndSaved)).AtRest
      "file:///a.yar" := by
    intro p member
    rw [no_passes] at member
    cases member
  refine ⟨compiles, keeps, rest,
    start_compiles_changes ⟨[]⟩ .standard (some silent) "file:///a.yar" [] changedAndSaved
    opening 1 _ rfl (by decide +kernel) ?_ compiles keeps rest⟩
  simp [changedAndSaved]

end Analysis

end RuleDesk
