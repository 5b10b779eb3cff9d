import RuleDesk.Proofs.Analysis.Step

namespace RuleDesk

namespace Analysis

/-- The number of the pass that was started last for an open document. -/
def lastPass? (a : Analysis) (uri : String) : Option Nat := (a.open? uri).map (·.pass)

theorem isCurrent_iff (a : Analysis) (p : Pass) :
    a.isCurrent p = true ↔ a.lastPass? p.uri = some p.number := by
  unfold isCurrent lastPass?
  cases a.open? p.uri with
  | none => simp
  | some d => simp

/-- The passes, their numbering and the last pass of each document stay. -/
structure SamePasses (a b : Analysis) : Prop where
  passes : b.passes = a.passes
  nextPass : b.nextPass = a.nextPass
  last : ∀ uri, b.lastPass? uri = a.lastPass? uri

variable {a b c : Analysis}

theorem SamePasses.refl (a : Analysis) : SamePasses a a := ⟨rfl, rfl, fun _ => rfl⟩

theorem SamePasses.trans (h : SamePasses a b) (h' : SamePasses b c) : SamePasses a c :=
  ⟨h'.passes.trans h.passes, h'.nextPass.trans h.nextPass,
    fun uri => (h'.last uri).trans (h.last uri)⟩

theorem SamePasses.foldl {α : Type} {f : Analysis → α → Analysis}
    (step : ∀ a x, SamePasses a (f a x))
    (xs : List α) (a : Analysis) : SamePasses a (xs.foldl f a) := by
  induction xs generalizing a with
  | nil => exact .refl a
  | cons x rest ih => exact (step a x).trans (ih (f a x))

theorem update_samePasses (a : Analysis) (uri : String) {f : OpenDocument → OpenDocument}
    (keeps : ∀ d, (f d).uri = d.uri) (same : ∀ d, (f d).pass = d.pass) :
    SamePasses a (a.update uri f) := by
  refine ⟨rfl, rfl, fun other => ?_⟩
  rw [lastPass?, lastPass?, update_open? a uri other f keeps]
  split
  · rw [Option.map_map]
    exact congrArg (fun g => Option.map g (a.open? other)) (funext same)
  · rfl

theorem record_samePasses (a : Analysis) (e : Event) : SamePasses a (a.record e) :=
  ⟨rfl, rfl, fun _ => rfl⟩

theorem moveTo_samePasses (a : Analysis) (uri : String) (phase : Phase) :
    SamePasses a (a.moveTo uri phase) := by
  unfold moveTo
  split
  · exact .refl a
  · have moved := update_samePasses a uri (f := ({ · with phase })) (fun _ => rfl) (fun _ => rfl)
    exact ⟨moved.passes, moved.nextPass, moved.last⟩

theorem publish_samePasses (a : Analysis) (uri : String) (version : Option Int)
    (compiled : List Diagnostic) :
    SamePasses a (a.publish uri version compiled) := by
  unfold publish
  split
  · split
    · have marked := update_samePasses a uri (f := ({ · with lastPublished := version }))
        (fun _ => rfl) (fun _ => rfl)
      exact ⟨marked.passes, marked.nextPass, marked.last⟩
    · exact .refl a
  · exact .refl a

theorem republish_samePasses (a : Analysis) (uri : String) : SamePasses a (a.republish uri) := by
  unfold republish
  split
  · exact publish_samePasses a uri _ _
  · exact .refl a

theorem replaceSnapshot_samePasses (a : Analysis) (changed : Option String) (s : Snapshot) :
    SamePasses a (a.replaceSnapshot changed s) :=
  SamePasses.trans (b := { a with snapshot := s }) ⟨rfl, rfl, fun _ => rfl⟩
    (.foldl republish_samePasses _ _)

theorem readFile_samePasses (a : Analysis) (disk : Disk) (uri : String) :
    SamePasses a (a.readFile disk uri).2 := by
  obtain ⟨⟨nextOrder, read⟩, _⟩ := readFile_spec a disk uri
  rw [read]
  exact ⟨rfl, rfl, fun _ => rfl⟩

theorem fileChanged_samePasses (disk : Disk) (a : Analysis) (change : String × FileChange) :
    SamePasses a (a.fileChanged disk change) := by
  obtain ⟨uri, kind⟩ := change
  have read := readFile_samePasses a disk uri
  have with_file : ∀ x b, a.readFile disk uri = (some x, b) →
      SamePasses a (b.replaceSnapshot none (b.snapshot.withDocument x)) := by
    intro x b run
    rw [run] at read
    exact read.trans (replaceSnapshot_samePasses b none _)
  have without_file : ∀ b, a.readFile disk uri = (none, b) → SamePasses a b := by
    intro b run
    rw [run] at read
    exact read
  unfold fileChanged
  dsimp only
  split
  · exact .refl a
  · cases kind with
    | created =>
      dsimp only
      split
      · exact with_file _ _ ‹_›
      · exact without_file _ ‹_›
    | changed =>
      dsimp only
      split
      · exact with_file _ _ ‹_›
      · exact without_file _ ‹_›
    | deleted => exact replaceSnapshot_samePasses a none _
    | other => exact .refl a

/-- Passes have numbers that were given out, and one number means one document. -/
structure Numbered (a : Analysis) : Prop where
  given : ∀ p ∈ a.passes, p.number < a.nextPass
  one : ∀ p ∈ a.passes, ∀ q ∈ a.passes, p.number = q.number → p.uri = q.uri

/-- From `a` to `b` numbers are given out in order: a pass that waits in `b`
was there before or has a new number, and so has the last of a document. -/
structure Advances (a b : Analysis) : Prop where
  numbered : b.Numbered
  nextPass : a.nextPass ≤ b.nextPass
  pending : ∀ p ∈ b.passes, (∃ q ∈ a.passes, q.number = p.number ∧ q.uri = p.uri) ∨
      a.nextPass ≤ p.number
  last : ∀ uri n, b.lastPass? uri = some n → a.lastPass? uri = some n ∨ a.nextPass ≤ n

theorem Advances.refl (h : a.Numbered) : Advances a a :=
  ⟨h, Nat.le_refl _, fun p member => Or.inl ⟨p, member, rfl, rfl⟩, fun _ _ => Or.inl⟩

theorem Advances.trans (h : Advances a b) (h' : Advances b c) : Advances a c := by
  refine ⟨h'.numbered, Nat.le_trans h.nextPass h'.nextPass, ?_, ?_⟩
  · intro p member
    rcases h'.pending p member with ⟨q, earlier, number, at_uri⟩ | new
    · rcases h.pending q earlier with ⟨r, first, number', at_uri'⟩ | new
      · exact Or.inl ⟨r, first, number'.trans number, at_uri'.trans at_uri⟩
      · exact Or.inr (number ▸ new)
    · exact Or.inr (Nat.le_trans h.nextPass new)
  · intro uri n at_uri
    rcases h'.last uri n at_uri with earlier | new
    · exact h.last uri n earlier
    · exact Or.inr (Nat.le_trans h.nextPass new)

theorem Advances.same (h : Advances a b) (h' : SamePasses b c) : Advances a c := by
  refine ⟨⟨?_, ?_⟩, ?_, ?_, ?_⟩
  · rw [h'.passes, h'.nextPass]
    exact h.numbered.given
  · rw [h'.passes]
    exact h.numbered.one
  · rw [h'.nextPass]
    exact h.nextPass
  · rw [h'.passes]
    exact h.pending
  · intro uri n at_uri
    exact h.last uri n ((h'.last uri).symm.trans at_uri)

/-- A pass is put into the queue, with the number of one that is there for the
same document, or with one that was given out after `a`. -/
theorem Advances.enqueue (h : Advances a b) {p : Pass} (given : p.number < b.nextPass)
    (origin : (∃ q ∈ a.passes, q.number = p.number ∧ q.uri = p.uri) ∨ a.nextPass ≤ p.number)
    (one : ∀ q ∈ b.passes, q.number = p.number → q.uri = p.uri) :
    Advances a { b with passes := b.passes ++ [p] } := by
  refine ⟨⟨?_, ?_⟩, h.nextPass, ?_, h.last⟩
  · intro q member
    rcases List.mem_append.mp member with old | new
    · exact h.numbered.given q old
    · rw [List.mem_singleton.mp new]
      exact given
  · intro q member r member' same
    rcases List.mem_append.mp member with old | new
    · rcases List.mem_append.mp member' with old' | new'
      · exact h.numbered.one q old r old' same
      · rw [List.mem_singleton.mp new'] at same ⊢
        exact one q old same
    · rw [List.mem_singleton.mp new] at same ⊢
      rcases List.mem_append.mp member' with old' | new'
      · exact (one r old' same.symm).symm
      · rw [List.mem_singleton.mp new']
  · intro q member
    rcases List.mem_append.mp member with old | new
    · exact h.pending q old
    · rw [List.mem_singleton.mp new]
      exact origin

theorem Begins.advances {uri : String} {version : Option Int} (h : a.Numbered)
    (started : Begins a b uri version) :
    Advances a b := by
  refine ⟨⟨?_, ?_⟩, ?_, ?_, ?_⟩
  · intro p member
    rw [started.passes] at member
    rw [started.nextPass]
    exact Nat.lt_succ_of_lt (h.given p member)
  · rw [started.passes]
    exact h.one
  · rw [started.nextPass]
    exact Nat.le_succ _
  · intro p member
    rw [started.passes] at member
    exact Or.inl ⟨p, member, rfl, rfl⟩
  · intro other n at_other
    by_cases eq : other = uri
    · obtain ⟨d, opened, _, number, _⟩ := started.here
      rw [eq, lastPass?, opened, Option.map_some, number] at at_other
      exact Or.inr (Nat.le_of_eq (Option.some.inj at_other))
    · rw [lastPass?, started.others other eq] at at_other
      exact Or.inl at_other

/-- The number that a pass got is new, whatever happens before it is used. -/
theorem Begins.fresh {uri : String} {version : Option Int} (h : a.Numbered)
    (started : Begins a b uri version) (same : SamePasses b c) :
    a.nextPass < c.nextPass ∧ ∀ q ∈ c.passes, q.number = a.nextPass → q.uri = uri := by
  rw [same.nextPass, same.passes, started.nextPass, started.passes]
  refine ⟨Nat.lt_succ_self _, fun q member number => ?_⟩
  have given := h.given q member
  omega

theorem startCompiling_advances (h : Advances a b) {number : Nat} {uri : String}
    (version : Option Int) (given : number < b.nextPass)
    (origin : (∃ q ∈ a.passes, q.number = number ∧ q.uri = uri) ∨ a.nextPass ≤ number)
    (one : ∀ q ∈ b.passes, q.number = number → q.uri = uri) :
    Advances a (b.startCompiling number uri version) := by
  unfold startCompiling
  split
  · exact h.same (publish_samePasses b uri version [])
  · split
    · exact h
    · split
      · have queued := fun due stage =>
          h.enqueue (p := ⟨number, uri, version, due, stage⟩) given origin one
        have moved := fun due stage => (queued due stage).same (moveTo_samePasses _ uri .compiling)
        exact (moved _ _).same ⟨rfl, rfl, fun _ => rfl⟩
      · exact h

theorem schedule_advances (h : Advances a b) {number : Nat} {uri : String} (version : Option Int)
    (saved : Bool) (given : number < b.nextPass) (origin : a.nextPass ≤ number)
    (one : ∀ q ∈ b.passes, q.number = number → q.uri = uri) :
    Advances a (b.schedule number uri version saved) := by
  unfold schedule
  split
  · exact h.same (publish_samePasses b uri version [])
  · exact h.enqueue (p := ⟨number, uri, version, _, _⟩) given (Or.inr origin) one

/-- A pass that has started is scheduled after some steps that start none. -/
theorem Begins.schedule_advances {uri : String} {version : Option Int} (h : a.Numbered)
    (started : Begins a b uri version) (same : SamePasses b c) (saved : Bool) :
    Advances a (c.schedule a.nextPass uri version saved) := by
  obtain ⟨given, one⟩ := started.fresh h same
  exact Analysis.schedule_advances ((started.advances h).same same) version saved given
    (Nat.le_refl _) one

theorem commit_samePasses (a : Analysis) (x : DocumentIndex) : SamePasses a (a.commit x) :=
  (replaceSnapshot_samePasses a _ _).trans (moveTo_samePasses _ _ _)

theorem change_advances (h : a.Numbered) (uri : String) (version : Int) (text : List Char) :
    Advances a (a.change uri version text) := by
  unfold change
  split
  · exact .refl h
  · rename_i number m start
    obtain ⟨rfl, started⟩ := startPass?_eq_some start
    obtain ⟨nextOrder, ordered⟩ := orderOf_spec m uri
    dsimp only
    rw [ordered]
    refine started.schedule_advances h
      (SamePasses.trans (b := { m with nextOrder }) ?_ (commit_samePasses _ _)) false
    exact ⟨rfl, rfl, fun _ => rfl⟩

theorem save_advances (h : a.Numbered) (uri : String) (text : Option (List Char)) :
    Advances a (a.save uri text) := by
  unfold save
  split
  · exact .refl h
  · dsimp only
    split
    · exact .refl h
    · rename_i number m start
      obtain ⟨rfl, started⟩ := startPass?_eq_some start
      cases text with
      | none => exact started.schedule_advances h (moveTo_samePasses m uri .indexed) true
      | some text =>
        dsimp only
        split
        · exact started.schedule_advances h (moveTo_samePasses m uri .indexed) true
        · exact started.schedule_advances h (commit_samePasses m _) true

theorem close_advances (h : a.Numbered) (disk : Disk) (uri : String) :
    Advances a (a.close disk uri) := by
  have closed :
      ∀ nextOrder, Advances a { a with opened := a.opened.filter (·.uri != uri), nextOrder } := by
    intro nextOrder
    refine ⟨⟨h.given, h.one⟩, Nat.le_refl _, (fun p member => Or.inl ⟨p, member, rfl, rfl⟩), ?_⟩
    intro other n at_other
    have kept : (({ a with opened := a.opened.filter (·.uri != uri) } : Analysis).open? other).map
        (·.pass) =
        some n := at_other
    rw [close_open?] at kept
    split at kept
    · cases kept
    · exact Or.inl kept
  have cleared : ∀ nextOrder s, Advances a
      (({ a with opened := a.opened.filter (·.uri != uri), nextOrder }.record
        (.published (.withdrawal uri))).replaceSnapshot (some uri) s) := by
    intro nextOrder s
    have recorded :=
      record_samePasses { a with opened := a.opened.filter (·.uri != uri), nextOrder }
      (.published (.withdrawal uri))
    exact (closed nextOrder).same (recorded.trans (replaceSnapshot_samePasses _ (some uri) s))
  unfold close
  dsimp only
  split
  · obtain ⟨⟨nextOrder, read⟩, _⟩ :=
      readFile_spec { a with opened := a.opened.filter (·.uri != uri) } disk uri
    rw [read]
    exact cleared nextOrder _
  · exact cleared a.nextOrder _

theorem compile_advances (h : a.Numbered) (uri : String) : Advances a (a.compile uri) := by
  unfold compile
  split
  · exact .refl h
  · split
    · exact .refl h
    · rename_i d _ _ number m start
      obtain ⟨rfl, started⟩ := startPass?_eq_some start
      have moved := moveTo_samePasses m uri .indexed
      obtain ⟨given, one⟩ := started.fresh h moved
      exact startCompiling_advances ((started.advances h).same moved) d.version given
        (Or.inr (Nat.le_refl _)) one

theorem Advances.foldl {α : Type} {f : Analysis → α → Analysis}
    (step : ∀ a x, a.Numbered → Advances a (f a x))
    (xs : List α) (h : a.Numbered) : Advances a (xs.foldl f a) := by
  induction xs generalizing a with
  | nil => exact .refl h
  | cons x rest ih =>
    have first := step a x h
    exact first.trans (ih first.numbered)

theorem finishCompiling_samePasses (a : Analysis) (uri : String) (version : Option Int)
    (found : Option (List Diagnostic)) : SamePasses a (a.finishCompiling uri version found) := by
  have kept : SamePasses a (a.update uri fun d =>
      { d with compilerAvailable := found.isSome, compiled := found.map fun ds => ⟨version, ds⟩ }) :=
    update_samePasses a uri (fun _ => rfl) (fun _ => rfl)
  have completed := kept.trans (moveTo_samePasses _ uri .compileComplete)
  have published := completed.trans (publish_samePasses _ uri version (found.getD []))
  exact published.trans (moveTo_samePasses _ uri .indexed)

theorem wake_advances (h : a.Numbered) (number : Nat) : Advances a (a.wake number) := by
  unfold wake
  split
  · exact .refl h
  · rename_i p pending
    split
    · exact .refl h
    · have mem := List.mem_of_find?_eq_some pending
      have same_number := List.find?_some pending
      have number_eq := beq_iff_eq.mp same_number
      have rest : Advances a { a with passes := a.passes.filter (·.number != number) } :=
        ⟨⟨fun q member => h.given q (List.mem_filter.mp member).1,
          fun q member r member' =>
            h.one q (List.mem_filter.mp member).1 r (List.mem_filter.mp member').1⟩,
          Nat.le_refl _, (fun q member => Or.inl ⟨q, (List.mem_filter.mp member).1, rfl, rfl⟩),
            fun _ _ => Or.inl⟩
      dsimp only
      split
      · split
        · refine startCompiling_advances rest p.version (number_eq ▸ h.given p mem)
            (Or.inl ⟨p, mem, number_eq, rfl⟩) fun q member same => ?_
          exact h.one q (List.mem_filter.mp member).1 p mem (same.trans number_eq.symm)
        · exact rest.same (finishCompiling_samePasses _ p.uri p.version _)
      · exact rest

theorem after_advances (h : a.Numbered) (s : Step) : Advances a (a.after s) := by
  unfold after
  cases s.action with
  | change uri version text => exact change_advances h uri version text
  | save uri text => exact save_advances h uri text
  | close uri => exact close_advances h s.disk uri
  | compile uri => exact compile_advances h uri
  | compileAll => exact .foldl (fun _ uri numbered => compile_advances numbered uri) _ h
  | configure _ => exact (Advances.refl h).same ⟨rfl, rfl, fun _ => rfl⟩
  | useCompiler _ => exact (Advances.refl h).same ⟨rfl, rfl, fun _ => rfl⟩
  | cache folder =>
    refine (Advances.refl h).same (SamePasses.trans ?_ (replaceSnapshot_samePasses _ none _))
    obtain ⟨⟨nextOrder, read⟩, _⟩ :=
      readFiles_spec s.disk ((s.disk.ruleFiles folder).filter fun uri => !a.isOpen uri) a
    rw [read]
    exact ⟨rfl, rfl, fun _ => rfl⟩
  | clearCache => exact (Advances.refl h).same (replaceSnapshot_samePasses a none _)
  | watched changes =>
    refine (Advances.refl h).same ?_
    show SamePasses a (a.watched s.disk changes)
    unfold watched
    split
    · exact .foldl (fileChanged_samePasses s.disk) changes a
    · exact .refl a
  | tick _ => exact (Advances.refl h).same ⟨rfl, rfl, fun _ => rfl⟩
  | wake number => exact wake_advances h number

theorem start_numbered (catalog : Catalog) (settings : Settings) (compiler : Option Compiler) :
    (start catalog settings compiler).Numbered :=
  ⟨(fun _ member => nomatch member), fun _ member => nomatch member⟩

theorem run_advances (h : a.Numbered) (steps : List Step) : Advances a (a.run steps) := by
  induction steps generalizing a with
  | nil => exact .refl h
  | cons s rest ih =>
    have first := after_advances h s
    exact first.trans (ih first.numbered)

end Analysis

end RuleDesk
