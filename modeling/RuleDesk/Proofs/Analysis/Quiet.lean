import RuleDesk.Proofs.Analysis.Settled
import RuleDesk.Proofs.Analysis.Texts

namespace RuleDesk

/-- The diagnostics of a publication that were found without the compiler. -/
def Publication.fromAnalysis (p : Publication) : List Diagnostic :=
  p.diagnostics.filter (·.origin == .analysis)

namespace Analysis

/-- True of the actions after which a document is published without having been
compiled: there is no compiler, or nothing is to be compiled when it is saved. -/
def Skips (a : Analysis) (uri : String) : Action → Prop
  | .save other _ => other = uri ∧ a.compileDelay? true = none
  | .compile other => other = uri ∧ a.compiler = none
  | .compileAll => a.compiler = none
  | .wake number =>
    a.compiler = none ∧ ∃ p ∈ a.passes, p.number = number ∧ p.uri = uri ∧ p.stage = .waiting
  | _ => False

/-- Something that the compiler found in the current version is kept. -/
def HasResult (a : Analysis) (uri : String) : Prop := ∃ d, a.open? uri = some d ∧
  d.compiledFor d.version ≠ []

/-- True of the actions that publish a document without the diagnostics that
the compiler found in this very version before. -/
def Misses (a : Analysis) (uri : String) (action : Action) : Prop :=
  a.Skips uri action ∧ a.HasResult uri

variable {a b m : Analysis} {uri other : String} {version : Option Int} {d : OpenDocument}
    {exact : Prop}

theorem HasResult.of_truth (truth : b.truth uri = a.truth uri) (h : b.HasResult uri) :
    a.HasResult uri := by
  obtain ⟨d, opened, found⟩ := h
  rw [truth_of_open opened] at truth
  obtain ⟨e, opened', version, compiled⟩ := open_of_truth truth.symm
  refine ⟨e, opened', ?_⟩
  rw [OpenDocument.compiledFor_congr compiled, version]
  exact found

theorem Prepared.hasResult (h : a.Prepared uri d) (found : d.compiledFor d.version ≠ []) :
    a.HasResult uri :=
  ⟨d, h.opened, found⟩

/-- A version that is newer than the one before was never compiled. -/
theorem Prepared.uncompiled (h : a.Prepared uri d) {new : Int}
    (accepted : d.accepts (some new) false = true) :
    d.compiledFor (some new) = [] := by
  unfold OpenDocument.compiledFor
  split
  · rename_i c kept
    refine if_neg fun same => ?_
    have le := h.results c kept
    rw [same] at le
    unfold OpenDocument.accepts at accepted
    cases current : d.version with
    | none =>
      rw [current] at le
      exact le
    | some v =>
      rw [current] at le accepted
      simp only [Bool.and_false, Bool.or_false, decide_eq_true_eq] at accepted
      have le : new ≤ v := le
      omega
  · rfl

/-! ### Passes -/

theorem Starts.steady (started : Starts a m other version) (ne : uri ≠ other) : Steady a m uri := by
  refine ⟨?_, fun p _ _ => ?_, ?_, ?_, ?_⟩
  · rw [started.others uri ne]
  · rw [started.passes]
  · rw [lastPublished?, lastPublished?, started.publications]
  · rw [started.snapshot]
  · rw [started.snapshot]

/-- A pass over a version that the snapshot shows has just started. No other
pass has its number. -/
theorem Starts.prepared (started : Starts a m uri version) (numbered : a.Numbered)
    (h : a.Settles uri exact)
    (le : ∀ d, a.open? uri = some d → versionLe d.version version) {s : Snapshot} (nextOrder : Nat)
    (shown : ∃ x, s.document? uri = some x ∧ x.document.version = version) :
    ∃ d, ({ m with nextOrder, snapshot := s } : Analysis).Prepared uri d ∧ d.version = version ∧
      d.pass = a.nextPass ∧ d.compiled = ((a.open? uri).getD (.unanalyzed uri)).compiled := by
  refine ⟨_, ⟨started.opened, shown, ?_, ?_, ?_⟩, rfl, rfl, rfl⟩
  · cases opened : a.open? uri with
    | none => trivial
    | some d => exact versionLe_trans (h.prepared d opened).newest (le d opened)
  · intro c kept
    cases opened : a.open? uri with
    | none =>
      rw [opened] at kept
      cases kept
    | some d =>
      rw [opened] at kept
      exact versionLe_trans ((h.prepared d opened).results c kept) (le d opened)
  · intro p member _ number
    have given := numbered.given p (started.passes ▸ member)
    have same : p.number = a.nextPass := number
    omega

theorem Prepared.schedule (h : a.Prepared uri d) {number : Nat} (pass : d.pass = number)
    (at_version : d.version = version)
    (saved : Bool) (kept : exact → a.compileDelay? saved = none → d.compiledFor d.version = []) :
    (a.schedule number uri version saved).Settles uri exact := by
  subst pass at_version
  unfold Analysis.schedule
  split
  · rename_i skipped
    exact h.publish (Or.inl rfl) fun holds => (kept holds skipped).symm
  · exact h.enqueue _ _

theorem Prepared.startCompiling (h : a.Prepared uri d) {number : Nat} (pass : d.pass = number)
    (at_version : d.version = version)
    (kept : exact → a.compiler = none → d.compiledFor d.version = []) :
    (a.startCompiling number uri version).Settles uri exact := by
  subst pass at_version
  obtain ⟨x, in_snapshot, shown⟩ := h.shown
  unfold Analysis.startCompiling
  split
  · rename_i missing
    exact h.publish (Or.inl rfl) fun holds => (kept holds missing).symm
  · rw [in_snapshot]
    dsimp only
    rw [if_pos shown]
    have queued : ∀ due stage,
        ({ a with passes := a.passes ++ [⟨d.pass, uri, d.version, due, stage⟩] } :
        Analysis).Settles uri exact := h.enqueue
    exact ((queued _ _).steady (moveTo_steady _ uri .compiling)).steady (record_steady _ _ nofun)

/-- What the compiler found is kept before it is published. -/
theorem Prepared.finishCompiling (h : a.Prepared uri d) (found : Option (List Diagnostic)) :
    (a.finishCompiling uri d.version found).Settles uri exact := by
  let store : OpenDocument → OpenDocument := fun d' =>
    { d' with compilerAvailable := found.isSome, compiled := found.map fun ds => ⟨d.version, ds⟩ }
  have opened : (a.update uri store).open? uri = some (store d) := by
    rw [update_open? a uri uri store fun _ => rfl, if_pos rfl, h.opened]
    rfl
  have kept : (a.update uri store).Prepared uri (store d) := by
    refine ⟨opened, h.shown, h.newest, fun c some_kept => ?_, h.pending⟩
    obtain ⟨ds, _, rfl⟩ := Option.map_eq_some_iff.mp some_kept
    exact versionLe_refl d.version
  obtain ⟨e, moved, same⟩ := kept.exists_steady (moveTo_steady _ uri .compileComplete)
  simp only [OpenDocument.stand, Prod.mk.injEq] at same
  have all_found : found.getD [] = e.compiledFor e.version := by
    rw [OpenDocument.compiledFor, same.2.1, same.1]
    cases found with
    | none => rfl
    | some ds => exact (if_pos rfl).symm
  have published : (Analysis.publish _ uri e.version (found.getD [])).Settles uri exact :=
    moved.publish (Or.inr all_found) fun _ => all_found
  rw [same.1] at published
  exact published.steady (moveTo_steady _ uri .indexed)

/-! ### The actions, one after the other -/

/-- A document that is free to change is not open, and the others are shown
as before. -/
theorem Settles.replaced (h : a.Settles uri exact) {nextOrder : Nat} {s : Snapshot}
    (replaces : a.Replaces (a.isOpen · = false) nextOrder s) :
    (({ a with nextOrder } : Analysis).replaceSnapshot none s).Settles uri exact := by
  have ordered : Steady a { a with nextOrder } uri := ⟨rfl, fun _ _ _ => .rfl, rfl, rfl, rfl⟩
  by_cases opened : a.isOpen uri = true
  · refine (h.steady ordered).replaceSnapshot nofun (replaces.document? ?_)
    rw [opened]
    exact nofun
  · refine .of_closed ?_
    have last := (replaceSnapshot_samePasses { a with nextOrder } none s).last uri
    have closed : a.open? uri = none := by
      cases found : a.open? uri with
      | none => rfl
      | some d => exact absurd ((isOpen_iff a uri).mpr ⟨d, found⟩) opened
    rw [lastPass?, lastPass?, show ({ a with nextOrder } : Analysis).open? uri = none
      from closed] at last
    exact Option.map_eq_none_iff.mp last

/-- The index of another document comes into the snapshot. -/
theorem Settles.commit_other (h : a.Settles uri exact) {x : DocumentIndex} (ne : uri ≠ other)
    (at_other : x.uri = other)
    (nextOrder : Nat) : (({ a with nextOrder } : Analysis).commit x).Settles uri exact := by
  rw [← at_other] at ne
  have ordered : Steady a { a with nextOrder } uri := ⟨rfl, fun _ _ _ => .rfl, rfl, rfl, rfl⟩
  have same := (a.snapshot.withDocument_document? x uri).trans (if_neg ne)
  have other : some x.uri ≠ some uri := fun eq => ne (Option.some.inj eq).symm
  exact ((h.steady ordered).replaceSnapshot other same).steady (moveTo_steady _ x.uri .indexed)

/-- A pass has put a new index of its document into the snapshot. -/
theorem Starts.commit (started : Starts a m uri version) (numbered : a.Numbered)
    (h : a.Settles uri exact)
    (le : ∀ d, a.open? uri = some d → versionLe d.version version) {x : DocumentIndex}
    (at_uri : x.uri = uri) (at_version : x.document.version = version) (nextOrder : Nat) :
    ∃ d, (({ m with nextOrder } : Analysis).commit x).Prepared uri d ∧ d.version = version ∧
      d.pass = a.nextPass ∧ d.compiled = ((a.open? uri).getD (.unanalyzed uri)).compiled := by
  subst at_uri
  have shown : ∃ y, (m.snapshot.withDocument x).document? x.uri = some y ∧
    y.document.version = version :=
    ⟨x, (m.snapshot.withDocument_document? x x.uri).trans (if_pos rfl), at_version⟩
  obtain ⟨d, prepared, d_version, d_pass, d_compiled⟩ :=
    started.prepared numbered h le nextOrder shown
  have placed : Steady _ (({ m with nextOrder } : Analysis).commit x) x.uri :=
    (replaceSnapshot_steady { m with nextOrder } (m.snapshot.withDocument x)).trans
      (moveTo_steady _ x.uri .indexed)
  obtain ⟨e, prepared', same⟩ := prepared.exists_steady placed
  simp only [OpenDocument.stand, Prod.mk.injEq] at same
  exact ⟨e, prepared', same.1.trans d_version, same.2.2.1.trans d_pass, same.2.1.trans d_compiled⟩

theorem Settles.change (h : a.Settles uri exact) (numbered : a.Numbered) (other : String)
    (new : Int) (text : List Char) : (a.change other new text).Settles uri exact := by
  rcases change_cases a other new text
    with ⟨_, same⟩ | ⟨m, order, nextOrder, accepted, started, _, same⟩
  · rw [same]
    exact h
  · rw [same]
    by_cases here : other = uri
    · subst here
      have le : ∀ d, a.open? other = some d → versionLe d.version (some new) := fun d opened =>
        started.versionLe nofun d.version d.compiled (truth_of_open opened)
      obtain ⟨d, prepared, d_version, d_pass, d_compiled⟩ :=
        started.commit numbered h le
          (x := (Document.ofText other (some new) text).index a.catalog order) rfl rfl nextOrder
      refine prepared.schedule d_pass d_version false fun _ _ => ?_
      rw [d_version, OpenDocument.compiledFor_congr d_compiled]
      unfold acceptsChange at accepted
      cases opened : a.open? other with
      | none => rfl
      | some before =>
        rw [opened] at accepted
        exact (h.prepared before opened).uncompiled accepted
    · exact ((h.steady (started.steady (Ne.symm here))).commit_other
        (Ne.symm here) rfl nextOrder).steady (schedule_steady _ _ here (some new) false)

/-- What is saved is compiled again, unless it is not to be compiled. -/
theorem Settles.save (h : a.Settles uri exact) (numbered : a.Numbered) (sound : a.Sound)
    (other : String) (text : Option (List Char)) :
    (a.save other text).Settles uri (exact ∧ ¬ a.Misses uri (.save other text)) := by
  rcases save_cases sound other text
    with ⟨_, same⟩ | ⟨current, m, b, in_snapshot, started, same, saved⟩
  · rw [same]
    exact h.weaken And.left
  · rw [same]
    by_cases here : other = uri
    · subst here
      have same_version : ∀ d, a.open? other = some d → d.version = current.document.version := by
        intro d opened
        obtain ⟨x, found, version⟩ := (h.prepared d opened).shown
        rw [← version, Option.some.inj (found.symm.trans in_snapshot)]
      have le : ∀ d, a.open? other = some d → versionLe d.version current.document.version :=
        fun d opened =>
        same_version d opened ▸ versionLe_refl _
      -- the pass is over the version that is there, and so what was found in it is still kept
      obtain ⟨d, prepared, d_version, d_pass, d_compiled, frame⟩ : ∃ d, b.Prepared other d ∧
          d.version = current.document.version ∧ d.pass = a.nextPass ∧
          d.compiled = ((a.open? other).getD (.unanalyzed other)).compiled ∧ SameFrame m b := by
        rcases saved with ⟨rfl, _⟩ | ⟨t, _, rfl⟩
        · have shown : ∃ x, m.snapshot.document? other = some x ∧
            x.document.version = current.document.version :=
            ⟨current, started.snapshot ▸ in_snapshot, rfl⟩
          obtain ⟨d, prepared, d_version, d_pass, d_compiled⟩ :=
            started.prepared numbered h le m.nextOrder shown
          obtain ⟨e, prepared', stand⟩ := prepared.exists_steady (moveTo_steady m other .indexed)
          simp only [OpenDocument.stand, Prod.mk.injEq] at stand
          exact ⟨e, prepared', stand.1.trans d_version, stand.2.2.1.trans d_pass,
            stand.2.1.trans d_compiled, moveTo_sameFrame m other .indexed⟩
        · obtain ⟨d, prepared, d_version, d_pass, d_compiled⟩ := started.commit numbered h le
            (x := (Document.ofText other current.document.version t).index a.catalog current.order)
              rfl rfl m.nextOrder
          exact ⟨d, prepared, d_version, d_pass, d_compiled, commit_sameFrame m _⟩
      refine prepared.schedule d_pass d_version true fun holds skipped => ?_
      refine Classical.byContradiction fun found => ?_
      refine holds.2 ⟨⟨rfl, ?_⟩, ?_⟩
      · exact ((started.frame.trans frame).compileDelay? true).symm.trans skipped
      · rw [d_version, OpenDocument.compiledFor_congr d_compiled] at found
        cases opened : a.open? other with
        | none =>
          rw [opened] at found
          exact absurd rfl found
        | some before =>
          rw [opened, Option.getD_some, ← same_version before opened] at found
          exact ⟨before, opened, found⟩
    · refine Settles.steady ?_ (schedule_steady b _ here current.document.version true)
      have elsewhere : m.Settles uri (exact ∧ ¬ a.Misses uri (.save other text)) :=
        (h.steady (started.steady (Ne.symm here))).weaken And.left
      rcases saved with ⟨rfl, _⟩ | ⟨t, _, rfl⟩
      · exact elsewhere.steady (moveTo_steady m other .indexed)
      · exact elsewhere.commit_other (Ne.symm here) rfl m.nextOrder

theorem Settles.close (h : a.Settles uri exact) (disk : Disk) (other : String) :
    (a.close disk other).Settles uri exact := by
  obtain ⟨nextOrder, s, replaces, _, same⟩ := close_cases a disk other
  rw [same]
  by_cases here : uri = other
  · subst here
    refine .of_closed ?_
    have last :=
      (replaceSnapshot_samePasses (({ a with opened := a.opened.filter (·.uri != uri), nextOrder } :
      Analysis).record (.published (.withdrawal uri))) (some uri) s).last uri
    have closed :
      ({ a with opened := a.opened.filter (·.uri != uri) } : Analysis).open? uri = none :=
      (close_open? a uri uri).trans (if_pos rfl)
    unfold lastPass? at last
    rw [record_open?] at last
    have none_left := last.trans (congrArg (Option.map (·.pass)) closed)
    exact Option.map_eq_none_iff.mp none_left
  · have removed :
        Steady a { a with opened := a.opened.filter (·.uri != other), nextOrder } uri := by
      have open_left := (close_open? a other uri).trans (if_neg here)
      exact ⟨congrArg (Option.map (·.stand)) open_left, fun _ _ _ => .rfl, rfl, rfl, rfl⟩
    have withdrawn := (h.steady removed).steady (record_steady _ (.published (.withdrawal other))
      fun p same => by cases same; exact Ne.symm here)
    exact withdrawn.replaceSnapshot (fun eq => here (Option.some.inj eq).symm)
      (replaces.document? here)

theorem Settles.compile (h : a.Settles uri exact) (numbered : a.Numbered) (other : String) :
    (a.compile other).Settles uri (exact ∧ ¬ a.Misses uri (.compile other)) := by
  rcases compile_cases a other with ⟨_, same⟩ | ⟨d, m, opened, started, same⟩
  · rw [same]
    exact h.weaken And.left
  · rw [same]
    by_cases here : other = uri
    · subst here
      have le : ∀ e, a.open? other = some e → versionLe e.version d.version := fun e opened' =>
        Option.some.inj (opened.symm.trans opened') ▸ versionLe_refl _
      have shown : ∃ x, m.snapshot.document? other = some x ∧ x.document.version = d.version := by
        rw [started.snapshot]
        exact (h.prepared d opened).shown
      obtain ⟨e, prepared, e_version, e_pass, e_compiled⟩ :=
        started.prepared numbered h le m.nextOrder shown
      obtain ⟨f, prepared', stand⟩ := prepared.exists_steady (moveTo_steady m other .indexed)
      simp only [OpenDocument.stand, Prod.mk.injEq] at stand
      obtain ⟨f_version, f_compiled, f_pass, _⟩ := stand
      refine prepared'.startCompiling (f_pass.trans e_pass) (f_version.trans e_version)
        fun holds missing => ?_
      refine Classical.byContradiction fun found => ?_
      refine holds.2 ⟨⟨rfl, ?_⟩, d, opened, ?_⟩
      · rw [← missing, (moveTo_sameFrame m other .indexed).compiler, started.frame.compiler]
      · rw [opened] at e_compiled
        rw [f_version, e_version,
          OpenDocument.compiledFor_congr (f_compiled.trans e_compiled)] at found
        exact found
    · have elsewhere :=
        (h.steady (started.steady (Ne.symm here))).steady (moveTo_steady m other .indexed)
      exact (elsewhere.steady (startCompiling_steady _ _ here d.version)).weaken And.left

theorem Settles.compileAll (h : a.Settles uri exact) (numbered : a.Numbered) (sound : a.Sound) :
    a.compileAll.Settles uri (exact ∧ ¬ a.Misses uri .compileAll) := by
  have walk : ∀ (uris : List String) (b : Analysis),
      b.Settles uri (exact ∧ ¬ a.Misses uri .compileAll) → b.Numbered →
      b.Sound → b.compiler = a.compiler → b.truth uri = a.truth uri →
      (uris.foldl Analysis.compile b).Settles uri (exact ∧ ¬ a.Misses uri .compileAll) := by
    intro uris
    induction uris with
    | nil => exact fun _ settles _ _ _ _ => settles
    | cons first rest ih =>
      intro b settles numbered sound compiler truth
      have proceeds := compile_proceeds sound first
      refine ih _ ((settles.compile numbered first).weaken fun holds =>
        ⟨holds, fun missed => holds.2 ?_⟩)
        (compile_advances numbered first).numbered proceeds.sound
          ((compile_sameFrame b first).compiler.trans compiler)
        ((proceeds.truth uri).trans truth)
      exact ⟨compiler.symm.trans missed.1.2, missed.2.of_truth truth⟩
  exact walk _ a (h.weaken And.left) numbered sound rfl rfl

theorem Settles.watched (h : a.Settles uri exact) (disk : Disk)
    (changes : List (String × FileChange)) :
    (a.watched disk changes).Settles uri exact := by
  have all : ∀ (changes : List (String × FileChange)) (b : Analysis), b.Settles uri exact →
      (changes.foldl (fileChanged disk) b).Settles uri exact := by
    intro changes
    induction changes with
    | nil => exact fun _ settles => settles
    | cons change rest ih =>
      intro b settles
      refine ih _ ?_
      rcases fileChanged_cases b disk change with same | ⟨nextOrder, s, replaces, same⟩
      · rw [same]
        exact settles
      · rw [same]
        exact settles.replaced replaces
  unfold Analysis.watched
  split
  · exact all changes a h
  · exact h

/-- A pass that is due goes on with its document, if it is the last one. -/
theorem Settles.wake (h : a.Settles uri exact) (numbered : a.Numbered) (number : Nat) :
    (a.wake number).Settles uri (exact ∧ ¬ a.Misses uri (.wake number)) := by
  unfold Analysis.wake
  split
  · exact h.weaken And.left
  · rename_i p found
    have member := List.mem_of_find?_eq_some found
    have same_number := List.find?_some found
    have number_eq : p.number = number := beq_iff_eq.mp same_number
    split
    · exact h.weaken And.left
    · -- what is taken out of the queue are passes of the one document
      have rest : p.uri ≠ uri ∨ a.isCurrent p = false →
          Steady a { a with passes := a.passes.filter (·.number != number) } uri := by
        intro other
        refine ⟨rfl, fun q at_uri last => ?_, rfl, rfl, rfl⟩
        refine ⟨fun inside => (List.mem_filter.mp inside).1, fun inside =>
          List.mem_filter.mpr ⟨inside, ?_⟩⟩
        refine bne_iff_ne.mpr fun taken => ?_
        have same_uri := numbered.one p member q inside (number_eq.trans taken.symm)
        rcases other with ne | stale
        · exact ne (same_uri.trans at_uri)
        · have current : a.isCurrent p = true := by
            rw [isCurrent_iff, same_uri, at_uri, last, number_eq, taken]
          rw [current] at stale
          cases stale
      dsimp only
      split
      · rename_i current
        by_cases here : p.uri = uri
        · obtain ⟨d, opened, pass⟩ := Option.map_eq_some_iff.mp ((isCurrent_iff a p).mp current)
          rw [here] at opened ⊢
          have before := h.prepared d opened
          have version := before.pending p member here pass.symm
          have prepared :
            ({ a with passes := a.passes.filter (·.number != number) } : Analysis).Prepared uri d :=
            ⟨opened, before.shown, before.newest, before.results,
              fun q inside => before.pending q (List.mem_filter.mp inside).1⟩
          rw [version]
          split
          · rename_i waiting
            refine prepared.startCompiling (pass.trans number_eq) rfl fun holds missing => ?_
            refine Classical.byContradiction fun kept => ?_
            exact holds.2 ⟨⟨missing, p, member, number_eq, here, waiting⟩, before.hasResult kept⟩
          · exact prepared.finishCompiling _
        · have steady := h.steady (rest (Or.inl here))
          split
          · exact (steady.steady (startCompiling_steady _ number here p.version)).weaken And.left
          · exact (steady.steady (finishCompiling_steady _ here p.version _)).weaken And.left
      · rename_i stale
        exact (h.steady (rest (Or.inr (Bool.eq_false_iff.mpr stale)))).weaken And.left

/-- Every step leaves a document up to date or with a pass pending, and the
compiler's diagnostics in place unless it goes without them. -/
theorem Settles.after (h : a.Settles uri exact) (numbered : a.Numbered) (sound : a.Sound)
    (s : Step) :
    (a.after s).Settles uri (exact ∧ ¬ a.Misses uri s.action) := by
  unfold Analysis.after
  cases action : s.action with
  | change other version text => exact (h.change numbered other version text).weaken And.left
  | save other text => exact h.save numbered sound other text
  | close other => exact (h.close s.disk other).weaken And.left
  | compile other => exact h.compile numbered other
  | compileAll => exact h.compileAll numbered sound
  | configure settings =>
    exact Settles.weaken
      (h.steady (b := { a with settings }) ⟨rfl, fun _ _ _ => .rfl, rfl, rfl, rfl⟩) And.left
  | useCompiler compiler =>
    exact Settles.weaken
      (h.steady (b := { a with compiler }) ⟨rfl, fun _ _ _ => .rfl, rfl, rfl, rfl⟩) And.left
  | cache folder =>
    obtain ⟨nextOrder, t, replaces, same⟩ := cache_cases a s.disk folder
    show (a.cache s.disk folder).Settles uri _
    rw [same]
    exact (h.replaced replaces).weaken And.left
  | clearCache =>
    obtain ⟨t, replaces, same⟩ := clearCache_cases a
    show a.clearCache.Settles uri _
    rw [same]
    exact (h.replaced replaces).weaken And.left
  | watched changes => exact (h.watched s.disk changes).weaken And.left
  | tick time =>
    exact Settles.weaken (h.steady (b := { a with now := a.now + time })
      ⟨rfl, fun _ _ _ => .rfl, rfl, rfl, rfl⟩) And.left
  | wake number => exact h.wake numbered number

/-- True of the runs in which no step misses what was found in a document. -/
def NeverMisses (uri : String) : Analysis → List Step → Prop
  | _, [] => True
  | a, s :: rest => ¬ a.Misses uri s.action ∧ NeverMisses uri (a.after s) rest

theorem run_settles (h : a.Settles uri exact) (numbered : a.Numbered) (sound : a.Sound)
    (steps : List Step) :
    (a.run steps).Settles uri (exact ∧ NeverMisses uri a steps) := by
  induction steps generalizing a exact with
  | nil => exact h.weaken And.left
  | cons s rest ih =>
    have later := ih (h.after numbered sound s) (after_advances numbered s).numbered
      (after_outcome sound s).sound
    exact later.weaken fun ⟨holds, never⟩ => ⟨⟨holds, never.1⟩, never.2⟩

/-- No pass is pending for a document: neither a timer nor the compiler is
waited for. A pass that was superseded does not count, as it has no effect. -/
def AtRest (a : Analysis) (uri : String) : Prop := ∀ p ∈ a.passes, p.uri = uri →
  a.isCurrent p = false

theorem Settles.at_rest (h : a.Settles uri exact) (rest : a.AtRest uri)
    (opened : a.open? uri = some d) :
    a.UpToDate uri d exact := by
  rcases h.settled d opened with ⟨p, member, at_uri, number⟩ | done
  · have current : a.isCurrent p = true := by
      rw [isCurrent_iff, at_uri, lastPass?, opened, number]
      rfl
    rw [rest p member at_uri] at current
    cases current
  · exact done

theorem start_settles (catalog : Catalog) (settings : Settings) (compiler : Option Compiler)
    (uri : String) :
    (start catalog settings compiler).Settles uri True := .of_closed rfl

/-- The last publication for an open document is about its version and its
text, and what is found in it without the compiler is what the snapshot says now. -/
def ShowsSnapshot (a : Analysis) (uri : String) (d : OpenDocument) : Prop :=
  ∃ x p, a.snapshot.document? uri = some x ∧ x.document.version = d.version ∧
    a.lastPublished? uri = some p ∧
    p.version = d.version ∧ p.text = x.document.text ∧
      a.snapshot.diagnostics uri = .ok p.fromAnalysis

/-- The compiler's part of the last publication for a document, which is
pushed, and of its diagnostics that a request gets, which are pulled. The
first one is the second one or is empty, and it is not empty without need. -/
def PushesAsPulled (a : Analysis) (uri : String) (exact : Prop) : Prop :=
  ∃ p pulled, a.lastPublished? uri = some p ∧ a.diagnostics uri = .ok pulled ∧
    (p.fromCompiler = [] ∨ p.fromCompiler = pulled.filter (·.origin == .compiler)) ∧
    (exact → p.fromCompiler = pulled.filter (·.origin == .compiler))

theorem filter_analysis {found compiled : List Diagnostic} (h : AllFrom .analysis found)
    (h' : AllFrom .compiler compiled) :
    (found ++ compiled).filter (·.origin == .analysis) = found := by
  have left : found.filter (·.origin == .analysis) = found := by
    refine List.filter_eq_self.mpr fun d member => ?_
    rw [h d member]
    rfl
  have right : compiled.filter (·.origin == .analysis) = [] := by
    refine List.filter_eq_nil_iff.mpr fun d member => ?_
    rw [h' d member]
    decide
  rw [List.filter_append, left, right, List.append_nil]

theorem compiled_origin (sound : a.Sound) (opened : a.open? uri = some d)
    {compiled : List Diagnostic}
    (part : compiled = [] ∨ compiled = d.compiledFor d.version) : AllFrom .compiler compiled := by
  rcases part with rfl | rfl
  · exact .nil _
  · exact sound.compiledFor opened d.version

/-- Without a compiler, what is changed is published at once. -/
theorem change_without_compiler (absent : a.compiler = none) (uri : String) (version : Int)
    (text : List Char) :
    (a.change uri version text).passes = a.passes ∧
      (a.change uri version text).compiler = none := by
  rcases change_cases a uri version text with ⟨_, same⟩ | ⟨m, order, nextOrder, _, started, _, same⟩
  · rw [same]
    exact ⟨rfl, absent⟩
  · let x := (Document.ofText uri (some version) text).index a.catalog order
    have passes := (commit_samePasses { m with nextOrder } x).passes.trans started.passes
    have compiler :=
      ((commit_sameFrame { m with nextOrder } x).compiler.trans started.frame.compiler).trans absent
    have published : ∀ b : Analysis, b.compiler = none → ∀ number,
        b.schedule number uri (some version) false = b.publish uri (some version) [] := by
      intro b none_there number
      rw [Analysis.schedule, compileDelay?, none_there]
      rfl
    rw [same, published _ compiler]
    exact ⟨(publish_samePasses _ uri _ []).passes.trans passes,
      (publish_sameFrame _ uri _ []).compiler.trans compiler⟩

/-- Two files with a rule of the same name are opened. -/
def twins : List Step :=
  [⟨.empty, .change "file:///a.yar" 1 "rule r \x7b condition: true \x7d".toList⟩,
    ⟨.empty, .change "file:///b.yar" 1 "rule r \x7b condition: false \x7d".toList⟩]

theorem twins_at_rest :
    ∃ d, ((start ⟨[]⟩ .standard none).run twins).open? "file:///b.yar" = some d ∧
    ((start ⟨[]⟩ .standard none).run twins).AtRest "file:///b.yar" := by
  have tracks := run_tracks (start_tracks ⟨[]⟩ .standard none "file:///b.yar")
    (start_sound ⟨[]⟩ .standard none) twins
  obtain ⟨d, opened⟩ := (isOpen_iff _ _).mp (tracks.isOpen rfl)
  have first := change_without_compiler (a := start ⟨[]⟩ .standard none) rfl "file:///a.yar" 1
    "rule r \x7b condition: true \x7d".toList
  have second :=
    change_without_compiler first.2 "file:///b.yar" 1 "rule r \x7b condition: false \x7d".toList
  have no_passes : ((start ⟨[]⟩ .standard none).run twins).passes = [] := second.1.trans first.1
  refine ⟨d, opened, fun p member => ?_⟩
  rw [no_passes] at member
  cases member

/-- What a document is shown with when no pass is pending for it. A conflict
with any other document that comes up, moves or goes away is shown as well. -/
theorem start_shows_snapshot (catalog : Catalog) (settings : Settings) (compiler : Option Compiler)
    (steps : List Step) (uri : String) (d : OpenDocument)
    (opened : ((start catalog settings compiler).run steps).open? uri = some d)
    (rest : ((start catalog settings compiler).run steps).AtRest uri) :
    ((start catalog settings compiler).run steps).ShowsSnapshot uri d := by
  have sound := run_sound (start_sound catalog settings compiler) steps
  have settles := run_settles (start_settles catalog settings compiler uri)
    (start_numbered catalog settings compiler) (start_sound catalog settings compiler) steps
  obtain ⟨x, version⟩ := (settles.prepared d opened).shown
  obtain ⟨y, found, compiled, in_snapshot, diagnosed, published, part, _⟩ :=
    settles.at_rest rest opened
  have same := Option.some.inj (version.1.symm.trans in_snapshot)
  have from_analysis :
    Publication.fromAnalysis ⟨uri, d.version, y.document.text, found ++ compiled⟩ = found :=
    filter_analysis (Snapshot.diagnostics_origin sound.found diagnosed)
      (compiled_origin sound opened part)
  exact ⟨y, _, in_snapshot, same ▸ version.2, published, rfl, rfl, by rw [from_analysis, diagnosed]⟩

theorem start_shows_snapshot_twins :
    ∃ d, ((start ⟨[]⟩ .standard none).run twins).open? "file:///b.yar" = some d ∧
    ((start ⟨[]⟩ .standard none).run twins).AtRest "file:///b.yar" ∧
    ((start ⟨[]⟩ .standard none).run twins).ShowsSnapshot "file:///b.yar" d := by
  obtain ⟨d, opened, rest⟩ := twins_at_rest
  exact ⟨d, opened, rest,
    start_shows_snapshot ⟨[]⟩ .standard none twins "file:///b.yar" d opened rest⟩

/-- What the compiler found is pushed as it is pulled, as long as no step goes
without the compiler although something that it found is kept. -/
theorem start_pushes_as_pulled (catalog : Catalog) (settings : Settings)
    (compiler : Option Compiler) (steps : List Step) (uri : String) (d : OpenDocument)
    (opened : ((start catalog settings compiler).run steps).open? uri = some d)
    (rest : ((start catalog settings compiler).run steps).AtRest uri) :
    ((start catalog settings compiler).run steps).PushesAsPulled uri
      (NeverMisses uri (start catalog settings compiler) steps) := by
  have sound := run_sound (start_sound catalog settings compiler) steps
  have settles := run_settles (start_settles catalog settings compiler uri)
    (start_numbered catalog settings compiler) (start_sound catalog settings compiler) steps
  obtain ⟨x, shown, version⟩ := (settles.prepared d opened).shown
  obtain ⟨y, found, compiled, in_snapshot, diagnosed, published, part, kept⟩ :=
    settles.at_rest rest opened
  have from_analysis := Snapshot.diagnostics_origin sound.found diagnosed
  have pulled : ((start catalog settings compiler).run steps).diagnostics uri =
      .ok (found ++ d.compiledFor d.version) := by
    unfold Analysis.diagnostics Snapshot.require
    rw [shown, diagnosed, opened]
    exact congrArg (fun v => Except.ok (found ++ d.compiledFor v)) version
  have pushed_part : Publication.fromCompiler ⟨uri, d.version, y.document.text, found ++ compiled⟩ =
    compiled :=
    filter_compiler from_analysis (compiled_origin sound opened part)
  have pulled_part : (found ++ d.compiledFor d.version).filter (·.origin == .compiler) =
    d.compiledFor d.version :=
    filter_compiler from_analysis (sound.compiledFor opened d.version)
  refine ⟨_, _, published, pulled, ?_, fun never => ?_⟩
  · rw [pushed_part, pulled_part]
    exact part
  · rw [pushed_part, pulled_part]
    exact kept ⟨trivial, never⟩

/-- A compiler that warns of a slow rule in the first line, and does so at once. -/
def warning : Compiler := ⟨0, fun _ => .messages [⟨"file:///a.yar", 1, .warning, "slow rule"⟩]⟩

/-- A document is opened and compiled. -/
def compiledOnce : List Step :=
  [⟨.empty, .change "file:///a.yar" 1 "rule a \x7b condition: true \x7d".toList⟩,
    ⟨.empty, .tick 300⟩, ⟨.empty, .wake 0⟩, ⟨.empty, .wake 0⟩]

theorem start_pushes_as_pulled_compiledOnce : ∃ d,
    ((start ⟨[]⟩ .standard (some warning)).run compiledOnce).open? "file:///a.yar" = some d ∧
    d.compiledFor d.version ≠ [] ∧
    ((start ⟨[]⟩ .standard (some warning)).run compiledOnce).AtRest "file:///a.yar" ∧
    NeverMisses "file:///a.yar" (start ⟨[]⟩ .standard (some warning)) compiledOnce ∧
    ((start ⟨[]⟩ .standard (some warning)).run compiledOnce).PushesAsPulled "file:///a.yar"
      (NeverMisses "file:///a.yar" (start ⟨[]⟩ .standard (some warning)) compiledOnce) := by
  have kept : ∃ d,
      ((start ⟨[]⟩ .standard (some warning)).run compiledOnce).open? "file:///a.yar" = some d ∧
      d.compiledFor d.version ≠ [] := by
    have found : ((((start ⟨[]⟩ .standard (some warning)).run compiledOnce).open?
        "file:///a.yar").any fun d => !(d.compiledFor d.version).isEmpty) = true := by
      decide +kernel
    obtain ⟨d, opened, some_found⟩ := Option.any_eq_true _ _ |>.mp found
    exact ⟨d, opened, fun none_found => by simp [none_found] at some_found⟩
  obtain ⟨d, opened, found⟩ := kept
  have no_passes : ((start ⟨[]⟩ .standard (some warning)).run compiledOnce).passes = [] :=
    List.isEmpty_iff.mp (by decide +kernel)
  have rest :
      ((start ⟨[]⟩ .standard (some warning)).run compiledOnce).AtRest "file:///a.yar" := by
    intro p member
    rw [no_passes] at member
    cases member
  have in_use : ∀ n ∈ [2, 3], ((start ⟨[]⟩ .standard (some warning)).run
      (compiledOnce.take n)).compiler ≠ none := by
    decide +kernel
  have never : NeverMisses "file:///a.yar" (start ⟨[]⟩ .standard (some warning)) compiledOnce :=
    ⟨And.left, And.left, fun misses => in_use 2 (by decide) misses.1.1,
      fun misses => in_use 3 (by decide) misses.1.1, trivial⟩
  exact ⟨d, opened, found, rest, never,
    start_pushes_as_pulled ⟨[]⟩ .standard (some warning) compiledOnce "file:///a.yar" d opened rest⟩

end Analysis

end RuleDesk
