import RuleDesk.Proofs.Analysis.Passes

namespace RuleDesk

namespace Analysis

/-- True of the actions that start a pass for a document. -/
def startsPass (a : Analysis) (uri : String) : Action → Bool
  | .change other version _ => other == uri && a.acceptsChange other version
  | .save other _ => other == uri && (a.snapshot.document? other).isSome
  | .compile other => other == uri && a.isOpen other
  | .compileAll => a.isOpen uri
  | _ => false

/-- A step ends the passes of a document if it starts another one for the
document or closes it. -/
def Supersedes (a : Analysis) (uri : String) (s : Step) : Prop :=
  closes? s.action = some uri ∨ a.startsPass uri s.action = true

/-- A pass was superseded in a run if some step did so while it was pending.
A document that was closed may have been opened again since. -/
def SupersededIn (a : Analysis) (steps : List Step) (p : Pass) : Prop :=
  ∃ before s later, steps = before ++ s :: later ∧
    (∃ q ∈ (a.run before).passes, q.number = p.number) ∧ (a.run before).Supersedes p.uri s

/-- The last pass of a document, if it is open, was started after `a`. -/
def Renewed (a b : Analysis) (uri : String) : Prop := ∀ n, b.lastPass? uri = some n → a.nextPass ≤ n

variable {a b c : Analysis}

theorem Renewed.later {uri : String} (h : Renewed a b uri) (first : Advances a b)
    (h' : Advances b c) :
    Renewed a c uri := by
  intro n at_uri
  rcases h'.last uri n at_uri with earlier | new
  · exact h n earlier
  · exact Nat.le_trans first.nextPass new

theorem Begins.renewed {uri : String} {version : Option Int} (started : Begins a b uri version)
    (same : SamePasses b c) : Renewed a c uri := by
  intro n at_uri
  obtain ⟨d, opened, _, number, _⟩ := started.here
  rw [same.last uri, lastPass?, opened, Option.map_some, number] at at_uri
  exact Nat.le_of_eq (Option.some.inj at_uri)

theorem schedule_last? (a : Analysis) (number : Nat) (uri : String) (version : Option Int)
    (saved : Bool)
    (other : String) :
    (a.schedule number uri version saved).lastPass? other = a.lastPass? other := by
  unfold schedule
  split
  · exact (publish_samePasses a uri version []).last other
  · rfl

theorem startCompiling_last? (a : Analysis) (number : Nat) (uri : String) (version : Option Int)
    (other : String) :
    (a.startCompiling number uri version).lastPass? other = a.lastPass? other := by
  unfold startCompiling
  split
  · exact (publish_samePasses a uri version []).last other
  · split
    · rfl
    · split
      · exact (moveTo_samePasses { a with passes := _ } uri .compiling).last other
      · rfl

theorem startPass?_isSome {uri : String} {version : Option Int} {sameVersion : Bool}
    (h : ((a.open? uri).getD (.unanalyzed uri)).accepts version sameVersion = true) :
    ∃ number b, a.startPass? uri version sameVersion = some (number, b) := by
  unfold startPass?
  dsimp only
  rw [if_pos h]
  exact ⟨_, _, rfl⟩

theorem change_renewed {uri : String} {version : Int}
    (accepted : a.acceptsChange uri version = true)
    (text : List Char) : Renewed a (a.change uri version text) uri := by
  obtain ⟨number, m, start⟩ := startPass?_isSome accepted
  obtain ⟨_, started⟩ := startPass?_eq_some start
  obtain ⟨nextOrder, ordered⟩ := orderOf_spec m uri
  unfold change
  rw [start]
  dsimp only
  rw [ordered]
  intro n at_uri
  rw [schedule_last?] at at_uri
  have ordered_same : SamePasses m { m with nextOrder } := ⟨rfl, rfl, fun _ => rfl⟩
  exact started.renewed (ordered_same.trans (commit_samePasses _ _)) n at_uri

/-- The same version is accepted again where that is allowed. -/
theorem accepts_same (d : OpenDocument) : d.accepts d.version true = true := by
  unfold OpenDocument.accepts
  split
  · rename_i new current some_new some_current
    rw [some_new] at some_current
    rw [Option.some.inj some_current]
    simp only [beq_self_eq_true, Bool.and_self, Bool.or_true]
  · rfl

theorem save_renewed (h : a.Sound) {uri : String} (known : (a.snapshot.document? uri).isSome = true)
    (text : Option (List Char)) : Renewed a (a.save uri text) uri := by
  obtain ⟨current, in_snapshot⟩ := Option.isSome_iff_exists.mp known
  have accepted : ((a.open? uri).getD (.unanalyzed uri)).accepts current.document.version true =
      true := by
    cases opened : a.open? uri with
    | none =>
      unfold OpenDocument.accepts
      cases current.document.version <;> rfl
    | some d =>
      have shown := h.shown uri d.version d.compiled (truth_of_open opened)
      rw [shownVersion?, in_snapshot, Option.map_some, Option.some.injEq] at shown
      rw [shown]
      exact accepts_same d
  obtain ⟨number, m, start⟩ := startPass?_isSome accepted
  obtain ⟨_, started⟩ := startPass?_eq_some start
  unfold save
  rw [in_snapshot]
  dsimp only
  rw [start]
  dsimp only
  intro n at_uri
  rw [schedule_last?] at at_uri
  cases text with
  | none => exact started.renewed (moveTo_samePasses m uri .indexed) n at_uri
  | some text =>
    dsimp only at at_uri
    split at at_uri
    · exact started.renewed (moveTo_samePasses m uri .indexed) n at_uri
    · exact started.renewed (commit_samePasses m _) n at_uri

theorem compile_renewed {uri : String} (opened : a.isOpen uri = true) :
    Renewed a (a.compile uri) uri := by
  obtain ⟨d, at_uri⟩ := (isOpen_iff a uri).mp opened
  have accepted : ((a.open? uri).getD (.unanalyzed uri)).accepts d.version true = true := by
    rw [at_uri]
    exact accepts_same d
  obtain ⟨number, m, start⟩ := startPass?_isSome accepted
  obtain ⟨_, started⟩ := startPass?_eq_some start
  unfold compile
  rw [at_uri]
  dsimp only
  rw [start]
  dsimp only
  intro n last
  rw [startCompiling_last?] at last
  exact started.renewed (moveTo_samePasses m uri .indexed) n last

theorem compileAll_renewed (h : a.Sound) (numbered : a.Numbered) {uri : String}
    (opened : a.isOpen uri = true) :
    Renewed a a.compileAll uri := by
  -- the documents before it keep it open, and those after it keep its pass
  have walk : ∀ (uris : List String) (m : Analysis), Advances a m → m.Sound → m.isOpen uri = true →
      (uri ∈ uris ∨ Renewed a m uri) → Renewed a (uris.foldl compile m) uri := by
    intro uris
    induction uris with
    | nil =>
      intro m _ _ _ renewed
      exact renewed.resolve_left List.not_mem_nil
    | cons first rest ih =>
      intro m advanced sound still_open renewed
      have proceeds := compile_proceeds sound first
      have advances := compile_advances advanced.numbered first
      have open_after := (isOpen_of_truth (proceeds.truth uri)).trans still_open
      refine ih _ (advanced.trans advances) proceeds.sound open_after ?_
      rcases renewed with member | done
      · rcases List.mem_cons.mp member with here | there
        · right
          intro n last
          exact Nat.le_trans advanced.nextPass (compile_renewed (here ▸ still_open) n (here ▸ last))
        · exact Or.inl there
      · exact Or.inr (done.later advanced advances)
  refine walk _ a (.refl numbered) h opened (Or.inl ?_)
  obtain ⟨d, at_uri⟩ := (isOpen_iff a uri).mp opened
  exact List.mem_map.mpr ⟨d, List.mem_of_find?_eq_some at_uri, open?_uri at_uri⟩

/-- A step that supersedes the passes of a document leaves none of those that
were started before it as the last one. -/
theorem Supersedes.renewed (h : a.Sound) (numbered : a.Numbered) {uri : String} {s : Step}
    (supersedes : a.Supersedes uri s) : Renewed a (a.after s) uri := by
  rcases supersedes with closing | starting
  · intro n last
    have closed := (after_outcome h s).closed uri closing
    unfold truth at closed
    rw [lastPass?, Option.map_eq_none_iff.mp closed] at last
    cases last
  · unfold after
    cases action : s.action with
    | change other version text =>
      rw [action] at starting
      obtain ⟨same, accepted⟩ := Bool.and_eq_true_iff.mp starting
      cases beq_iff_eq.mp same
      exact change_renewed accepted text
    | save other text =>
      rw [action] at starting
      obtain ⟨same, known⟩ := Bool.and_eq_true_iff.mp starting
      cases beq_iff_eq.mp same
      exact save_renewed h known text
    | compile other =>
      rw [action] at starting
      obtain ⟨same, opened⟩ := Bool.and_eq_true_iff.mp starting
      cases beq_iff_eq.mp same
      exact compile_renewed opened
    | compileAll =>
      rw [action] at starting
      exact compileAll_renewed h numbered starting
    | close _ => rw [action] at starting; cases starting
    | configure _ => rw [action] at starting; cases starting
    | useCompiler _ => rw [action] at starting; cases starting
    | cache _ => rw [action] at starting; cases starting
    | clearCache => rw [action] at starting; cases starting
    | watched _ => rw [action] at starting; cases starting
    | tick _ => rw [action] at starting; cases starting
    | wake _ => rw [action] at starting; cases starting

/-- A pass that was superseded is never again the last one of its document,
not even after the document was opened again with the same version. -/
theorem SupersededIn.not_current (h : a.Sound) (numbered : a.Numbered) {steps : List Step}
    {p : Pass} (superseded : a.SupersededIn steps p) : (a.run steps).isCurrent p = false := by
  obtain ⟨before, s, later, rfl, ⟨q, pending, number⟩, supersedes⟩ := superseded
  have sound := run_sound h before
  have advanced := run_advances numbered before
  have given := advanced.numbered.given q pending
  have step := after_advances advanced.numbered s
  have renewed := supersedes.renewed sound advanced.numbered
  have still := renewed.later step (run_advances step.numbered later)
  rw [run_append, run_cons]
  refine Bool.eq_false_iff.mpr fun current => ?_
  have last := still p.number ((isCurrent_iff _ p).mp current)
  omega

/-- The wake of a pass that is not the last one of its document only takes it
out of the queue. -/
theorem wake_of_not_current {number : Nat}
    (stale : ∀ p ∈ a.passes, p.number = number → a.isCurrent p = false) :
    ∃ passes, a.wake number = { a with passes } := by
  unfold wake
  split
  · exact ⟨a.passes, rfl⟩
  · rename_i p pending
    split
    · exact ⟨a.passes, rfl⟩
    · have same_number := List.find?_some pending
      have not_current := stale p (List.mem_of_find?_eq_some pending) (beq_iff_eq.mp same_number)
      dsimp only
      rw [not_current]
      exact ⟨_, rfl⟩

/-- What one step publishes for a document that it does not close. -/
theorem after_published (h : a.Sound) {s : Step} {uri : String}
    (open_left : closes? s.action ≠ some uri) :
    ∃ new, (a.after s).publications = new ++ a.publications ∧
      ∀ p ∈ new, p.uri = uri → p.Faithful (a.after s) := by
  obtain ⟨new, pubs, faithful⟩ := (after_outcome h s).published
  refine ⟨new ++ (closes? s.action).toList.map .withdrawal, by rw [pubs, List.append_assoc], ?_⟩
  intro p member at_uri
  rcases List.mem_append.mp member with mine | withdrawn
  · exact faithful p mine
  · obtain ⟨other, closed, rfl⟩ := List.mem_map.mp withdrawn
    exact absurd (at_uri ▸ Option.mem_toList.mp closed) open_left

theorem truth_of_faithful {p : Publication} (h : p.Faithful a) :
    ∃ c, a.truth p.uri = some (p.version, c) := by
  obtain ⟨d, opened, version, _⟩ := h.editor
  exact ⟨d.compiled, by rw [truth_of_open opened, version]⟩

/-- As long as a document is not closed its published versions go up, and
they start no lower than the version it has. -/
theorem run_published (h : a.Sound) {uri : String} {steps : List Step}
    (open_left : ∀ s ∈ steps, closes? s.action ≠ some uri) :
    ∃ new, (a.run steps).publications = new ++ a.publications ∧
      ((new.filter (·.uri == uri)).reverse.map (·.version)).Pairwise versionLe ∧
      ∀ p ∈ new, p.uri = uri → ∀ v c, a.truth uri = some (v, c) → versionLe v p.version := by
  induction steps generalizing a with
  | nil => exact ⟨[], rfl, .nil, fun _ member => nomatch member⟩
  | cons s rest ih =>
    have outcome := after_outcome h s
    have kept_open := open_left s List.mem_cons_self
    obtain ⟨first, pubs, faithful⟩ := after_published h kept_open
    obtain ⟨more, pubs', ordered, above⟩ :=
      ih outcome.sound fun t member => open_left t (List.mem_cons_of_mem _ member)
    -- all that the first step publishes has one version, the one after the step
    have version : ∀ p ∈ first.filter (·.uri == uri), ∃ c,
        (a.after s).truth uri = some (p.version, c) := by
      intro p member
      obtain ⟨mine, at_uri⟩ := List.mem_filter.mp member
      have same := beq_iff_eq.mp at_uri
      exact same ▸ truth_of_faithful (faithful p mine same)
    refine ⟨more ++ first, by rw [run_cons, pubs', pubs, List.append_assoc], ?_, ?_⟩
    · rw [List.filter_append, List.reverse_append, List.map_append, List.pairwise_append]
      refine ⟨?_, ordered, ?_⟩
      · rw [List.pairwise_map]
        refine List.Pairwise.imp_of_mem (R := fun _ _ => True) ?_
          (List.pairwise_of_forall fun _ _ => trivial)
        intro p q p_mem q_mem _
        obtain ⟨_, p_version⟩ := version p (List.mem_reverse.mp p_mem)
        obtain ⟨_, q_version⟩ := version q (List.mem_reverse.mp q_mem)
        obtain ⟨same, _⟩ := Prod.mk.inj (Option.some.inj (p_version.symm.trans q_version))
        rw [same]
        exact versionLe_refl _
      · intro v v_mem w w_mem
        obtain ⟨p, p_mem, rfl⟩ := List.mem_map.mp v_mem
        obtain ⟨q, q_mem, rfl⟩ := List.mem_map.mp w_mem
        obtain ⟨c, p_version⟩ := version p (List.mem_reverse.mp p_mem)
        obtain ⟨q_new, at_uri⟩ := List.mem_filter.mp (List.mem_reverse.mp q_mem)
        exact above q q_new (beq_iff_eq.mp at_uri) p.version c p_version
    · intro p member at_uri v c before
      obtain ⟨v', c', now, le⟩ := outcome.versions uri v c kept_open before
      rcases List.mem_append.mp member with later | here
      · exact versionLe_trans le (above p later at_uri v' c' now)
      · obtain ⟨_, p_version⟩ := version p (List.mem_filter.mpr ⟨here, beq_iff_eq.mpr at_uri⟩)
        obtain ⟨same, _⟩ := Prod.mk.inj (Option.some.inj (now.symm.trans p_version))
        exact same ▸ le

/-- What the editor can rely on for the document of a URI in every run. The
pass of a result that is kept or published was never superseded. -/
structure PublishesInOrder (a : Analysis) (uri : String) : Prop where
  ordered : ∀ before during : List Step, (∀ s ∈ during, s.action ≠ .close uri) →
    ((publishedSince (a.run before) (a.run (before ++ during)) uri).map
    (·.version)).Pairwise versionLe
  faithful : ∀ (before : List Step) (s : Step), s.action ≠ .close uri →
    ∀ p ∈ publishedSince (a.run before) (a.run (before ++ [s])) uri,
        p.Faithful (a.run (before ++ [s]))
  withdrawn : ∀ (before : List Step) (s : Step), s.action = .close uri →
    publishedSince (a.run before) (a.run (before ++ [s])) uri = [.withdrawal uri]
  superseded : ∀ (steps : List Step) (p : Pass), p ∈ (a.run steps).passes → p.uri = uri →
    a.SupersededIn steps p → ∃ passes, (a.run steps).wake p.number = { a.run steps with passes }
  results : ∀ (before : List Step) (s : Step) (d : OpenDocument) (c : Compiled),
    (a.run (before ++ [s])).open? uri = some d → d.compiled = some c →
    (∃ e, (a.run before).open? uri = some e ∧ e.compiled = some c) ∨
      ∃ p ∈ (a.run before).passes, s.action = .wake p.number ∧ p.uri = uri ∧
        ¬ a.SupersededIn before p ∧ ∃ document answer, p.stage = .compiling document answer ∧
          answer.diagnostics? document = some c.diagnostics ∧ c.version = p.version

theorem closes?_ne {action : Action} {uri : String} (h : action ≠ .close uri) :
    closes? action ≠ some uri := by
  intro closing
  cases action with
  | close other => exact h (congrArg Action.close (Option.some.inj closing))
  | _ => cases closing

theorem run_concat (a : Analysis) (before : List Step) (s : Step) :
    a.run (before ++ [s]) = (a.run before).after s := run_append a before [s]

/-- Versions never go back between the opening of a document and its closing,
every publication is about the version that the document has, and what the
compiler found in a pass that was superseded is never kept and never seen. -/
theorem start_publishes_in_order (catalog : Catalog) (settings : Settings)
    (compiler : Option Compiler)
    (uri : String) : PublishesInOrder (start catalog settings compiler) uri := by
  have sound := run_sound (start_sound catalog settings compiler)
  have numbered := start_numbered catalog settings compiler
  refine ⟨?_, ?_, ?_, ?_, ?_⟩
  · intro before during open_left
    obtain ⟨new, pubs, ordered, _⟩ :=
      run_published (sound before) fun s member => closes?_ne (open_left s member)
    rw [run_append, publishedSince_of_append pubs]
    exact ordered
  · intro before s open_left p member
    obtain ⟨new, pubs, faithful⟩ := after_published (sound before) (closes?_ne open_left)
    rw [run_concat] at member ⊢
    rw [publishedSince_of_append pubs, List.mem_reverse] at member
    obtain ⟨mine, at_uri⟩ := List.mem_filter.mp member
    exact faithful p mine (beq_iff_eq.mp at_uri)
  · intro before s closing
    have outcome := after_outcome (sound before) s
    rw [closing] at outcome
    obtain ⟨new, pubs, faithful⟩ := outcome.published
    -- nothing else is published for a document that is closed in the end
    have others : new.filter (·.uri == uri) = [] := by
      refine List.filter_eq_nil_iff.mpr fun p member at_uri => ?_
      obtain ⟨c, still_open⟩ := truth_of_faithful (faithful p member)
      rw [beq_iff_eq.mp at_uri, outcome.closed uri rfl] at still_open
      cases still_open
    rw [run_concat, publishedSince_of_append ((List.append_assoc ..).symm ▸ pubs),
      List.filter_append, others]
    simp only [closes?, Option.toList_some, List.map_cons, List.map_nil, List.nil_append,
      List.filter_cons,
      Publication.withdrawal, beq_self_eq_true, if_true, List.filter_nil, List.reverse_singleton]
  · intro steps p pending at_uri superseded
    refine wake_of_not_current fun q member number => ?_
    have same := (run_advances numbered steps).numbered.one q member p pending number
    have not_current := superseded.not_current (start_sound catalog settings compiler) numbered
    rw [Bool.eq_false_iff, ne_eq, isCurrent_iff] at not_current ⊢
    rw [same, number]
    exact not_current
  · intro before s d c opened kept
    rw [run_concat] at opened
    have truth := truth_of_open opened
    rw [kept] at truth
    rcases (after_outcome (sound before) s).results uri d.version c truth with ⟨v, earlier⟩ | new
    · obtain ⟨e, opened', _, kept'⟩ := open_of_truth earlier
      exact Or.inl ⟨e, opened', kept'⟩
    · obtain ⟨p, pending, action, at_uri, current, document, answer, stage, found, version⟩ := new
      refine Or.inr ⟨p, pending, action, at_uri, ?_, document, answer, stage, found, version⟩
      intro superseded
      rw [superseded.not_current (start_sound catalog settings compiler) numbered] at current
      cases current

end Analysis

end RuleDesk
