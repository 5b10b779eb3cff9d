import Mathlib.Data.List.Chain
import Mathlib.Data.List.Pairwise
import RuleDesk.Proofs.Analysis.Texts

namespace RuleDesk

namespace Snapshot

/-- The documents of a snapshot have different URIs and different orders, all
of them given out before `next`. -/
structure Registered (s : Snapshot) (next : Nat) : Prop where
  distinct : s.indexes.Pairwise fun x y => x.uri ≠ y.uri ∧ x.order ≠ y.order
  given : ∀ x ∈ s.indexes, x.order < next

variable {s t : Snapshot} {n m : Nat}

theorem Registered.different (h : s.Registered n) {x y : DocumentIndex} (x_mem : x ∈ s.indexes)
    (y_mem : y ∈ s.indexes) (ne : x ≠ y) : x.uri ≠ y.uri ∧ x.order ≠ y.order := by
  have : Std.Symm fun x y : DocumentIndex => x.uri ≠ y.uri ∧ x.order ≠ y.order :=
    ⟨fun _ _ both => ⟨both.1.symm, both.2.symm⟩⟩
  exact h.distinct.forall x_mem y_mem ne

theorem Registered.eq_of_uri (h : s.Registered n) {x y : DocumentIndex} (x_mem : x ∈ s.indexes)
    (y_mem : y ∈ s.indexes) (same : x.uri = y.uri) : x = y := by
  by_contra ne
  exact (h.different x_mem y_mem ne).1 same

theorem Registered.eq_of_order (h : s.Registered n) {x y : DocumentIndex} (x_mem : x ∈ s.indexes)
    (y_mem : y ∈ s.indexes) (same : x.order = y.order) : x = y := by
  by_contra ne
  exact (h.different x_mem y_mem ne).2 same

theorem Registered.document? (h : s.Registered n) {x : DocumentIndex} (member : x ∈ s.indexes) :
    s.document? x.uri = some x := by
  have found : (s.document? x.uri).isSome := List.find?_isSome.mpr ⟨x, member, beq_self_eq_true _⟩
  obtain ⟨y, at_uri⟩ := Option.isSome_iff_exists.mp found
  obtain ⟨y_mem, same⟩ := mem_of_document? at_uri
  rw [at_uri, h.eq_of_uri y_mem member same]

/-- Documents that are being added to `s`: those that `s` has keep the orders
that they have there, and those that are new have orders from `first` on. -/
structure Adding (s : Snapshot) (first : Nat) (all : List DocumentIndex) (n : Nat) : Prop where
  registered : Registered ⟨s.generation + 1, all⟩ n
  since : first ≤ n
  kept : ∀ x ∈ all, ∀ y, s.document? x.uri = some y → x.order = y.order
  fresh : ∀ x ∈ all, s.document? x.uri = none → first ≤ x.order

theorem Registered.adding (h : s.Registered n) : s.Adding n s.indexes n := by
  refine ⟨⟨h.distinct, h.given⟩, Nat.le_refl _, fun x member y found => ?_,
    fun x member absent => ?_⟩
  · rw [Option.some.inj ((h.document? member).symm.trans found)]
  · rw [h.document? member] at absent
    cases absent

/-- One more document is added, with an order that no other one has. -/
theorem Adding.insert {first : Nat} {all : List DocumentIndex} {x : DocumentIndex}
    (h : s.Adding first all n)
    (le : n ≤ m) (given : x.order < m) (other : ∀ y ∈ all, y.uri ≠ x.uri → y.order ≠ x.order)
    (kept : ∀ y, s.document? x.uri = some y → x.order = y.order)
    (fresh : s.document? x.uri = none → first ≤ x.order) :
    s.Adding first (all.filter (fun y => y.uri != x.uri) ++ [x]) m := by
  have member : ∀ y ∈ all.filter (fun y => y.uri != x.uri) ++ [x], y ∈ all ∨ y = x :=
    fun y inside =>
    (List.mem_append.mp inside).imp (fun old => (List.mem_filter.mp old).1) List.mem_singleton.mp
  refine ⟨⟨?_, ?_⟩, Nat.le_trans h.since le, ?_, ?_⟩
  · refine List.pairwise_append.mpr
      ⟨h.registered.distinct.sublist List.filter_sublist, List.pairwise_singleton _ _,
        fun y old z last => ?_⟩
    obtain ⟨inside, elsewhere⟩ := List.mem_filter.mp old
    rw [List.mem_singleton.mp last]
    exact ⟨bne_iff_ne.mp elsewhere, other y inside (bne_iff_ne.mp elsewhere)⟩
  · intro y inside
    rcases member y inside with old | rfl
    · exact Nat.lt_of_lt_of_le (h.registered.given y old) le
    · exact given
  · intro y inside
    rcases member y inside with old | rfl
    · exact h.kept y old
    · exact kept
  · intro y inside
    rcases member y inside with old | rfl
    · exact h.fresh y old
    · exact fresh

theorem Adding.known {first : Nat} {all : List DocumentIndex} {x y : DocumentIndex}
    (h : s.Adding first all n)
    (base : s.Registered first) (here : s.document? x.uri = some y) (order : x.order = y.order) :
    s.Adding first (all.filter (fun z => z.uri != x.uri) ++ [x]) n := by
  obtain ⟨y_mem, y_uri⟩ := mem_of_document? here
  have early : x.order < first := order ▸ base.given y y_mem
  refine h.insert (Nat.le_refl n) (Nat.lt_of_lt_of_le early h.since)
    (fun z inside elsewhere same => ?_) ?_ ?_
  · -- an order of `s` belongs to one document of `s` only, and a new one is too large
    cases known : s.document? z.uri with
    | none =>
      have late := h.fresh z inside known
      omega
    | some w =>
      obtain ⟨w_mem, w_uri⟩ := mem_of_document? known
      have orders : w.order = y.order := by rw [← h.kept z inside w known, same, order]
      rw [base.eq_of_order w_mem y_mem orders] at w_uri
      exact elsewhere (w_uri.symm.trans y_uri)
  · intro w found
    rw [order, Option.some.inj (here.symm.trans found)]
  · intro absent
    rw [here] at absent
    cases absent

theorem Adding.new {first : Nat} {all : List DocumentIndex} {x : DocumentIndex}
    (h : s.Adding first all n) (absent : s.document? x.uri = none) (order : x.order = n) :
    s.Adding first (all.filter (fun z => z.uri != x.uri) ++ [x]) (n + 1) := by
  refine h.insert (Nat.le_succ n) (by omega) (fun z inside _ same => ?_) ?_ fun _ => order ▸ h.since
  · have given := h.registered.given z inside
    omega
  · intro w found
    rw [absent] at found
    cases found

theorem Adds.adding {first : Nat} {xs : List DocumentIndex} (base : s.Registered first)
    (adds : s.Adds n xs m) :
    ∀ all, s.Adding first all n →
      s.Adding first (xs.foldl (fun all x => all.filter (fun y => y.uri != x.uri) ++ [x]) all)
        m := by
  induction adds with
  | nil => exact fun _ h => h
  | known here order _ ih => exact fun all h => ih _ (h.known base here order)
  | new absent order _ ih => exact fun all h => ih _ (h.new absent order)

/-- A snapshot takes the place of another one, or stays. It is larger in its
generation, and what stays in it keeps its order. -/
structure Succeeds (s t : Snapshot) : Prop where
  newer : t = s ∨ s.generation < t.generation
  orders : ∀ uri x y, s.document? uri = some x → t.document? uri = some y → y.order = x.order

theorem Succeeds.refl (s : Snapshot) : s.Succeeds s :=
  ⟨Or.inl rfl, fun _ _ _ found found' => congrArg _ (Option.some.inj (found'.symm.trans found))⟩

theorem withDocuments_succeeds {xs : List DocumentIndex} (base : s.Registered n)
    (adds : s.Adds n xs m) :
    (s.withDocuments xs).Registered m ∧ s.Succeeds (s.withDocuments xs) := by
  have added := adds.adding base s.indexes base.adding
  refine ⟨added.registered, Or.inr (Nat.lt_succ_self _), fun uri x y found found' => ?_⟩
  obtain ⟨y_mem, y_uri⟩ := mem_of_document? found'
  exact added.kept y y_mem x (y_uri ▸ found)

theorem withoutDocuments_succeeds (base : s.Registered n) (p : DocumentIndex → Bool) :
    (s.withoutDocuments p).Registered n ∧ s.Succeeds (s.withoutDocuments p) := by
  refine ⟨⟨base.distinct.sublist List.filter_sublist, fun x member =>
    base.given x (List.mem_filter.mp member).1⟩,
    Or.inr (Nat.lt_succ_self _), fun uri x y found found' => ?_⟩
  obtain ⟨x_mem, x_uri⟩ := mem_of_document? found
  obtain ⟨y_mem, y_uri⟩ := mem_of_document? found'
  rw [base.eq_of_uri (List.mem_filter.mp y_mem).1 x_mem (y_uri.trans x_uri.symm)]

end Snapshot

namespace Analysis

/-- From `a` to `b` the snapshot was replaced at most once, and the orders in
it are still those that were given out. -/
structure Registers (a b : Analysis) : Prop where
  registered : b.snapshot.Registered b.nextOrder
  succeeds : a.snapshot.Succeeds b.snapshot

variable {a b c : Analysis}

theorem Registers.of_same (h : a.snapshot.Registered a.nextOrder) (same : SameTexts a b) :
    Registers a b := by
  refine ⟨?_, ?_⟩
  · rw [same.snapshot, same.nextOrder]
    exact h
  · rw [same.snapshot]
    exact .refl _

theorem Registers.same (h : Registers a b) (same : SameTexts b c) : Registers a c := by
  refine ⟨?_, ?_⟩
  · rw [same.snapshot, same.nextOrder]
    exact h.registered
  · rw [same.snapshot]
    exact h.succeeds

theorem Replaces.registers {free : String → Prop} {n : Nat} {s : Snapshot}
    (h : a.snapshot.Registered a.nextOrder)
    (replaces : a.Replaces free n s) : s.Registered n ∧ a.snapshot.Succeeds s := by
  cases replaces with
  | add adds _ => exact Snapshot.withDocuments_succeeds h adds
  | remove _ => exact Snapshot.withoutDocuments_succeeds h _

theorem Replaces.registers_replaceSnapshot {free : String → Prop} {n : Nat} {s : Snapshot}
    {changed : Option String}
    (h : a.snapshot.Registered a.nextOrder) (replaces : a.Replaces free n s)
    (at_order : b.nextOrder = n) :
    Registers a (b.replaceSnapshot changed s) := by
  obtain ⟨registered, succeeds⟩ := replaces.registers h
  have placed : Registers a { b with snapshot := s } := ⟨at_order ▸ registered, succeeds⟩
  exact placed.same (replaceSnapshot_sameTexts b changed s)

theorem Starts.registers_commit {m : Analysis} {uri : String} {version : Option Int}
    {x : DocumentIndex} {nextOrder : Nat}
    (h : a.snapshot.Registered a.nextOrder) (started : Starts a m uri version)
    (adds : a.snapshot.Adds a.nextOrder [x] nextOrder) :
    Registers a (({ m with nextOrder } : Analysis).commit x) := by
  obtain ⟨registered, succeeds⟩ := Snapshot.withDocuments_succeeds h adds
  have placed : Registers a { m with nextOrder, snapshot := m.snapshot.withDocument x } := by
    refine ⟨?_, ?_⟩
    · dsimp only
      rw [started.snapshot]
      exact registered
    · dsimp only
      rw [started.snapshot]
      exact succeeds
  exact placed.same (commit_sameTexts { m with nextOrder } x)

theorem fileChanged_registers (h : a.snapshot.Registered a.nextOrder) (disk : Disk)
    (change : String × FileChange) :
    Registers a (a.fileChanged disk change) := by
  rcases fileChanged_cases a disk change with same | ⟨nextOrder, s, replaces, same⟩
  · rw [same]
    exact .of_same h (.refl a)
  · rw [same]
    exact replaces.registers_replaceSnapshot h rfl

theorem change_registers (h : a.snapshot.Registered a.nextOrder) (uri : String) (version : Int)
    (text : List Char) :
    Registers a (a.change uri version text) := by
  rcases change_cases a uri version text
    with ⟨_, same⟩ | ⟨m, order, nextOrder, _, started, adds, same⟩
  · rw [same]
    exact .of_same h (.refl a)
  · rw [same]
    exact (started.registers_commit h adds).same (schedule_sameTexts _ _ uri (some version) false)

theorem save_registers (h : a.snapshot.Registered a.nextOrder) (sound : a.Sound) (uri : String)
    (text : Option (List Char)) : Registers a (a.save uri text) := by
  rcases save_cases sound uri text
    with ⟨_, same⟩ | ⟨current, m, b, in_snapshot, started, same, saved⟩
  · rw [same]
    exact .of_same h (.refl a)
  · rw [same]
    refine Registers.same ?_ (schedule_sameTexts b _ uri current.document.version true)
    rcases saved with ⟨rfl, _⟩ | ⟨t, _, rfl⟩
    · have unchanged : Registers a m := by
        refine ⟨?_, ?_⟩
        · rw [started.snapshot, started.frame.nextOrder]
          exact h
        · rw [started.snapshot]
          exact .refl _
      exact unchanged.same (moveTo_sameTexts m uri .indexed)
    · have adds : a.snapshot.Adds a.nextOrder
          [(Document.ofText uri current.document.version t).index a.catalog current.order]
            m.nextOrder := by
        rw [started.frame.nextOrder]
        exact .known in_snapshot rfl (.nil _)
      exact started.registers_commit h adds

theorem close_registers (h : a.snapshot.Registered a.nextOrder) (disk : Disk) (uri : String) :
    Registers a (a.close disk uri) := by
  obtain ⟨nextOrder, s, replaces, _, same⟩ := close_cases a disk uri
  rw [same]
  exact replaces.registers_replaceSnapshot h rfl

/-! ### The states that a run goes through -/

/-- The states after each of some changes of files. -/
def filesChanged (disk : Disk) : Analysis → List (String × FileChange) → List Analysis
  | _, [] => []
  | a, change :: rest =>
    a.fileChanged disk change :: filesChanged disk (a.fileChanged disk change) rest

/-- The states between the parts of a step. The changes of watched files are
taken in one after the other; all else is done at once. -/
def between (a : Analysis) (s : Step) : List Analysis :=
  match s.action with
  | .watched changes => if a.settings.cacheWorkspace then filesChanged s.disk a changes else []
  | _ => []

/-- All the states that a run goes through, the first one first. -/
def history (a : Analysis) : List Step → List Analysis
  | [] => [a]
  | s :: rest => a :: (a.between s ++ (a.after s).history rest)

theorem run_mem_history (a : Analysis) (steps more : List Step) :
    a.run steps ∈ a.history (steps ++ more) := by
  induction steps generalizing a with
  | nil => cases more <;> exact List.mem_cons_self
  | cons s rest ih => exact List.mem_cons_of_mem _ (List.mem_append_right _ (ih (a.after s)))

/-- The order of a document that is in the snapshot. -/
def order? (a : Analysis) (uri : String) : Option Nat := (a.snapshot.document? uri).map (·.order)

theorem after_registers (h : a.snapshot.Registered a.nextOrder) (sound : a.Sound) (s : Step)
    (whole : ∀ changes, s.action ≠ .watched changes) : Registers a (a.after s) := by
  unfold Analysis.after
  cases action : s.action with
  | change uri version text => exact change_registers h uri version text
  | save uri text => exact save_registers h sound uri text
  | close uri => exact close_registers h s.disk uri
  | compile uri => exact .of_same h (compile_sameTexts a uri)
  | compileAll => exact .of_same h (.foldl compile_sameTexts _ a)
  | configure _ => exact .of_same h ⟨rfl, rfl, rfl, fun _ => rfl⟩
  | useCompiler _ => exact .of_same h ⟨rfl, rfl, rfl, fun _ => rfl⟩
  | cache folder =>
    obtain ⟨nextOrder, t, replaces, same⟩ := cache_cases a s.disk folder
    show Registers a (a.cache s.disk folder)
    rw [same]
    exact replaces.registers_replaceSnapshot h rfl
  | clearCache =>
    obtain ⟨t, replaces, same⟩ := clearCache_cases a
    show Registers a a.clearCache
    rw [same]
    exact replaces.registers_replaceSnapshot h rfl
  | watched changes => exact absurd action (whole changes)
  | tick _ => exact .of_same h ⟨rfl, rfl, rfl, fun _ => rfl⟩
  | wake number => exact .of_same h (wake_sameTexts a number)

theorem filesChanged_chain (h : a.snapshot.Registered a.nextOrder) (disk : Disk)
    (changes : List (String × FileChange)) :
    (a :: (filesChanged disk a changes ++ [changes.foldl (fileChanged disk) a])).IsChain
    Registers := by
  induction changes generalizing a with
  | nil => exact List.isChain_pair.mpr (.of_same h (.refl a))
  | cons change rest ih =>
    have first := fileChanged_registers h disk change
    exact List.isChain_cons_cons.mpr ⟨first, ih first.registered⟩

/-- No part of a step replaces the snapshot more than once. -/
theorem between_chain (h : a.snapshot.Registered a.nextOrder) (sound : a.Sound) (s : Step) :
    (a :: (a.between s ++ [a.after s])).IsChain Registers := by
  unfold between
  split
  · rename_i changes action
    have after_changes : a.after s = a.watched s.disk changes := by
      unfold Analysis.after
      rw [action]
      rfl
    rw [after_changes]
    unfold watched
    split
    · exact filesChanged_chain h s.disk changes
    · exact List.isChain_pair.mpr (.of_same h (.refl a))
  · rename_i whole
    exact List.isChain_pair.mpr (after_registers h sound s whole)

theorem Registers.registered_of_mem {states : List Analysis} (h : a.snapshot.Registered a.nextOrder)
    (chain : (a :: states).IsChain Registers) :
    ∀ b ∈ states, b.snapshot.Registered b.nextOrder := by
  induction states generalizing a with
  | nil => exact nofun
  | cons c rest ih =>
    obtain ⟨first, later⟩ := List.isChain_cons_cons.mp chain
    intro b member
    rcases List.mem_cons.mp member with rfl | there
    · exact first.registered
    · exact ih first.registered later b there

/-- From one state of a run to the next one the snapshot is replaced at most once. -/
theorem history_chain (h : a.snapshot.Registered a.nextOrder) (sound : a.Sound)
    (steps : List Step) :
    (a.history steps).IsChain Registers := by
  induction steps generalizing a with
  | nil => exact .singleton a
  | cons s rest ih =>
    have first := between_chain h sound s
    have registered := Registers.registered_of_mem h first (a.after s)
      (List.mem_append_right _ (List.mem_singleton_self _))
    have later := ih registered (after_outcome sound s).sound
    cases rest with
    | nil => exact first
    | cons t more => exact List.isChain_cons_split.mpr ⟨first, later⟩

theorem history_registered (h : a.snapshot.Registered a.nextOrder) (sound : a.Sound)
    (steps : List Step) :
    ∀ b ∈ a.history steps, b.snapshot.Registered b.nextOrder := by
  have chain := history_chain h sound steps
  intro b member
  cases steps with
  | nil => exact List.mem_singleton.mp member ▸ h
  | cons s rest =>
    rcases List.mem_cons.mp member with rfl | later
    · exact h
    · exact Registers.registered_of_mem h chain b later

/-- A document that stays in the snapshot has one order all the time. -/
theorem one_order {part : List Analysis} {uri : String} (chain : part.IsChain Registers)
    (stays : ∀ b ∈ part, (b.order? uri).isSome) :
    ∃ order, ∀ b ∈ part, b.order? uri = some order := by
  induction part with
  | nil => exact ⟨0, nofun⟩
  | cons b rest ih =>
    obtain ⟨order, at_first⟩ := Option.isSome_iff_exists.mp (stays b List.mem_cons_self)
    cases rest with
    | nil => exact ⟨order, fun c member => List.mem_singleton.mp member ▸ at_first⟩
    | cons c more =>
      obtain ⟨first, later⟩ := List.isChain_cons_cons.mp chain
      obtain ⟨same, others⟩ := ih later fun d member => stays d (List.mem_cons_of_mem _ member)
      obtain ⟨x, found, rfl⟩ := Option.map_eq_some_iff.mp at_first
      obtain ⟨y, found', rfl⟩ := Option.map_eq_some_iff.mp (others c List.mem_cons_self)
      refine ⟨y.order, fun d member => ?_⟩
      rcases List.mem_cons.mp member with rfl | there
      · rw [at_first, first.succeeds.orders uri x y found found']
      · exact others d there

/-- A snapshot is current or has been replaced by one of a larger generation. -/
def Follows (a b : Analysis) : Prop :=
  b.snapshot = a.snapshot ∨ a.snapshot.generation < b.snapshot.generation

instance : Trans Follows Follows Follows where
  trans h h' := by
    rcases h with same | newer
    · unfold Follows at h' ⊢
      rw [same] at h'
      exact h'
    · rcases h' with same | newer'
      · exact Or.inr (same ▸ newer)
      · exact Or.inr (Nat.lt_trans newer newer')

theorem Follows.requireCurrent (h : Follows a b) :
    b.requireCurrent a.snapshot = .ok () ↔ b.snapshot = a.snapshot := by
  unfold Analysis.requireCurrent
  constructor
  · intro accepted
    rcases h with same | newer
    · exact same
    · rw [if_neg (Nat.ne_of_gt newer)] at accepted
      cases accepted
  · intro same
    rw [if_pos (congrArg _ same)]

/-- What a language server relies on in every run. A document that the editor
holds is indexed with its last text and version, and whatever is on disk does
not matter. Orders belong to one document each as long as it stays, and an old
snapshot is never taken for the current one. -/
structure FollowsEditor (a : Analysis) : Prop where
  reached : ∀ steps more : List Step, a.run steps ∈ a.history (steps ++ more)
  copies : ∀ (steps : List Step) (uri : String) (e : EditorCopy),
    EditorCopy.ofSteps uri steps = some e →
    ∃ d x, (a.run steps).open? uri = some d ∧ d.version = some e.version ∧
      (a.run steps).snapshot.document? uri = some x ∧
      x = (Document.ofText uri (some e.version) e.text).index (a.run steps).catalog x.order
  distinct : ∀ (steps : List Step), ∀ b ∈ a.history steps,
    b.snapshot.indexes.Pairwise fun x y => x.uri ≠ y.uri ∧ x.order ≠ y.order
  stable : ∀ (steps : List Step) (part : List Analysis) (uri : String), part <:+: a.history steps →
    (∀ b ∈ part, (b.order? uri).isSome) → ∃ order, ∀ b ∈ part, b.order? uri = some order
  newer : ∀ steps : List Step, (a.history steps).Pairwise Follows
  current : ∀ steps : List Step, (a.history steps).Pairwise fun b c =>
    c.requireCurrent b.snapshot = .ok () ↔ c.snapshot = b.snapshot

theorem start_registered (catalog : Catalog) (settings : Settings) (compiler : Option Compiler) :
    (start catalog settings compiler).snapshot.Registered
      (start catalog settings compiler).nextOrder :=
  ⟨.nil, nofun⟩

/-- Documents in the snapshot follow the editor, the orders and generations
are those that were given out. -/
theorem start_follows_editor (catalog : Catalog) (settings : Settings)
    (compiler : Option Compiler) :
    FollowsEditor (start catalog settings compiler) := by
  have sound := start_sound catalog settings compiler
  have registered := start_registered catalog settings compiler
  have newer : ∀ steps, ((start catalog settings compiler).history steps).Pairwise Follows :=
    fun steps =>
    List.isChain_iff_pairwise.mp ((history_chain registered sound steps).imp fun _ _ step =>
      step.succeeds.newer)
  refine ⟨run_mem_history _, fun steps uri e held => ?_, fun steps b member => ?_,
    fun steps part uri inside stays => ?_, newer,
    fun steps => (newer steps).imp Follows.requireCurrent⟩
  · have tracks := run_tracks (start_tracks catalog settings compiler uri) sound steps
    obtain ⟨version, x, in_snapshot, indexed⟩ := tracks.held e held
    obtain ⟨d, opened, same⟩ := Option.map_eq_some_iff.mp version
    exact ⟨d, x, opened, same, in_snapshot, indexed⟩
  · exact (history_registered registered sound steps b member).distinct
  · have chain := history_chain registered sound steps
    obtain ⟨before, later, whole⟩ := inside
    rw [← whole] at chain
    exact one_order chain.left_of_append.right_of_append stays

end Analysis

end RuleDesk
