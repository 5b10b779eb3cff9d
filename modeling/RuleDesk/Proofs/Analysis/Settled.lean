import RuleDesk.Proofs.Analysis.Cases

namespace RuleDesk

/-- What of an open document decides about its publications. -/
def OpenDocument.stand (d : OpenDocument) : Option Int × Option Compiled × Nat × Option Int :=
  (d.version, d.compiled, d.pass, d.lastPublished)

theorem OpenDocument.compiledFor_congr {d e : OpenDocument} (h : d.compiled = e.compiled)
    (version : Option Int) :
    d.compiledFor version = e.compiledFor version := by
  rw [compiledFor, compiledFor, h]

theorem OpenDocument.publishedAfter_eq_false {d : OpenDocument} {version : Option Int} :
    d.publishedAfter version = false ↔ versionLe d.lastPublished version := by
  unfold publishedAfter versionLe
  cases d.lastPublished with
  | none => exact ⟨fun _ => trivial, fun _ => rfl⟩
  | some last =>
    cases version with
    | none => exact ⟨nofun, nofun⟩
    | some v => exact ⟨fun h => by simpa using h, fun h => by simpa using h⟩

namespace Analysis

/-- The newest publication for a document. -/
def lastPublished? (a : Analysis) (uri : String) : Option Publication :=
  a.publications.find? (·.uri == uri)

/-- From `a` to `b` nothing happens to the document of a URI: its last pass
waits or does not wait as before, and no diagnostics are found or published. -/
structure Steady (a b : Analysis) (uri : String) : Prop where
  opened : (b.open? uri).map (·.stand) = (a.open? uri).map (·.stand)
  pending : ∀ p : Pass, p.uri = uri → a.lastPass? uri = some p.number →
      (p ∈ b.passes ↔ p ∈ a.passes)
  published : b.lastPublished? uri = a.lastPublished? uri
  document : b.snapshot.document? uri = a.snapshot.document? uri
  conflicts : b.snapshot.conflicts uri = a.snapshot.conflicts uri

variable {a b c : Analysis} {uri : String}

theorem Steady.last (h : Steady a b uri) : b.lastPass? uri = a.lastPass? uri := by
  have passes := congrArg (Option.map fun s => s.2.2.1) h.opened
  rw [Option.map_map, Option.map_map] at passes
  exact passes

theorem Steady.diagnostics (h : Steady a b uri) :
    b.snapshot.diagnostics uri = a.snapshot.diagnostics uri := by
  unfold Snapshot.diagnostics Snapshot.require
  rw [h.document, h.conflicts]

theorem Steady.refl (a : Analysis) (uri : String) : Steady a a uri :=
  ⟨rfl, fun _ _ _ => .rfl, rfl, rfl, rfl⟩

theorem Steady.trans (h : Steady a b uri) (h' : Steady b c uri) : Steady a c uri :=
  ⟨h'.opened.trans h.opened,
    fun p at_uri last => (h'.pending p at_uri (h.last.trans last)).trans (h.pending p at_uri last),
    h'.published.trans h.published, h'.document.trans h.document, h'.conflicts.trans h.conflicts⟩

theorem update_steady (a : Analysis) (other : String) {f : OpenDocument → OpenDocument}
    (keeps : ∀ d, (f d).uri = d.uri) (same : other = uri → ∀ d, (f d).stand = d.stand) :
    Steady a (a.update other f) uri := by
  refine ⟨?_, fun _ _ _ => .rfl, rfl, rfl, rfl⟩
  rw [update_open? a other uri f keeps]
  split
  · rename_i here
    rw [Option.map_map]
    exact congrArg (fun g => Option.map g (a.open? uri)) (funext (same here.symm))
  · rfl

theorem record_steady (a : Analysis) (e : Event) (silent : ∀ p, e = .published p → p.uri ≠ uri) :
    Steady a (a.record e) uri := by
  refine ⟨rfl, fun _ _ _ => .rfl, ?_, rfl, rfl⟩
  cases e with
  | published p =>
    rw [lastPublished?, record_published, List.find?_cons_of_neg]
    · rfl
    · exact fun same => silent p rfl (beq_iff_eq.mp same)
  | compiled _ => rfl
  | moved _ _ _ => rfl

theorem moveTo_steady (a : Analysis) (other : String) (phase : Phase) :
    Steady a (a.moveTo other phase) uri := by
  unfold moveTo
  split
  · exact .refl a uri
  · have moved : Steady a (a.update other ({ · with phase })) uri :=
      update_steady a other (fun _ => rfl) fun _ _ => rfl
    exact moved.trans (record_steady _ _ nofun)

theorem publish_steady (a : Analysis) {other : String} (ne : other ≠ uri) (version : Option Int)
    (compiled : List Diagnostic) : Steady a (a.publish other version compiled) uri := by
  unfold publish
  split
  · split
    · have marked :=
        update_steady a other (f := ({ · with lastPublished := version })) (fun _ => rfl)
        fun same => absurd same ne
      exact marked.trans (record_steady _ _ fun p same => by cases same; exact ne)
    · exact .refl a uri
  · exact .refl a uri

theorem republish_steady (a : Analysis) {other : String} (ne : other ≠ uri) :
    Steady a (a.republish other) uri := by
  unfold republish
  split
  · exact publish_steady a ne _ _
  · exact .refl a uri

theorem enqueue_steady (a : Analysis) {p : Pass} (ne : p.uri ≠ uri) :
    Steady a { a with passes := a.passes ++ [p] } uri := by
  refine ⟨rfl, fun q at_uri _ => ?_, rfl, rfl, rfl⟩
  refine ⟨fun member => ?_, List.mem_append_left _⟩
  rcases List.mem_append.mp member with old | new
  · exact old
  · exact absurd (List.mem_singleton.mp new ▸ at_uri) ne

theorem schedule_steady (a : Analysis) (number : Nat) {other : String} (ne : other ≠ uri)
    (version : Option Int)
    (saved : Bool) : Steady a (a.schedule number other version saved) uri := by
  unfold schedule
  split
  · exact publish_steady a ne version []
  · exact enqueue_steady a (p := ⟨number, other, version, _, _⟩) ne

theorem startCompiling_steady (a : Analysis) (number : Nat) {other : String} (ne : other ≠ uri)
    (version : Option Int) : Steady a (a.startCompiling number other version) uri := by
  unfold startCompiling
  split
  · exact publish_steady a ne version []
  · split
    · exact .refl a uri
    · split
      · have queued :=
          fun due stage => enqueue_steady a (p := ⟨number, other, version, due, stage⟩) ne
        have moved := fun due stage => (queued due stage).trans (moveTo_steady _ other .compiling)
        exact (moved _ _).trans (record_steady _ _ nofun)
      · exact .refl a uri

theorem finishCompiling_steady (a : Analysis) {other : String} (ne : other ≠ uri)
    (version : Option Int)
    (found : Option (List Diagnostic)) : Steady a (a.finishCompiling other version found) uri := by
  have kept : Steady a (a.update other fun d =>
      { d with compilerAvailable := found.isSome, compiled := found.map fun ds => ⟨version, ds⟩ })
        uri :=
    update_steady a other (fun _ => rfl) fun same => absurd same ne
  have completed := kept.trans (moveTo_steady _ other .compileComplete)
  exact completed.trans ((publish_steady _ ne version _).trans (moveTo_steady _ other .indexed))

/-- The version of an open document is the one in the snapshot. No newer one
was published or compiled, and its last pass, if it waits, is about it. -/
structure Prepared (a : Analysis) (uri : String) (d : OpenDocument) : Prop where
  opened : a.open? uri = some d
  shown : ∃ x, a.snapshot.document? uri = some x ∧ x.document.version = d.version
  newest : versionLe d.lastPublished d.version
  results : ∀ c, d.compiled = some c → versionLe c.version d.version
  pending : ∀ p ∈ a.passes, p.uri = uri → p.number = d.pass → p.version = d.version

/-- The last publication for an open document has what the snapshot says about
it now. The compiler's part is what is kept for the version, or is empty; it is
not without reason if the publications are `exact`. -/
def UpToDate (a : Analysis) (uri : String) (d : OpenDocument) (exact : Prop) : Prop :=
  ∃ x found compiled, a.snapshot.document? uri = some x ∧ a.snapshot.diagnostics uri = .ok found ∧
    a.lastPublished? uri = some ⟨uri, d.version, x.document.text, found ++ compiled⟩ ∧
    (compiled = [] ∨ compiled = d.compiledFor d.version) ∧
      (exact → compiled = d.compiledFor d.version)

/-- An open document is up to date, or its last pass is pending and will see to it. -/
structure Settles (a : Analysis) (uri : String) (exact : Prop) : Prop where
  prepared : ∀ d, a.open? uri = some d → a.Prepared uri d
  settled : ∀ d, a.open? uri = some d →
    (∃ p ∈ a.passes, p.uri = uri ∧ p.number = d.pass) ∨ a.UpToDate uri d exact

variable {d e : OpenDocument} {exact : Prop}

theorem Steady.open? (h : Steady a b uri) (opened : b.open? uri = some e) :
    ∃ d, a.open? uri = some d ∧ d.stand = e.stand := by
  have same := h.opened
  rw [opened] at same
  exact Option.map_eq_some_iff.mp same.symm

theorem Prepared.steady (h : a.Prepared uri d) (steady : Steady a b uri)
    (opened : b.open? uri = some e) :
    b.Prepared uri e := by
  obtain ⟨d', opened', same⟩ := steady.open? opened
  obtain rfl := Option.some.inj (h.opened.symm.trans opened')
  simp only [OpenDocument.stand, Prod.mk.injEq] at same
  obtain ⟨version, compiled, pass, published⟩ := same
  refine ⟨opened, ?_, ?_, ?_, ?_⟩
  · rw [steady.document, ← version]
    exact h.shown
  · rw [← published, ← version]
    exact h.newest
  · rw [← compiled, ← version]
    exact h.results
  · intro p member at_uri last
    rw [← version]
    have number : a.lastPass? uri = some p.number := by rw [lastPass?, h.opened, last, ← pass]; rfl
    exact h.pending p ((steady.pending p at_uri number).mp member) at_uri (last.trans pass.symm)

theorem Prepared.exists_steady (h : a.Prepared uri d) (steady : Steady a b uri) :
    ∃ e, b.Prepared uri e ∧ e.stand = d.stand := by
  have still := steady.opened
  rw [h.opened] at still
  obtain ⟨e, opened, same⟩ := Option.map_eq_some_iff.mp still
  exact ⟨e, h.steady steady opened, same⟩

theorem UpToDate.steady (h : a.UpToDate uri d exact) (steady : Steady a b uri)
    (same : d.stand = e.stand) :
    b.UpToDate uri e exact := by
  simp only [OpenDocument.stand, Prod.mk.injEq] at same
  obtain ⟨x, found, compiled, in_snapshot, diagnosed, published, part, kept⟩ := h
  refine ⟨x, found, compiled, steady.document.trans in_snapshot, steady.diagnostics.trans diagnosed,
    ?_, ?_, ?_⟩
  · rw [steady.published, published, same.1]
  · rw [← same.1, ← OpenDocument.compiledFor_congr same.2.1]
    exact part
  · rw [← same.1, ← OpenDocument.compiledFor_congr same.2.1]
    exact kept

theorem Settles.steady (h : a.Settles uri exact) (steady : Steady a b uri) :
    b.Settles uri exact := by
  refine ⟨fun e opened => ?_, fun e opened => ?_⟩
  · obtain ⟨d, before, _⟩ := steady.open? opened
    exact (h.prepared d before).steady steady opened
  · obtain ⟨d, before, same⟩ := steady.open? opened
    rcases h.settled d before with ⟨p, member, at_uri, number⟩ | done
    · have pass : d.pass = e.pass := congrArg (fun s => s.2.2.1) same
      have last : a.lastPass? uri = some p.number := by rw [lastPass?, before, number]; rfl
      exact Or.inl ⟨p, (steady.pending p at_uri last).mpr member, at_uri, number.trans pass⟩
    · exact Or.inr (done.steady steady same)

theorem Settles.of_closed (h : a.open? uri = none) : a.Settles uri exact :=
  ⟨fun _ opened => (nomatch h.symm.trans opened), fun _ opened => (nomatch h.symm.trans opened)⟩

theorem Settles.weaken {weaker : Prop} (h : a.Settles uri exact) (imp : weaker → exact) :
    a.Settles uri weaker := by
  refine ⟨h.prepared, fun d opened => (h.settled d opened).imp_right fun done => ?_⟩
  obtain ⟨x, found, compiled, in_snapshot, diagnosed, published, part, kept⟩ := done
  exact ⟨x, found, compiled, in_snapshot, diagnosed, published, part, fun holds => kept (imp holds)⟩

/-! ### What settles a document -/

/-- A publication for the current version is never left out, and it brings the
document up to date. -/
theorem Prepared.publish (h : a.Prepared uri d) {compiled : List Diagnostic}
    (part : compiled = [] ∨ compiled = d.compiledFor d.version)
    (kept : exact → compiled = d.compiledFor d.version) :
    (a.publish uri d.version compiled).Settles uri exact := by
  obtain ⟨x, in_snapshot, version⟩ := h.shown
  have diagnosed : a.snapshot.diagnostics uri =
      .ok (Diagnostic.sortBySpan (x.diagnostics ++ a.snapshot.conflicts uri)) := by
    unfold Snapshot.diagnostics Snapshot.require
    rw [in_snapshot]
    rfl
  have published : a.publish uri d.version compiled =
      (a.update uri ({ · with lastPublished := d.version })).record
        (.published ⟨uri, d.version, x.document.text,
        Diagnostic.sortBySpan (x.diagnostics ++ a.snapshot.conflicts uri) ++ compiled⟩) := by
    unfold Analysis.publish
    rw [in_snapshot, diagnosed, h.opened]
    dsimp only
    rw [if_pos]
    simp only [version, OpenDocument.publishedAfter_eq_false.mpr h.newest, decide_true,
      Bool.not_false, Bool.and_self]
  have opened : (a.publish uri d.version compiled).open? uri =
      some { d with lastPublished := d.version } := by
    rw [published, record_open?,
      update_open? a uri uri ({ · with lastPublished := d.version }) (fun _ => rfl),
      if_pos rfl, h.opened]
    rfl
  refine ⟨fun e opened' => ?_, fun e opened' => Or.inr ?_⟩
  · obtain rfl := Option.some.inj (opened.symm.trans opened')
    refine ⟨opened, ?_, versionLe_refl _, h.results, ?_⟩
    · rw [published]
      exact ⟨x, in_snapshot, version⟩
    · rw [published]
      exact h.pending
  · obtain rfl := Option.some.inj (opened.symm.trans opened')
    rw [published]
    exact ⟨x, _, compiled, in_snapshot, diagnosed, List.find?_cons_of_pos (beq_self_eq_true uri),
      part, kept⟩

theorem Prepared.republish (h : a.Prepared uri d) : (a.republish uri).Settles uri exact := by
  unfold Analysis.republish
  rw [h.opened]
  exact h.publish (Or.inr rfl) fun _ => rfl

theorem Prepared.enqueue (h : a.Prepared uri d) (due : Nat) (stage : Stage) :
    ({ a with passes := a.passes ++ [⟨d.pass, uri, d.version, due, stage⟩] } :
    Analysis).Settles uri exact := by
  refine ⟨fun e opened => ?_, fun e opened =>
    Or.inl ⟨_, List.mem_append_right _ (List.mem_singleton_self _), rfl, ?_⟩⟩
  · obtain rfl := Option.some.inj (h.opened.symm.trans opened)
    refine ⟨opened, h.shown, h.newest, h.results, fun p member at_uri number => ?_⟩
    rcases List.mem_append.mp member with old | new
    · exact h.pending p old at_uri number
    · rw [List.mem_singleton.mp new]
  · obtain rfl := Option.some.inj (h.opened.symm.trans opened)
    rfl

theorem Settles.republish (h : a.Settles uri exact) (other : String) :
    (a.republish other).Settles uri exact := by
  by_cases here : other = uri
  · subst here
    cases opened : a.open? other with
    | none =>
      unfold Analysis.republish
      rw [opened]
      exact .of_closed opened
    | some d => exact (h.prepared d opened).republish
  · exact h.steady (republish_steady a here)

theorem Settles.foldl_republish (h : a.Settles uri exact) (others : List String) :
    (others.foldl Analysis.republish a).Settles uri exact := by
  induction others generalizing a with
  | nil => exact h
  | cons other rest ih => exact ih (h.republish other)

/-- All the documents that a new snapshot is about to affect are published
again. The one that the snapshot changed for has to be left alone. -/
theorem Settles.replaceSnapshot (h : a.Settles uri exact) {changed : Option String} {s : Snapshot}
    (other : changed ≠ some uri) (same : s.document? uri = a.snapshot.document? uri) :
    (a.replaceSnapshot changed s).Settles uri exact := by
  have prepared : ∀ d, a.open? uri = some d →
      ({ a with snapshot := s } : Analysis).Prepared uri d := by
    intro d opened
    obtain ⟨opened, shown, newest, results, pending⟩ := h.prepared d opened
    exact ⟨opened, same ▸ shown, newest, results, pending⟩
  by_cases unaffected : s.conflicts uri = a.snapshot.conflicts uri
  · have placed : Steady a { a with snapshot := s } uri :=
      ⟨rfl, fun _ _ _ => .rfl, rfl, same, unaffected⟩
    exact (h.steady placed).foldl_republish _
  · cases opened : a.open? uri with
    | none =>
      refine .of_closed ?_
      have last := (replaceSnapshot_samePasses a changed s).last uri
      rw [lastPass?, lastPass?, opened] at last
      exact Option.map_eq_none_iff.mp last
    | some d =>
      -- the document is among those that are published again, and the others leave it alone
      have affected : uri ∈ (a.opened.map (·.uri)).filter fun uri =>
          changed != some uri && a.snapshot.conflicts uri != s.conflicts uri := by
        refine List.mem_filter.mpr
          ⟨List.mem_map.mpr ⟨d, List.mem_of_find?_eq_some opened, open?_uri opened⟩, ?_⟩
        simp only [Bool.and_eq_true, bne_iff_ne]
        exact ⟨other, Ne.symm unaffected⟩
      have walk : ∀ (uris : List String) (b : Analysis) (d : OpenDocument), uri ∈ uris →
          b.Prepared uri d → (uris.foldl Analysis.republish b).Settles uri exact := by
        intro uris
        induction uris with
        | nil => exact fun _ _ member => (List.not_mem_nil member).elim
        | cons first rest ih =>
          intro b d member prepared
          by_cases here : first = uri
          · subst here
            exact prepared.republish.foldl_republish rest
          · obtain ⟨e, prepared', _⟩ := prepared.exists_steady (republish_steady b here)
            exact ih _ e ((List.mem_cons.mp member).resolve_left (Ne.symm here)) prepared'
      exact walk _ _ d affected (prepared d opened)

/-- A document that has a pass of its own is not published again with a new
snapshot, and keeps what it has. -/
theorem replaceSnapshot_steady (a : Analysis) (s : Snapshot) :
    Steady { a with snapshot := s } (a.replaceSnapshot (some uri) s) uri := by
  have walk : ∀ (uris : List String) (b : Analysis), uri ∉ uris →
      Steady b (uris.foldl Analysis.republish b) uri := by
    intro uris
    induction uris with
    | nil => exact fun b _ => .refl b uri
    | cons first rest ih =>
      intro b absent
      have ne : first ≠ uri := fun same => absent (same ▸ List.mem_cons_self)
      exact (republish_steady b ne).trans
        (ih _ fun member => absent (List.mem_cons_of_mem _ member))
  refine walk _ _ fun member => ?_
  have left_out := (List.mem_filter.mp member).2
  rw [bne_self_eq_false, Bool.false_and] at left_out
  cases left_out

end Analysis

end RuleDesk
