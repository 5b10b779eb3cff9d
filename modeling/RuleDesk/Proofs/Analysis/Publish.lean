import RuleDesk.Proofs.Analysis.Origin
import RuleDesk.Proofs.Analysis.Run
import RuleDesk.Proofs.Indexing.Documents

namespace RuleDesk

namespace Snapshot

theorem withDocuments_document? {s : Snapshot} {added : List DocumentIndex} {uri : String}
    (others : ∀ x ∈ added, x.uri ≠ uri) :
    (s.withDocuments added).document? uri = s.document? uri := by
  have walk : ∀ (added all : List DocumentIndex), (∀ x ∈ added, x.uri ≠ uri) →
      (added.foldl (fun all x => all.filter (fun y => y.uri != x.uri) ++ [x]) all).find?
        (·.uri == uri) = all.find? (·.uri == uri) := by
    intro added
    induction added with
    | nil => exact fun _ _ => rfl
    | cons x rest ih =>
      intro all others
      have first := others x List.mem_cons_self
      have step := withDocument_document? ⟨0, all⟩ x uri
      rw [if_neg (Ne.symm first)] at step
      rw [List.foldl_cons, ih _ fun y member => others y (List.mem_cons_of_mem _ member)]
      exact step
  exact walk added s.indexes others

theorem withoutDocuments_document? {s : Snapshot} {p : DocumentIndex → Bool} {uri : String}
    (kept : ∀ x, x.uri = uri → p x = false) :
    (s.withoutDocuments p).document? uri = s.document? uri :=
  find?_filter_other s.indexes fun x at_uri => by rw [kept x at_uri]; rfl

theorem withDocuments_mem {s : Snapshot} {added : List DocumentIndex} {x : DocumentIndex}
    (h : x ∈ (s.withDocuments added).indexes) : x ∈ s.indexes ∨ x ∈ added := by
  have walk : ∀ (added all : List DocumentIndex),
      x ∈ added.foldl (fun all x => all.filter (fun y => y.uri != x.uri) ++ [x]) all →
      x ∈ all ∨ x ∈ added := by
    intro added
    induction added with
    | nil => exact fun _ => Or.inl
    | cons y rest ih =>
      intro all member
      rcases ih _ member with old | new
      · rcases List.mem_append.mp old with old | new
        · exact Or.inl (List.mem_filter.mp old).1
        · exact Or.inr (List.mem_cons.mpr (Or.inl (List.mem_singleton.mp new)))
      · exact Or.inr (List.mem_cons_of_mem _ new)
  exact walk added s.indexes h

end Snapshot

/-- The diagnostics of a publication that the compiler found. -/
def Publication.fromCompiler (p : Publication) : List Diagnostic :=
  p.diagnostics.filter (·.origin == .compiler)

/-- A publication tells the truth about an open document if it carries the
version that the editor gave last, which is the one in the snapshot, and if
the compiler's diagnostics in it, if any, are those kept for that version. -/
structure Publication.Faithful (p : Publication) (a : Analysis) : Prop where
  editor : ∃ d, a.open? p.uri = some d ∧ d.version = p.version ∧
    (p.fromCompiler = [] ∨ p.fromCompiler = d.compiledFor p.version)
  shown : a.shownVersion? p.uri = some p.version

namespace Analysis

/-- What the faithfulness of publications rests on in an open document. -/
def truth (a : Analysis) (uri : String) : Option (Option Int × Option Compiled) :=
  (a.open? uri).map fun d => (d.version, d.compiled)

theorem truth_of_open {a : Analysis} {uri : String} {d : OpenDocument} (h : a.open? uri = some d) :
    a.truth uri = some (d.version, d.compiled) := by
  rw [truth, h]; rfl

theorem open_of_truth {a : Analysis} {uri : String} {v : Option Int} {c : Option Compiled}
    (h : a.truth uri = some (v, c)) : ∃ d, a.open? uri = some d ∧ d.version = v ∧
    d.compiled = c := by
  obtain ⟨d, opened, same⟩ := Option.map_eq_some_iff.mp h
  exact ⟨d, opened, congrArg Prod.fst same, congrArg Prod.snd same⟩

/-- The snapshot follows the editor, and no diagnostic is under a false name. -/
structure Sound (a : Analysis) : Prop where
  shown : ∀ uri v c, a.truth uri = some (v, c) → a.shownVersion? uri = some v
  kept : ∀ uri v c, a.truth uri = some (v, some c) → AllFrom .compiler c.diagnostics
  found : ∀ x ∈ a.snapshot.indexes, AllFrom .analysis x.diagnostics

/-- The analysis goes on from `a` to `b` without a change of what any open
document is, and all that it publishes on the way is faithful in the end. -/
structure Proceeds (a b : Analysis) : Prop where
  sound : b.Sound
  truth : ∀ uri, b.truth uri = a.truth uri
  shown : ∀ uri, a.isOpen uri = true → b.shownVersion? uri = a.shownVersion? uri
  published : ∃ new, b.publications = new ++ a.publications ∧ ∀ p ∈ new, p.Faithful b

theorem isOpen_of_truth {a b : Analysis} {uri : String} (h : b.truth uri = a.truth uri) :
    b.isOpen uri = a.isOpen uri := by
  rw [Bool.eq_iff_iff, isOpen_iff, isOpen_iff]
  constructor
  · rintro ⟨d, opened⟩
    rw [truth_of_open opened] at h
    obtain ⟨e, opened', _⟩ := open_of_truth h.symm
    exact ⟨e, opened'⟩
  · rintro ⟨d, opened⟩
    rw [truth_of_open opened] at h
    obtain ⟨e, opened', _⟩ := open_of_truth h
    exact ⟨e, opened'⟩

end Analysis

/-- Faithfulness looks at nothing but the truth and the shown version. -/
theorem Publication.Faithful.transfer {p : Publication} {a b : Analysis} (h : p.Faithful a)
    (truth : b.truth p.uri = a.truth p.uri)
    (shown : a.isOpen p.uri = true → b.shownVersion? p.uri = a.shownVersion? p.uri) :
    p.Faithful b := by
  obtain ⟨⟨d, opened, version, compiler⟩, in_snapshot⟩ := h
  rw [Analysis.truth_of_open opened] at truth
  obtain ⟨e, opened', version', compiled'⟩ := Analysis.open_of_truth truth
  refine ⟨⟨e, opened', version'.trans version, ?_⟩, ?_⟩
  · rw [OpenDocument.compiledFor, compiled']
    exact compiler
  · rw [shown ((Analysis.isOpen_iff a p.uri).mpr ⟨d, opened⟩)]
    exact in_snapshot

namespace Analysis

theorem Proceeds.refl {a : Analysis} (h : a.Sound) : Proceeds a a :=
  ⟨h, fun _ => rfl, fun _ _ => rfl, [], rfl, fun _ member => nomatch member⟩

theorem Proceeds.trans {a b c : Analysis} (h : Proceeds a b) (h' : Proceeds b c) :
    Proceeds a c := by
  have still_open : ∀ uri, a.isOpen uri = true → b.isOpen uri = true :=
    fun uri opened => (isOpen_of_truth (h.truth uri)).trans opened
  refine ⟨h'.sound, fun uri => (h'.truth uri).trans (h.truth uri), ?_, ?_⟩
  · intro uri opened
    exact (h'.shown uri (still_open uri opened)).trans (h.shown uri opened)
  · obtain ⟨first, pubs, faithful⟩ := h.published
    obtain ⟨second, pubs', faithful'⟩ := h'.published
    refine ⟨second ++ first, by rw [pubs', pubs, List.append_assoc], ?_⟩
    intro p member
    rcases List.mem_append.mp member with new | old
    · exact faithful' p new
    · exact (faithful p old).transfer (h'.truth p.uri) (h'.shown p.uri)

theorem Proceeds.foldl {α : Type} {f : Analysis → α → Analysis}
    (step : ∀ a x, a.Sound → Proceeds a (f a x)) (xs : List α) {a : Analysis} (h : a.Sound) :
    Proceeds a (xs.foldl f a) := by
  induction xs generalizing a with
  | nil => exact .refl h
  | cons x rest ih =>
    have first := step a x h
    exact first.trans (ih first.sound)

/-- A step that publishes nothing and leaves the open documents and what the
snapshot shows of them as they are. -/
theorem Proceeds.silent {a b : Analysis} (h : a.Sound) (truth : ∀ uri, b.truth uri = a.truth uri)
    (shown : ∀ uri, a.isOpen uri = true → b.shownVersion? uri = a.shownVersion? uri)
    (found : ∀ x ∈ b.snapshot.indexes, AllFrom .analysis x.diagnostics)
    (pubs : b.publications = a.publications) : Proceeds a b := by
  refine ⟨⟨?_, ?_, found⟩, truth, shown, [], pubs, fun _ member => nomatch member⟩
  · intro uri v c at_uri
    rw [truth uri] at at_uri
    obtain ⟨d, opened, _⟩ := open_of_truth at_uri
    rw [shown uri ((isOpen_iff a uri).mpr ⟨d, opened⟩)]
    exact h.shown uri v c at_uri
  · intro uri v c at_uri
    rw [truth uri] at at_uri
    exact h.kept uri v c at_uri

theorem update_truth (a : Analysis) (uri other : String) {f : OpenDocument → OpenDocument}
    (keeps : ∀ d, (f d).uri = d.uri)
    (same : ∀ d, ((f d).version, (f d).compiled) = (d.version, d.compiled)) :
    (a.update uri f).truth other = a.truth other := by
  rw [truth, truth, update_open? a uri other f keeps]
  split
  · rw [Option.map_map]
    exact congrArg (fun g => Option.map g (a.open? other)) (funext same)
  · rfl

theorem moveTo_truth (a : Analysis) (uri other : String) (phase : Phase) :
    (a.moveTo uri phase).truth other = a.truth other := by
  rw [truth, truth, moveTo_open?]
  split
  · rw [Option.map_map]; rfl
  · rfl

theorem moveTo_proceeds {a : Analysis} (h : a.Sound) (uri : String) (phase : Phase) :
    Proceeds a (a.moveTo uri phase) := by
  refine .silent h (fun other => moveTo_truth a uri other phase) ?_ ?_
    (moveTo_publications a uri phase)
  · intro other _
    rw [shownVersion?, moveTo_snapshot]
    rfl
  · rw [moveTo_snapshot]
    exact h.found

/-- What the compiler found last, if it is about this version. -/
theorem Sound.compiledFor {a : Analysis} (h : a.Sound) {uri : String} {d : OpenDocument}
    (opened : a.open? uri = some d) (version : Option Int) :
    AllFrom .compiler (d.compiledFor version) := by
  unfold OpenDocument.compiledFor
  split
  · rename_i c kept
    split
    · exact h.kept uri d.version c (by rw [truth_of_open opened, kept])
    · exact .nil _
  · exact .nil _

/-- The compiler's part of found diagnostics with some of the compiler behind. -/
theorem filter_compiler {found compiled : List Diagnostic} (h : AllFrom .analysis found)
    (h' : AllFrom .compiler compiled) :
    (found ++ compiled).filter (·.origin == .compiler) = compiled := by
  have left : found.filter (·.origin == .compiler) = [] := by
    refine List.filter_eq_nil_iff.mpr fun d member => ?_
    rw [h d member]
    decide
  have right : compiled.filter (·.origin == .compiler) = compiled := by
    refine List.filter_eq_self.mpr fun d member => ?_
    rw [h' d member]
    rfl
  rw [List.filter_append, left, right, List.nil_append]

theorem publish_proceeds {a : Analysis} (h : a.Sound) {uri : String} {version : Option Int}
    {compiled : List Diagnostic}
    (kept : ∀ d, a.open? uri = some d → compiled = [] ∨ compiled = d.compiledFor version) :
    Proceeds a (a.publish uri version compiled) := by
  unfold publish
  split
  · rename_i x found d in_snapshot diagnosed opened
    have from_compiler : AllFrom .compiler compiled := by
      rcases kept d opened with none_found | same
      · rw [none_found]; exact .nil _
      · rw [same]; exact h.compiledFor opened version
    split
    · rename_i guard
      simp only [Bool.and_eq_true, decide_eq_true_eq, Bool.not_eq_true'] at guard
      have truths : ∀ other, (a.update uri ({ · with lastPublished := version })).truth other =
        a.truth other :=
        fun other => update_truth a uri other (fun _ => rfl) (fun _ => rfl)
      have marked : Proceeds a (a.update uri ({ · with lastPublished := version })) :=
        .silent h truths (fun _ _ => rfl) h.found rfl
      refine ⟨⟨marked.sound.shown, marked.sound.kept, h.found⟩, truths, fun _ _ => rfl,
        [⟨uri, version, x.document.text, found ++ compiled⟩], rfl, ?_⟩
      intro p member
      rw [List.mem_singleton.mp member]
      have here := truths uri
      rw [truth_of_open opened] at here
      obtain ⟨e, opened', version', compiled'⟩ := open_of_truth here
      refine ⟨⟨e, opened', version'.trans guard.1.2, ?_⟩, ?_⟩
      · have part := filter_compiler (Snapshot.diagnostics_origin h.found diagnosed) from_compiler
        rcases kept d opened with none_found | same
        · exact Or.inl (part.trans none_found)
        · refine Or.inr (part.trans ?_)
          rw [same, OpenDocument.compiledFor, OpenDocument.compiledFor, compiled']
      · show (a.snapshot.document? uri).map (·.document.version) = some version
        rw [in_snapshot, Option.map_some, guard.1.1]
    · exact .refl h
  · exact .refl h

theorem republish_proceeds {a : Analysis} (h : a.Sound) (uri : String) :
    Proceeds a (a.republish uri) := by
  unfold republish
  split
  · rename_i d opened
    refine publish_proceeds h fun e opened' => Or.inr ?_
    rw [Option.some.inj (opened.symm.trans opened')]
  · exact .refl h

/-- Once another snapshot is in place, only publications follow. -/
theorem replaceSnapshot_proceeds {a : Analysis} {new : Snapshot}
    (h : ({ a with snapshot := new }).Sound)
    (changed : Option String) :
      Proceeds { a with snapshot := new } (a.replaceSnapshot changed new) :=
  .foldl (fun _ uri sound => republish_proceeds sound uri) _ h

theorem record_proceeds {a : Analysis} (h : a.Sound) (files : List SourceText) :
    Proceeds a (a.record (.compiled files)) :=
  .silent h (fun _ => rfl) (fun _ _ => rfl) h.found rfl

theorem queue_proceeds {a : Analysis} (h : a.Sound) (passes : List Pass) :
    Proceeds a { a with passes } := .silent h (fun _ => rfl) (fun _ _ => rfl) h.found rfl

theorem schedule_proceeds {a : Analysis} (h : a.Sound) (number : Nat) (uri : String)
    (version : Option Int) (saved : Bool) : Proceeds a (a.schedule number uri version saved) := by
  unfold schedule
  split
  · exact publish_proceeds h fun _ _ => Or.inl rfl
  · exact queue_proceeds h _

theorem startCompiling_proceeds {a : Analysis} (h : a.Sound) (number : Nat) (uri : String)
    (version : Option Int) : Proceeds a (a.startCompiling number uri version) := by
  unfold startCompiling
  split
  · exact publish_proceeds h fun _ _ => Or.inl rfl
  · split
    · exact .refl h
    · split
      · dsimp only
        have queued := fun passes => queue_proceeds h passes
        have moved :=
          fun passes => (queued passes).trans (moveTo_proceeds (queued passes).sound uri .compiling)
        exact (moved _).trans (record_proceeds (moved _).sound _)
      · exact .refl h

end Analysis

end RuleDesk
