import RuleDesk.Analysis.Action

namespace RuleDesk

/-- Versions in the order of time. No version is older than any. -/
def versionLe : Option Int → Option Int → Prop
  | none, _ => True
  | some _, none => False
  | some v, some w => v ≤ w

theorem versionLe_refl (v : Option Int) : versionLe v v := by
  cases v with
  | none => trivial
  | some v => exact Int.le_refl v

theorem versionLe_trans {u v w : Option Int} (h : versionLe u v) (h' : versionLe v w) :
    versionLe u w := by
  cases u with
  | none => trivial
  | some u =>
    cases v with
    | none => exact h.elim
    | some v =>
      cases w with
      | none => exact h'.elim
      | some w => exact Int.le_trans h h'

/-- The publication that an event is. -/
def Event.publication? : Event → Option Publication
  | published p => some p
  | _ => none

/-- One step of a run: an action, and the disk as it is at that moment. -/
structure Step where
  disk : Disk
  action : Action

namespace Analysis

def after (a : Analysis) (s : Step) : Analysis := a.apply s.disk s.action

/-- What the analysis is after some steps, each one atomic. -/
def run (a : Analysis) (steps : List Step) : Analysis := steps.foldl after a

@[simp] theorem run_nil (a : Analysis) : a.run [] = a := rfl

@[simp] theorem run_cons (a : Analysis) (s : Step) (steps : List Step) :
    a.run (s :: steps) = (a.after s).run steps := rfl

theorem run_append (a : Analysis) (steps more : List Step) :
    a.run (steps ++ more) = (a.run steps).run more := List.foldl_append

/-- All that was published so far, the newest first. -/
def publications (a : Analysis) : List Publication := a.journal.filterMap Event.publication?

/-- What was published for a document from `a` to `b`, the oldest first. -/
def publishedSince (a b : Analysis) (uri : String) : List Publication :=
  ((b.publications.take (b.publications.length - a.publications.length)).filter
    (·.uri == uri)).reverse

theorem publishedSince_of_append {a b : Analysis} {new : List Publication}
    (h : b.publications = new ++ a.publications) (uri : String) :
    publishedSince a b uri = (new.filter (·.uri == uri)).reverse := by
  have count : b.publications.length - a.publications.length = new.length := by
    rw [h, List.length_append]; omega
  rw [publishedSince, count, h, List.take_left]

/-- The version of the document of a URI in the snapshot. -/
def shownVersion? (a : Analysis) (uri : String) : Option (Option Int) :=
  (a.snapshot.document? uri).map (·.document.version)

/-! ### The small steps of which actions are made -/

section Record

variable (a : Analysis) (e : Event) (uri : String)

@[simp] theorem record_open? : (a.record e).open? uri = a.open? uri := rfl

@[simp] theorem record_isOpen : (a.record e).isOpen uri = a.isOpen uri := rfl

@[simp] theorem record_snapshot : (a.record e).snapshot = a.snapshot := rfl

@[simp] theorem record_passes : (a.record e).passes = a.passes := rfl

@[simp] theorem record_nextPass : (a.record e).nextPass = a.nextPass := rfl

theorem record_published (p : Publication) :
    (a.record (.published p)).publications = p :: a.publications := rfl

@[simp] theorem record_compiled (files : List SourceText) :
    (a.record (.compiled files)).publications = a.publications := rfl

@[simp] theorem record_moved (before phase : Phase) :
    (a.record (.moved uri before phase)).publications = a.publications := rfl

end Record

theorem isOpen_iff (a : Analysis) (uri : String) :
    a.isOpen uri = true ↔ ∃ d, a.open? uri = some d := by
  rw [isOpen, open?, List.any_eq_true, ← Option.isSome_iff_exists, List.find?_isSome]

theorem isOpen_of_open {a : Analysis} {uri : String} {d : OpenDocument} (h : a.open? uri = some d) :
    a.isOpen uri = true :=
  (isOpen_iff a uri).mpr ⟨d, h⟩

theorem open?_uri {a : Analysis} {uri : String} {d : OpenDocument} (h : a.open? uri = some d) :
    d.uri = uri := by
  have found := List.find?_some h
  exact beq_iff_eq.mp found

/-- A change of one document is seen at its URI and nowhere else. -/
theorem update_open? (a : Analysis) (uri other : String) (f : OpenDocument → OpenDocument)
    (keeps : ∀ d, (f d).uri = d.uri) :
    (a.update uri f).open? other = if other = uri then (a.open? other).map f
      else a.open? other := by
  have same : (fun d : OpenDocument => (if d.uri == uri then f d else d).uri == other) =
      fun d => d.uri == other := by
    funext d
    by_cases h : d.uri = uri
    · simp only [h, beq_self_eq_true, if_true, keeps]
    · simp only [beq_iff_eq, h, if_false]
  have found : (a.update uri f).open? other =
      (a.open? other).map fun d => if d.uri == uri then f d else d := by
    simp only [open?, update, List.find?_map, Function.comp_def, same]
  rw [found]
  cases h : a.open? other with
  | none => simp
  | some d =>
    have at_other := open?_uri h
    by_cases eq : other = uri
    · simp only [Option.map_some, at_other, eq, beq_self_eq_true, if_true]
    · simp only [Option.map_some, at_other, beq_iff_eq, eq, if_false]

@[simp] theorem update_snapshot (a : Analysis) (uri : String) (f : OpenDocument → OpenDocument) :
    (a.update uri f).snapshot = a.snapshot := rfl

@[simp] theorem update_publications (a : Analysis) (uri : String)
    (f : OpenDocument → OpenDocument) :
    (a.update uri f).publications = a.publications := rfl

theorem moveTo_open? (a : Analysis) (uri other : String) (phase : Phase) :
    (a.moveTo uri phase).open? other =
      if other = uri then (a.open? other).map ({ · with phase }) else a.open? other := by
  unfold moveTo
  split
  · rename_i absent
    by_cases eq : other = uri
    · rw [if_pos eq, eq, absent]; rfl
    · rw [if_neg eq]
  · rw [record_open?]
    exact update_open? a uri other _ fun _ => rfl

@[simp] theorem moveTo_snapshot (a : Analysis) (uri : String) (phase : Phase) :
    (a.moveTo uri phase).snapshot = a.snapshot := by
  unfold moveTo; split <;> rfl

@[simp] theorem moveTo_publications (a : Analysis) (uri : String) (phase : Phase) :
    (a.moveTo uri phase).publications = a.publications := by
  unfold moveTo; split <;> rfl

@[simp] theorem moveTo_passes (a : Analysis) (uri : String) (phase : Phase) :
    (a.moveTo uri phase).passes = a.passes := by
  unfold moveTo; split <;> rfl

@[simp] theorem moveTo_nextPass (a : Analysis) (uri : String) (phase : Phase) :
    (a.moveTo uri phase).nextPass = a.nextPass := by
  unfold moveTo; split <;> rfl

end Analysis

end RuleDesk
