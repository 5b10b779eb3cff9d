import RuleDesk.Compiler
import RuleDesk.Proofs.Indexing.Documents
import RuleDesk.Proofs.Indexing.Found

namespace RuleDesk

/-- True of the lists of diagnostics that all come from one origin. -/
def AllFrom (origin : Origin) (ds : List Diagnostic) : Prop := ∀ d ∈ ds, d.origin = origin

theorem AllFrom.nil (origin : Origin) : AllFrom origin [] := fun _ member => nomatch member

theorem AllFrom.append {origin : Origin} {ds es : List Diagnostic} (h : AllFrom origin ds)
    (h' : AllFrom origin es) : AllFrom origin (ds ++ es) := by
  intro d member
  rcases List.mem_append.mp member with left | right
  · exact h d left
  · exact h' d right

theorem AllFrom.sortBySpan {origin : Origin} {ds : List Diagnostic} (h : AllFrom origin ds) :
    AllFrom origin (Diagnostic.sortBySpan ds) := fun d member => h d (List.mem_mergeSort.mp member)

/-- What a name in a condition yields comes from the text. -/
theorem Mention.Yields.origin {rule : Nat} {patterns : List PatternSymbol}
    {vars : List LoopVariable} {m : Mention}
    {os : List Occurrence} {errors : List Diagnostic} (h : m.Yields rule patterns vars os errors) :
    AllFrom .analysis errors := by
  intro d member
  cases h with
  | anonymous | wildcard =>
    obtain rfl := List.mem_singleton.mp (List.mem_ite_nil_left.mp member).2
    rfl
  | pattern =>
    obtain rfl := List.mem_singleton.mp (List.mem_ite_nil_right.mp member).2
    rfl
  | _ => cases member

/-- All that is found by indexing a document comes from its text. -/
theorem Document.index_diagnostics (d : Document) (catalog : Catalog) (order : Nat) :
    AllFrom .analysis (d.index catalog order).diagnostics := by
  refine AllFrom.sortBySpan fun g member => ?_
  rcases (d.found_foundIn catalog).reported g member
    with syntactic | ⟨_, _, _, _, _, _, _, yields, from_it⟩
  · obtain ⟨e, _, rfl⟩ := List.mem_map.mp syntactic
    rfl
  · exact yields.origin g from_it

namespace Snapshot

theorem conflicts_diagnostics (s : Snapshot) (uri : String) :
    AllFrom .analysis (s.conflicts uri) := by
  intro g member
  obtain ⟨x, _, inside⟩ := List.mem_flatMap.mp member
  obtain ⟨⟨rule, i⟩, _, made⟩ := List.mem_filterMap.mp inside
  obtain ⟨⟨first, n⟩, _, found⟩ := Option.bind_eq_some_iff.mp made
  dsimp only at found
  split at found
  · cases found
  · cases found
    rfl

/-- What a snapshot says about a document comes from the texts, if all that
its indexes say does. -/
theorem diagnostics_origin {s : Snapshot} {uri : String} {ds : List Diagnostic}
    (h : ∀ x ∈ s.indexes, AllFrom .analysis x.diagnostics) (found : s.diagnostics uri = .ok ds) :
    AllFrom .analysis ds := by
  unfold diagnostics require at found
  cases at_uri : s.document? uri with
  | none => rw [at_uri] at found; cases found
  | some x =>
    rw [at_uri] at found
    cases found
    exact ((h x (mem_of_document? at_uri).1).append (s.conflicts_diagnostics uri)).sortBySpan

end Snapshot

/-- All that the compiler finds is marked as its own. -/
theorem CompilerAnswer.diagnostics_origin {answer : CompilerAnswer} {d : Document}
    {ds : List Diagnostic} (h : answer.diagnostics? d = some ds) : AllFrom .compiler ds := by
  cases answer with
  | messages found =>
    cases h
    intro g member
    obtain ⟨m, _, made⟩ := List.mem_map.mp member
    rw [← made]
    rfl
  | unavailable => cases h
  | failed _ => cases h

end RuleDesk
