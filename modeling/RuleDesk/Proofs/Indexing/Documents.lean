import Mathlib.Data.List.Pairwise
import Mathlib.Data.List.Perm.Basic
import RuleDesk.Snapshot

namespace RuleDesk

namespace Snapshot

/-- The document of a URI is one of the documents. -/
theorem mem_of_document? {s : Snapshot} {uri : String} {x : DocumentIndex}
    (h : s.document? uri = some x) : x ∈ s.indexes ∧ x.uri = uri := by
  have at_uri := List.find?_some h
  exact ⟨List.mem_of_find?_eq_some h, beq_iff_eq.mp at_uri⟩

theorem find?_filter_other (xs : List DocumentIndex) {q : DocumentIndex → Bool} {uri : String}
    (kept : ∀ x, x.uri = uri → q x = true) :
    (xs.filter q).find? (·.uri == uri) = xs.find? (·.uri == uri) := by
  rw [List.find?_filter]
  congr 1
  funext x
  by_cases at_uri : x.uri = uri
  · simp only [at_uri, kept x at_uri, beq_self_eq_true, and_self, decide_true]
  · simp only [beq_false_of_ne at_uri, Bool.false_eq_true, and_false, decide_false]

theorem withDocument_document? (s : Snapshot) (x : DocumentIndex) (uri : String) :
    (s.withDocument x).document? uri = if uri = x.uri then some x else s.document? uri := by
  simp only [document?, withDocument, withDocuments, List.foldl_cons, List.foldl_nil,
    List.find?_append]
  by_cases eq : uri = x.uri
  · have absent : (s.indexes.filter fun y => y.uri != x.uri).find? (·.uri == uri) = none := by
      refine List.find?_eq_none.mpr fun y member at_uri => ?_
      have other := (List.mem_filter.mp member).2
      exact (bne_iff_ne.mp other) ((beq_iff_eq.mp at_uri).trans eq)
    rw [absent, if_pos eq, Option.none_or, List.find?_singleton, eq, beq_self_eq_true, if_pos rfl]
  · have kept : ∀ y : DocumentIndex, y.uri = uri → (y.uri != x.uri) = true :=
      fun y at_uri => bne_iff_ne.mpr (at_uri ▸ eq)
    rw [find?_filter_other _ kept, if_neg eq, List.find?_singleton, beq_false_of_ne (Ne.symm eq)]
    simp only [Bool.false_eq_true, if_false, Option.or_none]

/-! ### A document whose rules keep their names -/

/-- What the other documents see of a document: where it is registered, and the
names of its rules. -/
structure SeenAlike (x x' : DocumentIndex) : Prop where
  uri : x'.uri = x.uri
  order : x'.order = x.order
  names : x'.rules.map (·.name) = x.rules.map (·.name)

/-- The document of a URI changed into another one. -/
def exchange (x x' y : DocumentIndex) : DocumentIndex := if y.uri = x.uri then x' else y

theorem declarationsIn_eq (name : String) (x : DocumentIndex) : declarationsIn name x =
    ((x.rules.map (·.name)).zipIdx.filter fun r => r.1 == name).map fun r => (x.uri, r.2) := by
  rw [List.zipIdx_map, List.filter_map, List.map_map]
  rfl

variable {s : Snapshot} {x x' : DocumentIndex}

theorem SeenAlike.declarationsIn (same : SeenAlike x x') (name : String) :
    declarationsIn name x' = declarationsIn name x := by
  rw [declarationsIn_eq, declarationsIn_eq, same.names, same.uri]

/-- Documents of different orders are sorted in one way only. -/
theorem mergeSort_order_eq {l l' : List DocumentIndex} (perm : l.Perm l')
    (orders : l'.Pairwise fun x y => x.order ≠ y.order) :
    (l.mergeSort fun x y => x.order ≤ y.order) = l'.mergeSort fun x y => x.order ≤ y.order := by
  have sorted : ∀ l : List DocumentIndex, (l.mergeSort fun x y => x.order ≤ y.order).Pairwise
      fun x y => decide (x.order ≤ y.order) = true := fun l =>
    @List.pairwise_mergeSort _ (fun x y : DocumentIndex => decide (x.order ≤ y.order))
      (fun _ _ _ first second =>
        decide_eq_true (Nat.le_trans (of_decide_eq_true first) (of_decide_eq_true second)))
      (fun x y => by
        simpa only [Bool.or_eq_true, decide_eq_true_eq] using Nat.le_total x.order y.order) l
  have symm : Std.Symm fun x y : DocumentIndex => x.order ≠ y.order := ⟨fun _ _ => Ne.symm⟩
  refine List.Perm.eq_of_pairwise (fun a b first second le ge => ?_) (sorted l) (sorted l')
    ((List.mergeSort_perm _ _).trans (perm.trans (List.mergeSort_perm _ _).symm))
  have here := perm.mem_iff.mp ((List.mergeSort_perm _ _).mem_iff.mp first)
  have there := (List.mergeSort_perm _ _).mem_iff.mp second
  by_contra other
  exact orders.forall here there other
    (Nat.le_antisymm (of_decide_eq_true le) (of_decide_eq_true ge))

/-- The documents stay in the order in which they were registered. -/
theorem documents_withDocument (distinct : s.indexes.Pairwise fun x y => x.uri ≠ y.uri)
    (orders : s.indexes.Pairwise fun x y => x.order ≠ y.order) (known : x ∈ s.indexes)
    (same : SeenAlike x x') :
    (s.withDocument x').documents = s.documents.map (exchange x x') := by
  obtain ⟨before, later, split⟩ := List.append_of_mem known
  have others : ∀ y ∈ before ++ later, y.uri ≠ x.uri := by
    rw [split] at distinct
    intro y member
    rcases List.mem_append.mp member with first | last
    · exact (List.pairwise_append.mp distinct).2.2 y first x (List.mem_cons_self ..)
    · exact ((List.pairwise_cons.mp (List.pairwise_append.mp distinct).2.1).1 y last).symm
  have unchanged : ∀ y, y.uri ≠ x.uri → exchange x x' y = y := fun y other => if_neg other
  have exchanged : s.indexes.map (exchange x x') = before ++ x' :: later := by
    rw [split, List.map_append, List.map_cons, exchange, if_pos rfl]
    congr 1
    · exact (List.map_congr_left fun y member =>
        unchanged y (others y (List.mem_append_left _ member))).trans (List.map_id _)
    · congr 1
      exact (List.map_congr_left fun y member =>
        unchanged y (others y (List.mem_append_right _ member))).trans (List.map_id _)
  have replaced : (s.withDocument x').indexes = before ++ later ++ [x'] := by
    show s.indexes.filter (fun y => y.uri != x'.uri) ++ [x'] = _
    have gone : (x.uri != x'.uri) = false := bne_eq_false_iff_eq.mpr same.uri.symm
    rw [split, List.filter_append, List.filter_cons_of_neg (by rw [gone]; exact Bool.false_ne_true),
      ← List.filter_append,
      List.filter_eq_self.mpr fun y member => bne_iff_ne.mpr (same.uri ▸ others y member)]
  have perm : (s.withDocument x').indexes.Perm (s.indexes.map (exchange x x')) := by
    rw [replaced, exchanged]
    exact (List.perm_append_singleton _ _).trans List.perm_middle.symm
  have order : ∀ y ∈ s.indexes, (exchange x x' y).order = y.order := by
    intro y member
    rw [split] at member
    rcases List.mem_append.mp member with first | member
    · rw [unchanged y (others y (List.mem_append_left _ first))]
    rcases List.mem_cons.mp member with rfl | last
    · rw [exchange, if_pos rfl, same.order]
    · rw [unchanged y (others y (List.mem_append_right _ last))]
  have orders' : (s.indexes.map (exchange x x')).Pairwise fun x y => x.order ≠ y.order :=
    List.pairwise_map.mpr
      (orders.imp_of_mem fun first second => by rw [order _ first, order _ second]; exact id)
  have equal : (s.withDocument x').documents = (s.indexes.map (exchange x x')).mergeSort fun x y =>
    x.order ≤ y.order :=
    mergeSort_order_eq perm orders'
  rw [equal]
  exact (List.map_mergeSort fun a first b second => by rw [order a first, order b second]).symm

/-- Names of rules mean the same as before. -/
theorem resolveRule?_withDocument (distinct : s.indexes.Pairwise fun x y => x.uri ≠ y.uri)
    (orders : s.indexes.Pairwise fun x y => x.order ≠ y.order) (known : x ∈ s.indexes)
    (same : SeenAlike x x')
    (source name : String) :
    (s.withDocument x').resolveRule? source name = s.resolveRule? source name := by
  have declarations : (s.withDocument x').ruleDeclarations name = s.ruleDeclarations name := by
    unfold ruleDeclarations
    rw [documents_withDocument distinct orders known same, List.flatMap_map]
    have each : ∀ y ∈ s.documents, declarationsIn name (exchange x x' y) =
        declarationsIn name y := by
      intro y member
      unfold exchange
      split
      · rename_i at_uri
        have symm : Std.Symm fun x y : DocumentIndex => x.uri ≠ y.uri := ⟨fun _ _ => Ne.symm⟩
        have here : y = x := by
          by_contra other
          exact distinct.forall ((List.mergeSort_perm _ _).mem_iff.mp member) known other at_uri
        rw [here, same.declarationsIn]
      · rfl
    rw [List.flatMap_congr each]
  unfold resolveRule?
  rw [declarations]

theorem resolveOccurrence?_withDocument (distinct : s.indexes.Pairwise fun x y => x.uri ≠ y.uri)
    (orders : s.indexes.Pairwise fun x y => x.order ≠ y.order) (known : x ∈ s.indexes)
    (same : SeenAlike x x')
    (uri : String) (o : Occurrence) :
    (s.withDocument x').resolveOccurrence? uri o = s.resolveOccurrence? uri o := by
  unfold resolveOccurrence?
  simp only [resolveRule?_withDocument distinct orders known same]

/-- In the other documents all means the same as before. -/
theorem resolve?_withDocument (distinct : s.indexes.Pairwise fun x y => x.uri ≠ y.uri)
    (orders : s.indexes.Pairwise fun x y => x.order ≠ y.order) (known : x ∈ s.indexes)
    (same : SeenAlike x x')
    {other : String} (elsewhere : other ≠ x.uri) (n : Nat) :
    (s.withDocument x').resolve? other n = s.resolve? other n := by
  unfold resolve?
  rw [withDocument_document?, if_neg (same.uri ▸ elsewhere)]
  simp only [resolveOccurrence?_withDocument distinct orders known same]

end Snapshot

end RuleDesk
