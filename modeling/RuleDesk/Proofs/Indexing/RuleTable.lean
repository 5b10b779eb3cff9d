import RuleDesk.Proofs.Indexing.Documents
import RuleDesk.Proofs.Indexing.Resolve
import RuleDesk.Proofs.Parsing.RuleSpans

namespace RuleDesk

/-! ### The documents that survive -/

/-- What is done to the documents of a workspace. A single document is a list
of one, and to remove one is to remove what has its URI. -/
inductive Operation
  | add (documents : List DocumentIndex)
  | remove (p : DocumentIndex → Bool)

namespace Operation

def apply (s : Snapshot) : Operation → Snapshot
  | add documents => s.withDocuments documents
  | remove p => s.withoutDocuments p

example (s : Snapshot) (x : DocumentIndex) : (add [x]).apply s = s.withDocument x := rfl

example (s : Snapshot) (uri : String) :
    (remove (·.uri == uri)).apply s = s.withoutDocument uri := rfl

/-- The documents that are added were read from texts. -/
def Read : Operation → Prop
  | add documents => ∀ x ∈ documents, x.Read
  | remove _ => True

/-- A document is added and not replaced at once: it is the last one of its URI. -/
def Brings (x : DocumentIndex) : Operation → Prop
  | add documents => documents.reverse.find? (·.uri == x.uri) = some x
  | remove _ => False

/-- A document is neither replaced nor removed. -/
def Spares (x : DocumentIndex) : Operation → Prop
  | add documents => ∀ y ∈ documents, y.uri ≠ x.uri
  | remove p => p x = false

/-- A document that is added by one of some operations and spared by those
after it. -/
def Survives (x : DocumentIndex) (ops : List Operation) : Prop :=
  ∃ earlier op later, ops = earlier ++ op :: later ∧ op.Brings x ∧ ∀ o ∈ later, o.Spares x

theorem survives_append {x : DocumentIndex} {ops : List Operation} {op : Operation} :
    Survives x (ops ++ [op]) ↔ op.Brings x ∨ Survives x ops ∧ op.Spares x := by
  constructor
  · rintro ⟨earlier, first, later, split, brings, spares⟩
    rcases List.eq_nil_or_concat later with rfl | ⟨rest, last, rfl⟩
    · obtain ⟨rfl, rfl⟩ := List.append_singleton_inj.mp split
      exact .inl brings
    · rw [List.concat_eq_append, ← List.cons_append, ← List.append_assoc] at split
      obtain ⟨rfl, rfl⟩ := List.append_singleton_inj.mp split
      rw [List.concat_eq_append, List.forall_mem_append] at spares
      exact .inr ⟨⟨earlier, first, rest, rfl, brings, spares.1⟩,
        spares.2 op (List.mem_singleton_self op)⟩
  · rintro (brings | ⟨⟨earlier, first, later, rfl, brings, spares⟩, spared⟩)
    · exact ⟨ops, op, [], rfl, brings, nofun⟩
    · refine ⟨earlier, first, later ++ [op], by simp, brings, ?_⟩
      exact List.forall_mem_append.mpr ⟨spares, List.forall_mem_singleton.mpr spared⟩

end Operation

namespace Snapshot

/-- The snapshot after some operations, from the empty one on. -/
def after (ops : List Operation) : Snapshot := ops.foldl Operation.apply .empty

theorem mem_withDocuments {s : Snapshot} {documents : List DocumentIndex} {x : DocumentIndex} :
    x ∈ (s.withDocuments documents).indexes ↔
      documents.reverse.find? (·.uri == x.uri) = some x ∨ x ∈ s.indexes ∧ ∀ y ∈ documents,
        y.uri ≠ x.uri := by
  unfold withDocuments
  induction documents using List.reverseRecOn with
  | nil => simp
  | append_singleton rest y ih =>
    simp only [List.foldl_append, List.foldl_cons, List.foldl_nil, List.mem_append, List.mem_filter,
      ih, List.mem_singleton,
      List.reverse_append, List.reverse_singleton, List.singleton_append, List.find?_cons, or_imp,
        forall_and, forall_eq]
    by_cases same : y.uri = x.uri
    · simp only [same, bne_self_eq_false, beq_self_eq_true, Bool.false_eq_true, ne_eq,
        not_true_eq_false, and_false, or_false, false_or, Option.some.injEq, eq_comm]
    · have other : x ≠ y := fun eq => same (eq ▸ rfl)
      simp only [beq_false_of_ne same, bne_iff_ne.mpr (Ne.symm same), ne_eq, same, other,
        not_false_eq_true, and_true, or_false]

theorem mem_apply {s : Snapshot} {op : Operation} {x : DocumentIndex} :
    x ∈ (op.apply s).indexes ↔ op.Brings x ∨ x ∈ s.indexes ∧ op.Spares x := by
  cases op with
  | add documents => exact mem_withDocuments
  | remove p => simp [Operation.apply, Operation.Brings, Operation.Spares, withoutDocuments]

theorem mem_after {ops : List Operation} {x : DocumentIndex} :
    x ∈ (after ops).indexes ↔ Operation.Survives x ops := by
  induction ops using List.reverseRecOn with
  | nil => exact ⟨nofun, fun ⟨_, _, _, split, _⟩ => nomatch List.append_eq_nil_iff.mp split.symm⟩
  | append_singleton rest op ih =>
    rw [after, List.foldl_append, List.foldl_cons, List.foldl_nil, mem_apply,
      Operation.survives_append, ← ih]
    rfl

theorem built_after {ops : List Operation} (read : ∀ op ∈ ops, op.Read) : (after ops).Built := by
  induction ops using List.reverseRecOn with
  | nil => exact .empty
  | append_singleton rest op ih =>
    rw [List.forall_mem_append, List.forall_mem_singleton] at read
    have built := ih read.1
    rw [after, List.foldl_append, List.foldl_cons, List.foldl_nil]
    cases op with
    | add documents => exact .add built read.2
    | remove p => exact .remove p built

/-! ### The table of the rules -/

/-- The declarations of a name in one document, each behind the order of the document. -/
def metIn (name : String) (x : DocumentIndex) : List (Nat × String × Nat) :=
  (declarationsIn name x).map fun d => (x.order, d)

/-- The declarations of a name as they are met on a walk over documents. -/
def metOn (walk : List DocumentIndex) (name : String) : List (Nat × String × Nat) :=
  if name == "" then [] else walk.flatMap (metIn name)

/-- By the order of the documents, then by the numbers of the rules. -/
def entryLe (a b : Nat × String × Nat) : Bool := a.1 < b.1 || (a.1 == b.1 && a.2.2 ≤ b.2.2)

/-- The declarations of a name in a table of rules that is built by a walk over
the documents. -/
def tableOf (walk : List DocumentIndex) (name : String) : List (String × Nat) :=
  ((metOn walk name).mergeSort entryLe).map (·.2)

theorem zipIdx_increasing {α : Type} (l : List α) : l.zipIdx.Pairwise fun a b => a.2 < b.2 := by
  refine List.pairwise_map.mp ?_
  rw [List.zipIdx_map_snd]
  exact List.pairwise_lt_range'

theorem mem_declarationsIn {name : String} {x : DocumentIndex} {d : String × Nat} :
    d ∈ declarationsIn name x ↔ d.1 = x.uri ∧ ∃ r, x.rules[d.2]? = some r ∧ r.name = name := by
  obtain ⟨uri, i⟩ := d
  simp only [declarationsIn, List.mem_map, List.mem_filter, beq_iff_eq, Prod.mk.injEq, Prod.exists,
    List.mem_zipIdx_iff_getElem?]
  constructor
  · rintro ⟨r, i, ⟨place, named⟩, rfl, rfl⟩
    exact ⟨rfl, r, place, named⟩
  · rintro ⟨rfl, r, place, named⟩
    exact ⟨r, i, ⟨place, named⟩, rfl, rfl⟩

theorem declarationsIn_increasing (name : String) (x : DocumentIndex) :
    (declarationsIn name x).Pairwise fun d d' => d.2 < d'.2 :=
  List.pairwise_map.mpr ((zipIdx_increasing x.rules).sublist List.filter_sublist)

variable {s : Snapshot}

theorem documents_increasing (orders : s.indexes.Pairwise fun x y => x.order ≠ y.order) :
    s.documents.Pairwise fun x y => x.order < y.order := by
  have sorted := @List.pairwise_mergeSort _ (fun x y : DocumentIndex => decide (x.order ≤ y.order))
    (fun _ _ _ first second =>
      decide_eq_true (Nat.le_trans (of_decide_eq_true first) (of_decide_eq_true second)))
    (fun x y => by
      simpa only [Bool.or_eq_true, decide_eq_true_eq] using Nat.le_total x.order y.order)
      s.indexes
  have distinct := ((List.mergeSort_perm s.indexes fun x y =>
    decide (x.order ≤ y.order)).pairwise_iff Ne.symm).mpr orders
  exact (sorted.and distinct).imp fun both => Nat.lt_of_le_of_ne (of_decide_eq_true both.1) both.2

theorem entryLe_iff {a b : Nat × String × Nat} :
    entryLe a b ↔ a.1 < b.1 ∨ a.1 = b.1 ∧ a.2.2 ≤ b.2.2 := by
  simp only [entryLe, Bool.or_eq_true, Bool.and_eq_true, decide_eq_true_eq, beq_iff_eq]

theorem mergeSort_entryLe_sorted (l : List (Nat × String × Nat)) :
    (l.mergeSort entryLe).Pairwise fun a b => entryLe a b := by
  refine List.pairwise_mergeSort (fun a b c first second => ?_) (fun a b => ?_) l
  · rw [entryLe_iff] at first second ⊢
    omega
  · rw [Bool.or_eq_true, entryLe_iff, entryLe_iff]
    omega

theorem metOn_sorted (orders : s.indexes.Pairwise fun x y => x.order ≠ y.order) (name : String) :
    (metOn s.documents name).Pairwise fun a b => entryLe a b := by
  unfold metOn
  split
  · exact .nil
  refine List.pairwise_flatMap.mpr
    ⟨fun x _ => ?_, (documents_increasing orders).imp fun {x y} before a inside b inside' => ?_⟩
  · refine List.pairwise_map.mpr ((declarationsIn_increasing name x).imp fun {d d'} before => ?_)
    exact entryLe_iff.mpr (.inr ⟨rfl, Nat.le_of_lt before⟩)
  · obtain ⟨d, _, rfl⟩ := List.mem_map.mp inside
    obtain ⟨d', _, rfl⟩ := List.mem_map.mp inside'
    exact entryLe_iff.mpr (.inl before)

theorem metOn_perm {walk walk' : List DocumentIndex} (all : walk.Perm walk') (name : String) :
    (metOn walk name).Perm (metOn walk' name) := by
  unfold metOn
  split
  · exact .refl _
  · exact all.flatMap_right _

/-- Entries of one order are of one document, and a rule is met once there. -/
theorem metOn_key (orders : s.indexes.Pairwise fun x y => x.order ≠ y.order) {name : String}
    {a b : Nat × String × Nat}
    (first : a ∈ metOn s.documents name) (second : b ∈ metOn s.documents name) (le : entryLe a b)
    (ge : entryLe b a) : a = b := by
  unfold metOn at first second
  split at first
  · cases first
  rename_i named
  rw [if_neg named] at second
  obtain ⟨x, known, inside⟩ := List.mem_flatMap.mp first
  obtain ⟨y, known', inside'⟩ := List.mem_flatMap.mp second
  obtain ⟨d, declared, rfl⟩ := List.mem_map.mp inside
  obtain ⟨d', declared', rfl⟩ := List.mem_map.mp inside'
  rw [entryLe_iff] at le ge
  dsimp only at le ge
  have order : x.order = y.order := by omega
  have symm : Std.Symm fun x y : DocumentIndex => x.order ≠ y.order := ⟨fun _ _ => Ne.symm⟩
  obtain rfl : x = y := by
    by_contra other
    exact orders.forall (mem_documents.mp known) (mem_documents.mp known') other order
  have uri : d.1 = d'.1 :=
    (mem_declarationsIn.mp declared).1.trans (mem_declarationsIn.mp declared').1.symm
  have number : d.2 = d'.2 := by omega
  rw [show d = d' from Prod.ext uri number]

theorem ruleDeclarations_eq (name : String) :
    s.ruleDeclarations name = (metOn s.documents name).map (·.2) := by
  unfold ruleDeclarations metOn
  split
  · rfl
  · rw [List.map_flatMap]
    refine List.flatMap_congr fun x _ => ?_
    rw [metIn, List.map_map]
    exact (List.map_id _).symm

/-- In whatever order the documents are walked over, the table is the same. -/
theorem tableOf_eq (orders : s.indexes.Pairwise fun x y => x.order ≠ y.order)
    {walk : List DocumentIndex}
    (all : walk.Perm s.indexes) (name : String) : tableOf walk name = s.ruleDeclarations name := by
  have perm : ((metOn walk name).mergeSort entryLe).Perm (metOn s.documents name) :=
    (List.mergeSort_perm _ _).trans (metOn_perm (all.trans (List.mergeSort_perm _ _).symm) name)
  rw [ruleDeclarations_eq, tableOf]
  congr 1
  refine List.Perm.eq_of_pairwise (fun a b first second => ?_) (mergeSort_entryLe_sorted _)
    (metOn_sorted orders name) perm
  exact metOn_key orders (perm.mem_iff.mp first) second

/-- Snapshots of the same documents have the same table. -/
theorem ruleDeclarations_congr {t : Snapshot} (sound : s.Sound) (sound' : t.Sound)
    (orders : s.indexes.Pairwise fun x y => x.order ≠ y.order)
    (same : ∀ x, x ∈ t.indexes ↔ x ∈ s.indexes) (name : String) :
    t.ruleDeclarations name = s.ruleDeclarations name := by
  have nodup : ∀ {u : Snapshot}, u.Sound → u.indexes.Nodup := fun sound =>
    sound.distinct.imp fun other eq => other (congrArg DocumentIndex.uri eq)
  have perm : t.indexes.Perm s.indexes :=
    (List.perm_ext_iff_of_nodup (nodup sound') (nodup sound)).mpr same
  have orders' := (perm.pairwise_iff Ne.symm).mpr orders
  rw [← tableOf_eq orders perm, ← tableOf_eq orders' (.refl _)]

theorem mem_ruleDeclarations {name : String} (named : name ≠ "") {d : String × Nat} :
    d ∈ s.ruleDeclarations name ↔
    ∃ x ∈ s.indexes, d.1 = x.uri ∧ ∃ r, x.rules[d.2]? = some r ∧ r.name = name := by
  rw [ruleDeclarations, if_neg (by simpa using named), List.mem_flatMap]
  simp only [mem_documents, mem_declarationsIn]

/-- The document of a listed rule comes before that of another one, or they are
of one document and the rule starts before. -/
def Earlier (s : Snapshot) (d d' : String × Nat) : Prop :=
  ∃ x ∈ s.indexes, ∃ x' ∈ s.indexes, d.1 = x.uri ∧ d'.1 = x'.uri ∧ ∃ r r', x.rules[d.2]? = some r ∧
    x'.rules[d'.2]? = some r' ∧ (x.order < x'.order ∨ x = x' ∧ r.span.start < r'.span.start)

end Snapshot

theorem name_wide {text : List Char} {r : Rule} (member : r ∈ (parse text).rules)
    (named : r.ident.name ≠ "") :
    r.ident.span.start < r.ident.span.stop := by
  have own : (Kind.ident, r.ident) ∈ r.names := by
    rw [Rule.names, if_neg named]
    exact List.mem_cons_self ..
  exact (names_apart text).2 _ (List.mem_flatMap.mpr ⟨r, member, own⟩)

/-- The rules of a document stand one behind the other, and so do their names. -/
theorem DocumentIndex.Read.rules_increasing {x : DocumentIndex} (h : x.Read) {i j : Nat}
    {r q : RuleSymbol}
    (first : x.rules[i]? = some r) (second : x.rules[j]? = some q) (before : i < j) :
    r.span.start < q.span.start ∧ (r.name ≠ "" → r.nameSpan.start < q.nameSpan.start) := by
  obtain ⟨uri, version, text, catalog, order, rfl⟩ := h
  obtain ⟨rule, place, rfl⟩ := Option.map_eq_some_iff.mp (List.getElem?_map ▸ first)
  obtain ⟨rule', place', rfl⟩ := Option.map_eq_some_iff.mp (List.getElem?_map ▸ second)
  have placed := parse_places_rules text
  have member : rule ∈ (parse text).rules := List.mem_of_getElem? place
  have apart : rule.span.stop ≤ rule'.span.start := by
    obtain ⟨short, eq⟩ := List.getElem?_eq_some_iff.mp place
    obtain ⟨short', eq'⟩ := List.getElem?_eq_some_iff.mp place'
    exact eq ▸ eq' ▸ List.pairwise_iff_getElem.mp placed.ordered i j short short' before
  have this := placed.placed rule member
  refine ⟨Nat.lt_of_lt_of_le this.nonempty apart, fun named => ?_⟩
  have other := (placed.placed rule' (List.mem_of_getElem? place')).name.start
  exact Nat.lt_of_lt_of_le (name_wide member named)
    (Nat.le_trans this.name.stop (Nat.le_trans apart other))

namespace Snapshot

variable {s : Snapshot}

theorem ruleDeclarations_ordered (sound : s.Sound)
    (orders : s.indexes.Pairwise fun x y => x.order ≠ y.order) (name : String) :
    (s.ruleDeclarations name).Pairwise s.Earlier := by
  unfold ruleDeclarations
  split
  · exact .nil
  refine List.pairwise_flatMap.mpr ⟨fun x known => ?_, (documents_increasing orders).imp_of_mem
    fun {x y} known known' before d inside d' inside' => ?_⟩
  · refine (declarationsIn_increasing name x).imp_of_mem fun {d d'} inside inside' before => ?_
    obtain ⟨uri, r, place, _⟩ := mem_declarationsIn.mp inside
    obtain ⟨uri', r', place', _⟩ := mem_declarationsIn.mp inside'
    have known := mem_documents.mp known
    have starts := ((sound.read x known).rules_increasing place place' before).1
    exact ⟨x, known, x, known, uri, uri', r, r', place, place', .inr ⟨rfl, starts⟩⟩
  · obtain ⟨uri, r, place, _⟩ := mem_declarationsIn.mp inside
    obtain ⟨uri', r', place', _⟩ := mem_declarationsIn.mp inside'
    exact ⟨x, mem_documents.mp known, y, mem_documents.mp known', uri, uri', r, r', place, place',
      .inl before⟩

theorem ruleDeclarations_nodup (sound : s.Sound)
    (orders : s.indexes.Pairwise fun x y => x.order ≠ y.order) (name : String) :
    (s.ruleDeclarations name).Nodup := by
  refine (ruleDeclarations_ordered sound orders name).imp ?_
  rintro d _ ⟨x, known, x', known', uri, uri', r, r', place, place', before⟩ rfl
  have same := sound.document? known'
  rw [← uri', uri, sound.document? known] at same
  obtain rfl := Option.some.inj same
  obtain rfl := Option.some.inj (place.symm.trans place')
  rcases before with before | ⟨_, before⟩
  · exact Nat.lt_irrefl _ before
  · exact Nat.lt_irrefl _ before

/-! ### Conflicts and what a name means -/

/-- The number of the conflicts at the name of a rule. -/
def conflictCount (s : Snapshot) (d : String × Nat) : Nat :=
  ((s.conflicts d.1).filter fun c => (s.ruleOf? d.1 d.2).any (·.nameSpan == c.span)).length

theorem conflict?_span {uri : String} {i : Nat} {r : RuleSymbol} {c : Diagnostic}
    (h : s.conflict? uri i r = some c) :
    c.span = r.nameSpan := by
  obtain ⟨⟨first, n⟩, _, found⟩ := Option.bind_eq_some_iff.mp h
  dsimp only at found
  split at found
  · cases found
  · obtain rfl := Option.some.inj found
    rfl

/-- A rule without a name has no conflict. -/
theorem conflict?_named {uri : String} {i : Nat} {r : RuleSymbol} {c : Diagnostic}
    (h : s.conflict? uri i r = some c) :
    r.name ≠ "" := by
  intro missing
  rw [conflict?, missing] at h
  cases h

theorem conflict?_first {uri : String} {i : Nat} {r : RuleSymbol}
    (first : (s.ruleDeclarations r.name).head? = some (uri, i)) :
    s.conflict? uri i r = none := by
  simp only [conflict?, first, Option.bind_some, beq_self_eq_true, Bool.and_self, if_true]

theorem conflict?_later {uri : String} {i : Nat} {r : RuleSymbol} {d : String × Nat}
    (first : (s.ruleDeclarations r.name).head? = some d) (later : d ≠ (uri, i)) :
    (s.conflict? uri i r).isSome := by
  obtain ⟨uri', j⟩ := d
  have other : ¬ (uri' == uri && j == i) := fun same => by
    obtain ⟨uri_eq, number⟩ := Bool.and_eq_true_iff.mp same
    exact later (Prod.ext (beq_iff_eq.mp uri_eq) (beq_iff_eq.mp number))
  rw [conflict?, first, Option.bind_some]
  dsimp only
  rw [if_neg other]
  rfl

theorem mem_conflicts {uri : String} {c : Diagnostic} : c ∈ s.conflicts uri ↔
    ∃ x, s.document? uri = some x ∧ ∃ i r, x.rules[i]? = some r ∧ s.conflict? uri i r = some c := by
  simp only [conflicts, List.mem_flatMap, Option.mem_toList, List.mem_filterMap, Prod.exists,
    List.mem_zipIdx_iff_getElem?]
  exact exists_congr fun x => and_congr_right fun _ => exists_comm

/-- The conflicts at the name of a rule are those that are reported for it. -/
theorem conflictCount_eq (sound : s.Sound) {x : DocumentIndex} (known : x ∈ s.indexes) {i : Nat}
    {r : RuleSymbol} (place : x.rules[i]? = some r) (named : r.name ≠ "") :
    s.conflictCount (x.uri, i) = (s.conflict? x.uri i r).toList.length := by
  have read := sound.read x known
  obtain ⟨before, later, split⟩ :=
    List.append_of_mem (List.mem_zipIdx_iff_getElem?.mpr place : (r, i) ∈ x.rules.zipIdx)
  have increasing := zipIdx_increasing x.rules
  have placeOf : ∀ p ∈ before ++ (r, i) :: later, x.rules[p.2]? = some p.1 := fun p member =>
    List.mem_zipIdx_iff_getElem?.mp (split ▸ member)
  rw [split, List.pairwise_append, List.pairwise_cons] at increasing
  -- What is reported for the other rules is at their own names.
  have elsewhere : ∀ p ∈ before ++ later, ∀ c, s.conflict? x.uri p.2 p.1 = some c →
      ¬ (r.nameSpan == c.span) := by
    intro p member c found same
    have span : p.1.nameSpan.start = r.nameSpan.start := by
      rw [beq_iff_eq.mp same, conflict?_span found]
    rcases List.mem_append.mp member with first | last
    · have start := (read.rules_increasing (placeOf p (List.mem_append_left _ first)) place
        (increasing.2.2 p first (r, i) (List.mem_cons_self ..))).2 (conflict?_named found)
      exact absurd span (Nat.ne_of_lt start)
    · have start := (read.rules_increasing place
        (placeOf p (List.mem_append_right _ (List.mem_cons_of_mem _ last)))
        (increasing.2.1.1 p last)).2 named
      exact absurd span (Nat.ne_of_gt start)
  have others : ∀ part : List (RuleSymbol × Nat), (∀ p ∈ part, p ∈ before ++ later) →
      (part.filterMap fun p => s.conflict? x.uri p.2 p.1).filter
        (fun c => r.nameSpan == c.span) = [] := by
    refine fun part inside => List.filter_eq_nil_iff.mpr fun c member => ?_
    obtain ⟨p, listed, found⟩ := List.mem_filterMap.mp member
    exact elsewhere p (inside p listed) c found
  have rule : s.ruleOf? x.uri i = some r := by
    rw [ruleOf?, sound.document? known, Option.bind_some, place]
  have all : s.conflicts x.uri = (before ++ [(r, i)] ++ later).filterMap fun p =>
      s.conflict? x.uri p.2 p.1 := by
    rw [conflicts, sound.document? known, Option.toList_some, List.flatMap_singleton, split,
      List.append_assoc, List.singleton_append]
  rw [conflictCount, rule, all, List.filterMap_append, List.filterMap_append, List.filter_append,
    List.filter_append]
  simp only [Option.any_some, others before fun p => List.mem_append_left _, others later fun p =>
    List.mem_append_right _, List.nil_append, List.append_nil]
  cases found : s.conflict? x.uri i r with
  | none => simp [found]
  | some c => simp [found, conflict?_span found]

theorem head?_declarationsIn (name : String) (x : DocumentIndex) :
    (declarationsIn name x).head? = (x.ruleNamed? name).map fun i => (x.uri, i) := by
  rw [declarationsIn, List.head?_map, List.head?_filter, DocumentIndex.ruleNamed?,
    List.findIdx?_eq_fst_find?_zipIdx, Option.map_map]
  rfl

/-- The first declaration of a name in a document, by its URI, is the first of
those in this document. -/
theorem find?_declarations (uri name : String) (docs : List DocumentIndex)
    (distinct : docs.Pairwise fun x y => x.uri ≠ y.uri) :
    (docs.flatMap (declarationsIn name)).find? (·.1 == uri) =
      (docs.find? (·.uri == uri)).bind fun x => (declarationsIn name x).head? := by
  induction docs with
  | nil => rfl
  | cons x rest ih =>
    obtain ⟨others, distinct⟩ := List.pairwise_cons.mp distinct
    have own : ∀ d ∈ declarationsIn name x, d.1 = x.uri :=
      fun d member => (mem_declarationsIn.mp member).1
    rw [List.flatMap_cons, List.find?_append, ih distinct]
    by_cases same : x.uri = uri
    · have first : (declarationsIn name x).find? (·.1 == uri) = (declarationsIn name x).head? := by
        cases listed : declarationsIn name x with
        | nil => rfl
        | cons d more =>
          have at_uri := (own d (listed ▸ List.mem_cons_self ..)).trans same
          exact List.find?_cons_of_pos (beq_iff_eq.mpr at_uri)
      have none : rest.find? (·.uri == uri) = none :=
        List.find?_eq_none.mpr fun y member at_uri =>
          others y member (same.trans (beq_iff_eq.mp at_uri).symm)
      have here : (x :: rest).find? (·.uri == uri) = some x :=
        List.find?_cons_of_pos (beq_iff_eq.mpr same)
      rw [first, none, here]
      exact Option.or_none
    · have none : (declarationsIn name x).find? (·.1 == uri) = none :=
        List.find?_eq_none.mpr fun d member at_uri =>
          same ((own d member).symm.trans (beq_iff_eq.mp at_uri))
      have there : (x :: rest).find? (·.uri == uri) = rest.find? (·.uri == uri) :=
        List.find?_cons_of_neg fun at_uri => same (beq_iff_eq.mp at_uri)
      rw [none, there]
      exact Option.none_or

/-- In its own document a name means the first rule of this name there, and
elsewhere the first one of all. -/
theorem resolveRule?_eq (sound : s.Sound) (uri : String) {name : String} (named : name ≠ "") :
    s.resolveRule? uri name =
      (((s.document? uri).bind fun x => x.ruleNamed? name).map fun i => (uri, i)).or
        (s.ruleDeclarations name).head? := by
  have perm := List.mergeSort_perm s.indexes fun x y => decide (x.order ≤ y.order)
  have distinct : s.documents.Pairwise fun x y => x.uri ≠ y.uri :=
    (perm.pairwise_iff Ne.symm).mpr sound.distinct
  have sorted : Sound ⟨s.generation, s.documents⟩ :=
    ⟨distinct, fun x member => sound.read x (mem_documents.mp member)⟩
  have found : s.documents.find? (·.uri == uri) = s.document? uri := by
    cases known : s.document? uri with
    | none =>
      have absent := List.find?_eq_none.mp (show s.indexes.find? (·.uri == uri) = none from known)
      exact List.find?_eq_none.mpr fun x member => absent x (mem_documents.mp member)
    | some x =>
      obtain ⟨member, rfl⟩ := mem_of_document? known
      exact sorted.document? (mem_documents.mpr member)
  have own : (s.ruleDeclarations name).find? (·.1 == uri) =
      ((s.document? uri).bind fun x => x.ruleNamed? name).map fun i => (uri, i) := by
    rw [ruleDeclarations, if_neg (by simpa using named),
      find?_declarations uri name _ distinct, found]
    cases known : s.document? uri with
    | none => rfl
    | some x =>
      rw [Option.bind_some, Option.bind_some, head?_declarationsIn, (mem_of_document? known).2]
  rw [resolveRule?, own]

/-- What is said of the rules of a snapshot by all that reads its table. -/
structure Tabled (s : Snapshot) : Prop where
  /-- The table is the same in whatever order the documents are walked over. -/
  walked : ∀ walk : List DocumentIndex, walk.Perm s.indexes →
      ∀ name, tableOf walk name = s.ruleDeclarations name
  /-- Every rule of a name is listed and nothing else is. -/
  listed : ∀ name, name ≠ "" → ∀ d, d ∈ s.ruleDeclarations name ↔
    ∃ x ∈ s.indexes, d.1 = x.uri ∧ ∃ r, x.rules[d.2]? = some r ∧ r.name = name
  once : ∀ name, (s.ruleDeclarations name).Nodup
  ordered : ∀ name, (s.ruleDeclarations name).Pairwise s.Earlier
  /-- The first rule of a name has no conflict, and all the others have one. -/
  conflicts : ∀ name first rest, s.ruleDeclarations name = first :: rest →
    s.conflictCount first = 0 ∧ ∀ d ∈ rest, s.conflictCount d = 1
  /-- There are no other conflicts. -/
  only : ∀ uri, ∀ c ∈ s.conflicts uri, ∃ name i, (uri, i) ∈ s.ruleDeclarations name ∧
    (s.ruleOf? uri i).map (·.nameSpan) = some c.span
  resolved : ∀ uri name, name ≠ "" → s.resolveRule? uri name =
    (((s.document? uri).bind fun x => x.ruleNamed? name).map fun i => (uri, i)).or
    (s.ruleDeclarations name).head?

theorem Sound.tabled (sound : s.Sound) (orders : s.indexes.Pairwise fun x y => x.order ≠ y.order) :
    s.Tabled where
  walked walk all name := tableOf_eq orders all name
  listed name named d := mem_ruleDeclarations named
  once := ruleDeclarations_nodup sound orders
  ordered := ruleDeclarations_ordered sound orders
  conflicts name first rest split := by
    have named : name ≠ "" := by
      rintro rfl
      cases split
    have count : ∀ d ∈ s.ruleDeclarations name, ∃ x ∈ s.indexes, d = (x.uri, d.2) ∧
        ∃ r : RuleSymbol, r.name = name ∧
        s.conflictCount d = (s.conflict? x.uri d.2 r).toList.length := by
      rintro ⟨uri, i⟩ member
      obtain ⟨x, known, rfl, r, place, rfl⟩ := (mem_ruleDeclarations named).mp member
      exact ⟨x, known, rfl, r, rfl, conflictCount_eq sound known place named⟩
    have head : (s.ruleDeclarations name).head? = some first := by rw [split]; rfl
    have once := ruleDeclarations_nodup sound orders name
    rw [split] at once count
    constructor
    · obtain ⟨x, _, at_uri, r, rfl, conflicts⟩ := count first (List.mem_cons_self ..)
      rw [conflicts, conflict?_first (at_uri ▸ head)]
      rfl
    · intro d member
      obtain ⟨x, _, at_uri, r, rfl, conflicts⟩ := count d (List.mem_cons_of_mem _ member)
      have later : first ≠ (x.uri, d.2) :=
        at_uri ▸ fun eq => (List.nodup_cons.mp once).1 (eq ▸ member)
      obtain ⟨c, found⟩ := Option.isSome_iff_exists.mp (conflict?_later head later)
      rw [conflicts, found]
      rfl
  only uri c member := by
    obtain ⟨x, known, i, r, place, found⟩ := mem_conflicts.mp member
    obtain ⟨inside, rfl⟩ := mem_of_document? known
    refine ⟨r.name, i,
      (mem_ruleDeclarations (conflict?_named found)).mpr ⟨x, inside, rfl, r, place, rfl⟩, ?_⟩
    rw [ruleOf?, known, Option.bind_some, place, conflict?_span found]
    rfl
  resolved uri name named := resolveRule?_eq sound uri named

/-- Whatever is done to the documents of a workspace and in whatever order, the
table of its rules depends on nothing but the documents that survive, if these
are registered one after the other. -/
theorem after_tabled (ops : List Operation) (read : ∀ op ∈ ops, op.Read)
    (orders : (after ops).indexes.Pairwise fun x y => x.order ≠ y.order) :
    (after ops).Tabled ∧ (∀ x, x ∈ (after ops).indexes ↔ Operation.Survives x ops) ∧
      ∀ ops', (∀ op ∈ ops', op.Read) → (∀ x, Operation.Survives x ops' ↔ Operation.Survives x ops) →
        ∀ name, (after ops').ruleDeclarations name = (after ops).ruleDeclarations name := by
  have sound := (built_after read).sound
  refine ⟨sound.tabled orders, fun x => mem_after, fun ops' read' same name => ?_⟩
  refine ruleDeclarations_congr sound (built_after read').sound orders (fun x => ?_) name
  rw [mem_after, mem_after, same]

/-- Two documents that both declare a rule, and one of them does so twice. -/
def twins : List DocumentIndex :=
  [(Document.ofText "file:///b.yar" none
   "rule a \x7b condition: true \x7d rule a \x7b condition: false \x7d".toList).index ⟨[]⟩ 1,
   (Document.ofText "file:///a.yar" none "rule a \x7b condition: true \x7d".toList).index ⟨[]⟩ 0]

theorem after_tabled_twins :
    (after [.add twins]).indexes.map (·.order) = [1, 0] ∧ (after [.add twins]).Tabled := by
  have read : ∀ op ∈ [Operation.add twins], op.Read := by
    refine List.forall_mem_singleton.mpr fun x member => ?_
    rcases List.mem_cons.mp member with rfl | member
    · exact ⟨_, _, _, _, _, rfl⟩
    · obtain rfl := List.mem_singleton.mp member
      exact ⟨_, _, _, _, _, rfl⟩
  have orders : (after [.add twins]).indexes.map (·.order) = [1, 0] := by decide +kernel
  have distinct : ((after [.add twins]).indexes.map (·.order)).Pairwise (· ≠ ·) := by
    rw [orders]
    decide
  exact ⟨orders, (after_tabled _ read (List.pairwise_map.mp distinct)).1⟩

end Snapshot

end RuleDesk
