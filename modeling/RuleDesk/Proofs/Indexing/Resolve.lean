import Mathlib.Data.List.Nodup
import RuleDesk.Proofs.Indexing.Documents
import RuleDesk.Proofs.Indexing.Places

namespace RuleDesk

/-- Names that refer to something that is declared elsewhere. -/
def OccurrenceKind.isReference : OccurrenceKind → Bool
  | ruleReference _ | patternReference .. | variableReference _ | moduleReference .. => true
  | ruleDeclaration | patternDeclaration _ | variableDeclaration _ => false

namespace Snapshot

/-- The snapshots of a workspace: documents are added in any order and any
number, new versions of them included, and removed. -/
inductive Built : Snapshot → Prop
  | empty : Built .empty
  | add {s : Snapshot} {added : List DocumentIndex} (h : Built s) (read : ∀ x ∈ added, x.Read) :
      Built (s.withDocuments added)
  | remove {s : Snapshot} (p : DocumentIndex → Bool) (h : Built s) : Built (s.withoutDocuments p)

/-- A snapshot has one index for each of its documents. -/
structure Sound (s : Snapshot) : Prop where
  distinct : s.indexes.Pairwise fun x y => x.uri ≠ y.uri
  read : ∀ x ∈ s.indexes, x.Read

theorem Sound.replace {all : List DocumentIndex} {x : DocumentIndex}
    (distinct : all.Pairwise fun x y => x.uri ≠ y.uri) (read : ∀ x ∈ all, x.Read) (h : x.Read) :
    (all.filter (fun y => y.uri != x.uri) ++ [x]).Pairwise (fun x y => x.uri ≠ y.uri) ∧
      ∀ y ∈ all.filter (fun y => y.uri != x.uri) ++ [x], y.Read := by
  refine ⟨List.pairwise_append.mpr ⟨distinct.sublist List.filter_sublist,
    List.pairwise_singleton _ _, ?_⟩, ?_⟩
  · intro y kept z last
    obtain rfl := List.mem_singleton.mp last
    exact bne_iff_ne.mp (List.mem_filter.mp kept).2
  · intro y member
    rcases List.mem_append.mp member with kept | last
    · exact read y (List.mem_filter.mp kept).1
    · exact List.mem_singleton.mp last ▸ h

theorem Built.sound {s : Snapshot} (built : s.Built) : s.Sound := by
  induction built with
  | empty => exact ⟨.nil, nofun⟩
  | @add s added _ read ih =>
    obtain ⟨distinct, known⟩ := ih
    have all : ∀ (added all : List DocumentIndex), (∀ x ∈ added, x.Read) →
        (all.Pairwise fun x y => x.uri ≠ y.uri) → (∀ x ∈ all, x.Read) →
        Sound ⟨s.generation + 1,
          added.foldl (fun all x => all.filter (fun y => y.uri != x.uri) ++ [x]) all⟩ := by
      intro added
      induction added with
      | nil => exact fun _ _ distinct known => ⟨distinct, known⟩
      | cons x rest ih =>
        intro all read distinct known
        obtain ⟨distinct, known⟩ := Sound.replace distinct known (read x (List.mem_cons_self ..))
        exact ih _ (fun y member => read y (List.mem_cons_of_mem _ member)) distinct known
    exact all added s.indexes read distinct known
  | remove p _ ih =>
    exact ⟨ih.distinct.sublist List.filter_sublist, fun x member =>
      ih.read x (List.mem_filter.mp member).1⟩

variable {s : Snapshot}

namespace Sound

theorem document? (sound : s.Sound) {x : DocumentIndex} (member : x ∈ s.indexes) :
    s.document? x.uri = some x := by
  obtain ⟨before, later, split⟩ := List.append_of_mem member
  have distinct := sound.distinct
  rw [split] at distinct
  unfold Snapshot.document?
  rw [split, List.find?_append, List.find?_eq_none.mpr, Option.none_or]
  · exact List.find?_cons_of_pos (beq_self_eq_true _)
  · intro y earlier same
    exact (List.pairwise_append.mp distinct).2.2 y earlier x (List.mem_cons_self ..)
      (beq_iff_eq.mp same)

/-- At the start of an occurrence the entity is what the occurrence stands for. -/
theorem resolve? (sound : s.Sound) {x : DocumentIndex} (member : x ∈ s.indexes) {o : Occurrence}
    (inside : o ∈ x.occurrences) :
    s.resolve? x.uri o.span.start = s.resolveOccurrence? x.uri o := by
  rw [Snapshot.resolve?, sound.document? member, Option.bind_some,
    (sound.read x member).occurrenceAt? inside]

end Sound

theorem mem_documents {x : DocumentIndex} : x ∈ s.documents ↔ x ∈ s.indexes :=
  (List.mergeSort_perm _ _).mem_iff

theorem mem_spansWhere {x : DocumentIndex} {p : Occurrence → Bool} {place : String × Span} :
    place ∈ spansWhere x p ↔ ∃ o ∈ x.occurrences, p o ∧ place = (x.uri, o.span) := by
  simp only [spansWhere, List.mem_map, List.mem_filter, and_assoc, eq_comm]

/-- The rule that a name means has this name. -/
theorem resolveRule?_ruleOf? (sound : s.Sound) {source name uri : String} {rule : Nat}
    (h : s.resolveRule? source name = some (uri, rule)) : ∃ r, s.ruleOf? uri rule = some r ∧
    r.name = name := by
  have member : (uri, rule) ∈ s.ruleDeclarations name := by
    rcases Option.or_eq_some_iff.mp h with found | ⟨_, first⟩
    · exact List.mem_of_find?_eq_some found
    · exact List.mem_of_mem_head? first
  unfold ruleDeclarations at member
  split at member
  · cases member
  · obtain ⟨x, known, inside⟩ := List.mem_flatMap.mp member
    obtain ⟨⟨r, n⟩, kept, eq⟩ := List.mem_map.mp inside
    obtain ⟨place, same⟩ := List.mem_filter.mp kept
    cases eq
    refine ⟨r, ?_, beq_iff_eq.mp same⟩
    rw [ruleOf?, sound.document? (mem_documents.mp known), Option.bind_some]
    exact List.mem_zipIdx_iff_getElem?.mp place

theorem refersToPattern_iff {rule pattern : Nat} {o : Occurrence} : refersToPattern rule pattern o ↔
    o.rule = rule ∧ ∃ indexed, o.kind = .patternReference (some pattern) false indexed := by
  unfold refersToPattern
  rw [Bool.and_eq_true, beq_iff_eq]
  refine and_congr_right fun _ => ⟨fun asked => ?_, fun ⟨indexed, kind⟩ => ?_⟩
  · split at asked
    · rename_i kind
      exact ⟨_, beq_iff_eq.mp asked ▸ kind⟩
    · cases asked
  · rw [kind]
    exact beq_self_eq_true pattern

theorem refersToMember_iff {path : Path} {o : Occurrence} :
    refersToMember path o ↔ ∃ resolved, o.kind = .moduleReference path resolved := by
  unfold refersToMember
  refine ⟨fun asked => ?_, fun ⟨resolved, kind⟩ => ?_⟩
  · split at asked
    · rename_i kind
      exact ⟨_, beq_iff_eq.mp asked ▸ kind⟩
    · cases asked
  · rw [kind]
    exact beq_self_eq_true path

/-! ### What an occurrence means -/

/-- The entity that an occurrence in a document stands for, and its role for it. -/
inductive Means (s : Snapshot) (uri : String) (o : Occurrence) : Entity → Role → Prop
  | ruleDeclaration (kind : o.kind = .ruleDeclaration) :
      Means s uri o (.rule uri o.rule) .declaration
  | ruleReference {name owner : String} {rule : Nat} (kind : o.kind = .ruleReference name)
      (found : s.resolveRule? uri name = some (owner, rule)) :
      Means s uri o (.rule owner rule) .reference
  | patternDeclaration {p : Nat} (kind : o.kind = .patternDeclaration p) :
      Means s uri o (.pattern uri o.rule p) .declaration
  | patternReference {p : Nat} {indexed : Bool}
      (kind : o.kind = .patternReference (some p) false indexed) :
      Means s uri o (.pattern uri o.rule p) .reference
  | variableDeclaration {v : Nat} (kind : o.kind = .variableDeclaration v) :
      Means s uri o (.loopVariable uri v) .declaration
  | variableReference {v : Nat} (kind : o.kind = .variableReference v) :
      Means s uri o (.loopVariable uri v) .reference
  | moduleReference {path : Path} {resolved : Bool}
      (kind : o.kind = .moduleReference path resolved) :
      Means s uri o (.member path) .reference

theorem resolveOccurrence?_iff {uri : String} {o : Occurrence} {r : Resolved} :
    s.resolveOccurrence? uri o = some r ↔ s.Means uri o r.entity r.role ∧ r.span = o.span := by
  constructor
  · intro means
    unfold resolveOccurrence? at means
    split at means
    case h_2 kind =>
      obtain ⟨_, found, rfl⟩ := Option.map_eq_some_iff.mp means
      exact ⟨.ruleReference kind found, rfl⟩
    case h_5 => cases means
    all_goals
      rename_i kind
      cases means
      refine ⟨?_, rfl⟩
    · exact .ruleDeclaration kind
    · exact .patternDeclaration kind
    · exact .patternReference kind
    · exact .variableDeclaration kind
    · exact .variableReference kind
    · exact .moduleReference kind
  · obtain ⟨entity, role, span⟩ := r
    rintro ⟨means, rfl : span = o.span⟩
    unfold resolveOccurrence?
    cases means with
    | ruleReference kind found => rw [kind]; exact congrArg (Option.map _) found
    | ruleDeclaration kind | patternDeclaration kind | patternReference kind
        | variableDeclaration kind | variableReference kind
    | moduleReference kind => rw [kind]

namespace Means

variable {uri : String} {o : Occurrence}

theorem isReference {S : Entity} (h : s.Means uri o S .reference) : o.kind.isReference := by
  cases h with
  | ruleReference kind | patternReference kind | variableReference kind | moduleReference kind =>
    rw [kind]; rfl

theorem rule_iff {owner : String} {rule : Nat} : s.Means uri o (.rule owner rule) .reference ↔
    ∃ name, o.kind = .ruleReference name ∧ s.resolveRule? uri name = some (owner, rule) := by
  refine ⟨fun h => ?_, fun ⟨_, kind, found⟩ => .ruleReference kind found⟩
  cases h with
  | ruleReference kind found => exact ⟨_, kind, found⟩

theorem pattern_iff {owner : String} {rule pattern : Nat} :
    s.Means uri o (.pattern owner rule pattern) .reference ↔
    uri = owner ∧ refersToPattern rule pattern o := by
  rw [refersToPattern_iff]
  refine ⟨fun h => ?_, ?_⟩
  · cases h with
    | patternReference kind => exact ⟨rfl, rfl, _, kind⟩
  · rintro ⟨rfl, rfl, _, kind⟩
    exact .patternReference kind

theorem loopVariable_iff {owner : String} {var : Nat} :
    s.Means uri o (.loopVariable owner var) .reference ↔
    uri = owner ∧ (o.kind == .variableReference var) = true := by
  rw [beq_iff_eq]
  refine ⟨fun h => ?_, ?_⟩
  · cases h with
    | variableReference kind => exact ⟨rfl, kind⟩
  · rintro ⟨rfl, kind⟩
    exact .variableReference kind

theorem member_iff {path : Path} :
    s.Means uri o (.member path) .reference ↔ refersToMember path o := by
  rw [refersToMember_iff]
  refine ⟨fun h => ?_, fun ⟨_, kind⟩ => .moduleReference kind⟩
  cases h with
  | moduleReference kind => exact ⟨_, kind⟩

end Means

/-- What stands in one document is found there. -/
theorem mem_spansIn (sound : s.Sound) {uri : String} {p : Occurrence → Bool}
    {place : String × Span} :
    place ∈ (s.document? uri).toList.flatMap (spansWhere · p) ↔
      ∃ x ∈ s.indexes, ∃ o ∈ x.occurrences, place = (x.uri, o.span) ∧ x.uri = uri ∧ p o := by
  simp only [List.mem_flatMap, Option.mem_toList, mem_spansWhere]
  constructor
  · rintro ⟨x, found, o, occurs, asked, eq⟩
    obtain ⟨known, same⟩ := mem_of_document? found
    exact ⟨x, known, o, occurs, eq, same, asked⟩
  · rintro ⟨x, known, o, occurs, eq, rfl, asked⟩
    exact ⟨x, sound.document? known, o, occurs, asked, eq⟩

/-- What is found for an entity is what refers to it. -/
theorem mem_referencesTo (sound : s.Sound) (S : Entity) (place : String × Span) :
    place ∈ s.referencesTo S ↔
    ∃ x ∈ s.indexes, ∃ o ∈ x.occurrences, place = (x.uri, o.span) ∧
      s.Means x.uri o S .reference := by
  cases S with
  | rule uri rule =>
    simp only [Means.rule_iff]
    unfold referencesTo
    dsimp only
    constructor
    · intro member
      split at member
      · cases member
      · obtain ⟨x, kept, inside⟩ := List.mem_flatMap.mp member
        obtain ⟨known, means⟩ := List.mem_filter.mp kept
        obtain ⟨o, occurs, kind, eq⟩ := mem_spansWhere.mp inside
        exact ⟨x, mem_documents.mp known, o, occurs, eq, _, beq_iff_eq.mp kind, beq_iff_eq.mp means⟩
    · rintro ⟨x, known, o, occurs, rfl, name, kind, found⟩
      obtain ⟨r, place, rfl⟩ := resolveRule?_ruleOf? sound found
      rw [place]
      refine List.mem_flatMap.mpr
        ⟨x, List.mem_filter.mpr ⟨mem_documents.mpr known, beq_iff_eq.mpr found⟩, ?_⟩
      exact mem_spansWhere.mpr ⟨o, occurs, beq_iff_eq.mpr kind, rfl⟩
  | pattern uri rule pattern =>
    simp only [Means.pattern_iff]
    exact mem_spansIn sound
  | loopVariable uri var =>
    simp only [Means.loopVariable_iff]
    exact mem_spansIn sound
  | member path =>
    simp only [Means.member_iff, referencesTo, List.mem_flatMap, mem_documents,
      mem_spansWhere, and_comm]

/-- The spans of a document are found once each. -/
theorem spansWhere_nodup {x : DocumentIndex} (read : x.Read) (p : Occurrence → Bool) :
    (spansWhere x p).Nodup := by
  obtain ⟨ordered, wide⟩ := read.ordered
  refine List.pairwise_map.mpr
    ((ordered.sublist List.filter_sublist).imp_of_mem fun {o o'} member _ before same => ?_)
  rw [← show o.span = o'.span from congrArg Prod.snd same] at before
  exact Nat.lt_irrefl _ (Nat.lt_of_lt_of_le (wide o (List.mem_filter.mp member).1) before)

theorem referencesTo_nodup (sound : s.Sound) (S : Entity) : (s.referencesTo S).Nodup := by
  have across : ∀ (docs : List DocumentIndex) (p : Occurrence → Bool),
      (docs.Pairwise fun x y => x.uri ≠ y.uri) →
      (∀ x ∈ docs, x.Read) → (docs.flatMap fun x => spansWhere x p).Nodup := by
    intro docs p distinct read
    refine List.nodup_flatMap.mpr ⟨fun x member => spansWhere_nodup (read x member) p,
      distinct.imp fun {x y} other => ?_⟩
    intro place inside inside'
    obtain ⟨_, _, _, rfl⟩ := mem_spansWhere.mp inside
    obtain ⟨_, _, _, eq⟩ := mem_spansWhere.mp inside'
    exact other (congrArg Prod.fst eq)
  have documents : s.documents.Pairwise fun x y => x.uri ≠ y.uri :=
    ((List.mergeSort_perm s.indexes _).pairwise_iff Ne.symm).mpr sound.distinct
  have read : ∀ x ∈ s.documents, x.Read := fun x member => sound.read x (mem_documents.mp member)
  have one : ∀ (uri : String) (p : Occurrence → Bool),
      ((s.document? uri).toList.flatMap fun x => spansWhere x p).Nodup := by
    intro uri p
    cases found : s.document? uri with
    | none => exact .nil
    | some x =>
      rw [Option.toList_some, List.flatMap_singleton]
      exact spansWhere_nodup (sound.read x (mem_of_document? found).1) p
  cases S with
  | rule uri rule =>
    unfold referencesTo
    dsimp only
    split
    · exact .nil
    · exact across _ _ (documents.sublist List.filter_sublist) fun x member =>
        read x (List.mem_filter.mp member).1
  | pattern uri rule pattern => exact one uri _
  | loopVariable uri var => exact one uri _
  | member path => exact across _ _ documents read

/-! ### Declarations -/

/-- Entities that a name declares. All loop variables have names. -/
inductive Named (s : Snapshot) : Entity → Prop
  | rule {x : DocumentIndex} {i : Nat} {r : RuleSymbol} (known : x ∈ s.indexes)
      (place : x.rules[i]? = some r) (named : r.name ≠ "") : Named s (.rule x.uri i)
  | pattern {x : DocumentIndex} {i n : Nat} {r : RuleSymbol} {p : PatternSymbol}
      (known : x ∈ s.indexes)
      (place : x.rules[i]? = some r) (inside : r.patterns[n]? = some p)
      (named : bareName p.name ≠ "") :
      Named s (.pattern x.uri i n)
  | loopVariable {x : DocumentIndex} {i : Nat} {v : LoopVariable} (known : x ∈ s.indexes)
      (place : x.loopVars[i]? = some v) : Named s (.loopVariable x.uri i)

/-- The name that declares an entity is where it is said to be. -/
def Declared (s : Snapshot) (S : Entity) : Prop :=
  ∃ uri span, s.declaration? S = some (uri, span) ∧
    s.resolve? uri span.start = some ⟨S, .declaration, span⟩

theorem Named.declared (sound : s.Sound) {S : Entity} (named : s.Named S) : s.Declared S := by
  cases named with
  | @rule x i r known place named =>
    have declared := (sound.read x known).rule_declared place named
    refine ⟨x.uri, r.nameSpan, ?_, ?_⟩
    · rw [declaration?, ruleOf?, sound.document? known, Option.bind_some, place]
      rfl
    · rw [sound.resolve? known declared]
      rfl
  | @pattern x i n r p known place inside named =>
    have declared := (sound.read x known).pattern_declared place inside named
    refine ⟨x.uri, p.nameSpan, ?_, ?_⟩
    · rw [declaration?, ruleOf?, sound.document? known, Option.bind_some, place,
        Option.bind_some, inside]
      rfl
    · rw [sound.resolve? known declared]
      rfl
  | @loopVariable x i v known place =>
    obtain ⟨o, declared, kind, span⟩ := (sound.read x known).variable_declared place
    refine ⟨x.uri, v.nameSpan, ?_, ?_⟩
    · rw [declaration?, loopVariableOf?, sound.document? known, Option.bind_some, place]
      rfl
    · rw [← span, sound.resolve? known declared, resolveOccurrence?, kind]

/-- What a name refers to is declared somewhere, unless it is of a module. -/
theorem named_of_reference (sound : s.Sound) {x : DocumentIndex} (known : x ∈ s.indexes)
    {o : Occurrence}
    (occurs : o ∈ x.occurrences) {S : Entity} (means : s.Means x.uri o S .reference) :
    (∃ path, S = .member path) ∨ s.Named S := by
  obtain ⟨r, place, origin⟩ := (sound.read x known).origin occurs
  have stands : o.kind.Sound r.patterns x.loopVars.length := by
    rcases origin with kind | ⟨n, kind⟩ | stands
    · exact nomatch kind ▸ means.isReference
    · exact nomatch kind ▸ means.isReference
    · exact stands
  cases means with
  | ruleReference kind found =>
    rw [kind] at stands
    obtain ⟨r', place', rfl⟩ := resolveRule?_ruleOf? sound found
    obtain ⟨y, document, inside⟩ := Option.bind_eq_some_iff.mp place'
    obtain ⟨known', rfl⟩ := mem_of_document? document
    cases stands with
    | rule named => exact .inr (.rule known' inside named)
  | patternReference kind =>
    rw [kind] at stands
    cases stands with
    | pattern inside named => exact .inr (.pattern known place inside named)
  | variableReference kind =>
    rw [kind] at stands
    cases stands with
    | var inside => exact .inr (.loopVariable known (List.getElem?_eq_getElem inside))
  | moduleReference => exact .inl ⟨_, rfl⟩

/-- Going from a name to what it means and from an entity to its names are
exact inverses of each other. -/
structure Inverse (s : Snapshot) (S : Entity) : Prop where
  /-- A reference means the entity if and only if it is found for it. -/
  found : ∀ x ∈ s.indexes, ∀ o ∈ x.occurrences, o.kind.isReference →
    ((∃ span, s.resolve? x.uri o.span.start = some ⟨S, .reference, span⟩) ↔
    (x.uri, o.span) ∈ s.findReferences S false)
  once : ∀ place ∈ s.findReferences S false, (s.findReferences S false).count place = 1
  /-- Nothing else is found. -/
  only : ∀ place ∈ s.findReferences S false, ∃ x ∈ s.indexes, ∃ o ∈ x.occurrences,
      o.kind.isReference ∧ place = (x.uri, o.span)
  declared : s.Named S → s.Declared S
  /-- The definition of a reference is a declaration. -/
  definition : ∀ x ∈ s.indexes, ∀ o ∈ x.occurrences, ∀ span,
    s.resolve? x.uri o.span.start = some ⟨S, .reference, span⟩ →
    (∃ path, S = .member path) ∨ s.Declared S

/-- In every snapshot of a workspace, whatever its documents are, the
references that mean an entity are those that are found for it, once each; and
the name that declares an entity is its own definition. -/
theorem Built.references_inverse (built : s.Built) (S : Entity) : s.Inverse S := by
  have sound := built.sound
  have nodup : (s.findReferences S false).Nodup := referencesTo_nodup sound S
  have found : ∀ place, place ∈ s.findReferences S false ↔ _ := mem_referencesTo sound S
  refine ⟨fun x known o occurs _ => ?_, fun place member => ?_, fun place member => ?_,
    Named.declared sound, ?_⟩
  · rw [sound.resolve? known occurs, found]
    constructor
    · rintro ⟨span, means⟩
      exact ⟨x, known, o, occurs, rfl, (resolveOccurrence?_iff.mp means).1⟩
    · rintro ⟨y, known', o', occurs', eq, means⟩
      have same := sound.document? known'
      rw [← show x.uri = y.uri from congrArg Prod.fst eq, sound.document? known] at same
      obtain rfl := Option.some.inj same
      have there := (sound.read x known).occurrenceAt? occurs'
      rw [← show o.span = o'.span from congrArg Prod.snd eq,
        (sound.read x known).occurrenceAt? occurs] at there
      exact ⟨o'.span,
        resolveOccurrence?_iff.mpr ⟨Option.some.inj there ▸ means, Option.some.inj there ▸ rfl⟩⟩
  · exact List.count_eq_one_of_mem nodup member
  · obtain ⟨x, known, o, occurs, eq, means⟩ := (found place).mp member
    exact ⟨x, known, o, occurs, means.isReference, eq⟩
  · intro x known o occurs span means
    rw [sound.resolve? known occurs] at means
    exact (named_of_reference sound known occurs (resolveOccurrence?_iff.mp means).1).imp_right
      (·.declared sound)

/-- A document with a rule that is used in another one. -/
def ruleAndUse : DocumentIndex :=
  (Document.ofText "file:///a.yar" none
    "rule a \x7b condition: true \x7d rule b \x7b condition: a \x7d".toList).index ⟨[]⟩ 0

theorem references_inverse_ruleAndUse : (Snapshot.empty.withDocument ruleAndUse).Built ∧
    (Snapshot.empty.withDocument ruleAndUse).Inverse (.rule "file:///a.yar" 0) := by
  have read : ∀ x ∈ [ruleAndUse], x.Read :=
    fun x member => ⟨_, _, _, _, _, List.mem_singleton.mp member⟩
  exact ⟨.add .empty read, Built.references_inverse (.add .empty read) _⟩

end Snapshot

end RuleDesk
