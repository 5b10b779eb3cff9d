import RuleDesk.Proofs.Indexing.Documents
import RuleDesk.Proofs.Indexing.PatternNames

namespace RuleDesk

/-! ## A pattern gets a new name -/

theorem isWordPart_of_ascii {c : Char} (h : isAsciiWordPart c) : isWordPart c := by
  rcases Bool.or_eq_true_iff.mp h with start | digit
  · exact Bool.or_eq_true_iff.mpr (.inl start)
  · exact Bool.or_eq_true_iff.mpr (.inr (isDecimalDigit_of_isDigit digit))

/-- What is known of a bare name that a pattern may get. -/
structure ValidBareName (bare : String) : Prop where
  named : bare ≠ ""
  parts : bare.toList.all isWordPart
  bare : bareName bare = bare

theorem validBareName {bare : String} (h : isValidBareName bare) : ValidBareName bare := by
  obtain ⟨both, parts⟩ := Bool.and_eq_true_iff.mp h
  obtain ⟨named, _⟩ := Bool.and_eq_true_iff.mp both
  refine ⟨bne_iff_ne.mp named, List.all_eq_true.mpr fun c member =>
    isWordPart_of_ascii (List.all_eq_true.mp parts c member), ?_⟩
  unfold bareName
  split
  · rename_i c rest text
    rw [if_neg]
    intro sigil
    obtain ⟨s, found⟩ := Option.isSome_iff_exists.mp sigil
    rw [Sigil.char_of_ofChar? found] at text
    have part := List.all_eq_true.mp parts s.char (text ▸ List.mem_cons_self ..)
    cases s <;> cases part
  · rfl

namespace Snapshot

variable {s : Snapshot} {uri : String}

/-- The edits of a renaming are those of the spans that it replaces. -/
theorem edits_of_rename {p : Position} {newName : String} {y : DocumentIndex} {r : Resolved}
    {edits : WorkspaceEdit}
    (named : s.named? uri p = .ok (some (y, r)))
    (renamed : s.rename uri p newName = .ok (some edits)) :
    ∃ spans, s.renameEdits r.entity newName = .ok spans ∧
      edits = (spans.map (·.1)).eraseDups.map fun uri => (uri, s.editsOf spans uri) := by
  unfold rename at renamed
  rw [named] at renamed
  cases accepted : s.renameEdits r.entity newName with
  | error e =>
    have refused : (s.renameEdits r.entity newName).bind (fun spans =>
        Except.ok (some ((spans.map (·.1)).eraseDups.map fun uri => (uri, s.editsOf spans uri)))) =
        .ok (some edits) := renamed
    rw [accepted] at refused
    cases refused
  | ok spans =>
    have returned : (s.renameEdits r.entity newName).bind (fun spans =>
        Except.ok (some ((spans.map (·.1)).eraseDups.map fun uri => (uri, s.editsOf spans uri)))) =
        .ok (some edits) := renamed
    rw [accepted] at returned
    exact ⟨spans, rfl, (Option.some.inj (Except.ok.inj returned)).symm⟩

variable {version : Option Int} {text : List Char} {catalog : Catalog} {order rule pattern : Nat}
    {r : Rule} {q : Pattern}

namespace HasPattern

variable (h : s.HasPattern uri version text catalog order rule pattern r q)

include h

/-- A new name that is accepted is one that no pattern of the rule has. -/
theorem renameEdits_pattern {newName : String} {spans : List (String × Span × String)}
    (accepted : s.renameEdits (.pattern uri rule pattern) newName = .ok spans)
    (other : bareName newName ≠ bareName q.ident.name) :
    isValidBareName (bareName newName) ∧
      (∀ q ∈ r.patterns, bareName q.ident.name ≠ bareName newName) ∧
      spans = s.replaceNames (.pattern uri rule pattern) (fun span => ⟨span.start + 1, span.stop⟩)
        (bareName newName) := by
  unfold renameEdits at accepted
  dsimp only at accepted
  split at accepted
  · cases accepted
  rename_i valid
  have valid : isValidBareName (bareName newName) := by
    simpa only [Bool.not_eq_true', Bool.not_eq_false] using valid
  rw [h.ruleOf?, Option.map_some, Option.getD_some, h.symbol, Option.map_some] at accepted
  split at accepted
  · rename_i same
    exact (other (Option.some.inj same).symm).elim
  split at accepted
  · cases accepted
  rename_i free
  refine ⟨valid, fun q member same => free ?_, (Except.ok.inj accepted).symm⟩
  obtain ⟨named, _, bare⟩ := validBareName valid
  rw [patternNamed?_eq, bare, if_neg named, List.findIdx?_isSome, List.any_map]
  refine List.any_eq_true.mpr ⟨(Document.ofText uri version text).patternSymbol q,
    List.mem_map_of_mem member, ?_⟩
  exact beq_iff_eq.mpr same

/-- What is known of a new name that is accepted and other than the old one. -/
theorem to_rename {newName : String} (valid : isValidBareName (bareName newName))
    (free : ∀ q ∈ r.patterns, bareName q.ident.name ≠ bareName newName) :
    Renaming uri version text catalog order rule pattern (bareName q.ident.name).toList
      (bareName newName).toList (s.patternNames uri rule pattern) := by
  obtain ⟨named, parts, _⟩ := validBareName valid
  have some_name : ∀ name : String, name ≠ "" → name.toList ≠ [] :=
    fun name named none => named (String.toList_eq_nil_iff.mp none)
  refine ⟨h.patternNames_ordered, fun a => h.mem_patternNames, some_name _ h.named,
    some_name _ named, ?_, parts,
    ⟨r, q, h.place, h.inside, String.ofList_toList.symm⟩, fun r' place q' member => ?_⟩
  · have declares : (.sigil .identity, q.ident) ∈ r.names :=
      List.mem_append_right _
        (List.mem_append_left _ (List.mem_map_of_mem (List.mem_of_getElem? h.inside)))
    obtain ⟨bare, name⟩ := name_pattern (List.mem_of_getElem? h.place) declares
    rw [name.bareName, String.toList_ofList]
    exact name.parts
  · obtain rfl := Option.some.inj (place.symm.trans h.place)
    rw [String.ofList_toList]
    exact free q' member

theorem mem_uris {u : String}
    (member : u ∈ (s.findReferences (.pattern uri rule pattern) true).map (·.1)) : u = uri := by
  obtain ⟨place, inside, rfl⟩ := List.mem_map.mp member
  obtain ⟨_, _, _, rfl⟩ := h.mem_findReferences.mp inside
  rfl

/-- Only the document of the pattern is edited. -/
theorem edited_documents (narrow : Span → Span) (newText : String) :
    ((s.replaceNames (.pattern uri rule pattern) narrow newText).map (·.1)).eraseDups = [uri] := by
  have uris : (s.replaceNames (.pattern uri rule pattern) narrow newText).map (·.1) =
      (s.findReferences (.pattern uri rule pattern) true).map (·.1) := List.map_map
  have only := fun u => h.mem_uris (u := u)
  rw [h.findReferences, List.map_cons] at only
  rw [uris, h.findReferences, List.map_cons, List.eraseDups_cons, List.filter_eq_nil_iff.mpr,
    List.eraseDups_nil]
  intro u member differs
  rw [only u (List.mem_cons_of_mem _ member), beq_self_eq_true] at differs
  cases differs

/-- The edits are those of the names, in their order. -/
theorem editsOf_pattern {old : List Char}
    (stand : NamesIn text old (s.patternNames uri rule pattern)) (newText : String) :
    s.editsOf (s.replaceNames (.pattern uri rule pattern) (fun span => ⟨span.start + 1, span.stop⟩)
      newText) uri = (s.patternNames uri rule pattern).map (nameEdit text newText) := by
  have spans : (s.replaceNames (.pattern uri rule pattern) (fun span => ⟨span.start + 1, span.stop⟩)
      newText).filter (·.1 == uri) =
      s.replaceNames (.pattern uri rule pattern) (fun span => ⟨span.start + 1, span.stop⟩)
        newText := by
    refine List.filter_eq_self.mpr fun edit member => ?_
    obtain ⟨place, inside, rfl⟩ := List.mem_map.mp member
    exact beq_iff_eq.mpr (h.mem_uris (List.mem_map_of_mem inside))
  have order : ∀ a ∈ s.patternNames uri rule pattern, ∀ b ∈ s.patternNames uri rule pattern,
      decide (a.start ≤ b.start) =
      (nameEdit text newText a).range.start.notAfter (nameEdit text newText b).range.start := by
    have split : ∀ a ∈ s.patternNames uri rule pattern, ∃ front back, text = front ++ back ∧
        byteLength front = a.start + 1 := by
      intro a member
      obtain ⟨sigil, front, back, whole, start, _⟩ := stand.stands a member
      refine ⟨front ++ [sigil.char],
        old ++ back, by rw [whole, List.append_assoc, List.singleton_append], ?_⟩
      rw [byteLength_append, start, byteLength, sigil.char_utf8Size]
      rfl
    intro a first b second
    obtain ⟨front, back, whole, start⟩ := split a first
    obtain ⟨front', back', whole', start'⟩ := split b second
    have here := Lines.position_order whole whole'
    rw [start, start'] at here
    exact (decide_eq_decide.mpr Nat.add_le_add_iff_right.symm).trans here.symm
  have edits : (s.replaceNames (.pattern uri rule pattern) (fun span => ⟨span.start + 1, span.stop⟩)
      newText).filterMap
      (fun edit => (s.document? uri).map fun x =>
        (⟨x.document.range edit.2.1, edit.2.2⟩ : TextEdit)) =
      ((s.findReferences (.pattern uri rule pattern) true).map (·.2)).map
        (nameEdit text newText) := by
    unfold replaceNames
    rw [List.filterMap_map, h.document, List.map_map, ← List.filterMap_eq_map]
    rfl
  unfold editsOf
  rw [spans]
  refine (congrArg (fun edits => List.mergeSort edits _) edits).trans
    (List.map_mergeSort fun a first b second => ?_).symm
  exact order a ((List.mergeSort_perm _ _).mem_iff.mpr first) b
    ((List.mergeSort_perm _ _).mem_iff.mpr second)

end HasPattern

/-! ### What names mean afterwards -/

end Snapshot

def Resolved.rebase (v : View) (r : Resolved) : Resolved := { r with span := r.span.rebase v }

namespace Snapshot

/-- What an occurrence means does not depend on where it is. -/
theorem resolveOccurrence?_rebase (s : Snapshot) (uri : String) (v : View) (o : Occurrence) :
    s.resolveOccurrence? uri { o with span := o.span.rebase v } =
      (s.resolveOccurrence? uri o).map (·.rebase v) := by
  obtain ⟨span, rule, kind⟩ := o
  cases kind with
  | ruleReference name =>
    show (s.resolveRule? uri name).map _ = ((s.resolveRule? uri name).map _).map _
    rw [Option.map_map]
    rfl
  | patternReference p wildcard indexed =>
    cases p with
    | none => rfl
    | some p => cases wildcard <;> rfl
  | _ => rfl

/-- The edits of a document in which a pattern gets another name, and the text
that they lead to. -/
structure PatternRenamed (s : Snapshot) (uri : String) (text : List Char) (rule pattern : Nat)
    (edits : List TextEdit) (p : Spelling) (text' : List Char) : Prop where
  /-- All names of the pattern are in the document, -/
  here : ∀ place ∈ s.findReferences (.pattern uri rule pattern) true, place.1 = uri
  /-- apart from each other, and each is a sigil and the old name. -/
  stand : NamesIn text p.old (s.patternNames uri rule pattern)
  /-- The edits cover each of them but for the sigil, and nothing else. -/
  each : edits.map (fun e => (e.span? text, e.newText)) =
    (s.patternNames uri rule pattern).map fun a => (some ⟨a.start + 1, a.stop⟩, String.ofList p.new)
  applied : applyEdits text edits = some text'
  clean : (parse text').errors = []
  /-- The names of the pattern are spelled anew, all others as they were. -/
  places : p.places = (s.patternNames uri rule pattern).map (·.start)
  tree : parse text' = (parse text).rebase p.view

/-- What names mean in a snapshot `t` that comes of `s` when a pattern gets
another name, so that the document `x` becomes `y`. -/
structure PatternMoved (s t : Snapshot) (x y : DocumentIndex) (rule pattern : Nat)
    (p : Spelling) : Prop where
  spans : y.occurrences.map (·.span) = x.occurrences.map (·.span.rebase p.view)
  loopVars : y.loopVars = x.loopVars.map (·.rebase p.view)
  /-- Names mean what they meant before, but those of the same rule that had the
  new name and meant nothing mean the pattern. -/
  means : ∀ o ∈ x.occurrences, t.resolve? x.uri (p.offset o.span.start) =
    if o.asksFor x.document.text rule p.new
        then some ⟨.pattern x.uri rule pattern, .reference, o.span.rebase p.view⟩
    else (s.resolve? x.uri o.span.start).map (·.rebase p.view)
  exactly : ∀ o ∈ x.occurrences, (∃ r, t.resolve? x.uri (p.offset o.span.start) = some r ∧
    r.entity = .pattern x.uri rule pattern) ↔
    (x.uri, o.span) ∈ s.findReferences (.pattern x.uri rule pattern) true ∨
    o.asksFor x.document.text rule p.new
  elsewhere : ∀ uri, uri ≠ x.uri → ∀ n, t.resolve? uri n = s.resolve? uri n

section

variable {s : Snapshot} {uri : String} {version : Option Int} {text text' : List Char}
  {catalog : Catalog} {order rule pattern : Nat}
  {old new : List Char} {names : List Span}
  (h : Renaming uri version text catalog order rule pattern old new names)
  (clean : (parse text).errors = []) (respelled : Respelled h.spelling 0 text text')

include clean respelled

theorem seenAlike_renamed (version' : Option Int) :
    SeenAlike ((Document.ofText uri version text).index catalog order)
      ((Document.ofText uri version' text').index catalog order) := by
  obtain ⟨file, _⟩ := (h.fits clean respelled).parse h.distinct
  refine ⟨rfl, rfl, ?_⟩
  show ((parse text').rules.map _).map _ = ((parse text).rules.map _).map _
  rw [file, List.map_map, List.map_map]
  show ((parse text).rules.map _).map _ = _
  rw [List.map_map]
  exact List.map_congr_left fun r member => h.rule_name member

/-- What a name means that stands where an occurrence was moved to. -/
theorem resolve?_renamed (sound : s.Sound)
    (orders : s.indexes.Pairwise fun x y => x.order ≠ y.order)
    (document : s.document? uri = some ((Document.ofText uri version text).index catalog order))
    (version' : Option Int) {o : Occurrence}
    (occurs : o ∈ ((Document.ofText uri version text).index catalog order).occurrences) :
    (s.withDocument ((Document.ofText uri version' text').index catalog order)).resolve? uri
      (h.spelling.offset o.span.start) =
      if o.asksFor text rule new
        then some ⟨.pattern uri rule pattern, .reference, o.span.rebase h.spelling.view⟩
      else (s.resolveOccurrence? uri o).map (·.rebase h.spelling.view) := by
  have read : ((Document.ofText uri version' text').index catalog order).Read :=
    ⟨uri, version', text', catalog, order, rfl⟩
  have renamed : o.renamed h.spelling.view text rule pattern new ∈
      ((Document.ofText uri version' text').index catalog order).occurrences := by
    rw [h.occurrences clean respelled]
    exact List.mem_map_of_mem occurs
  obtain ⟨known, _⟩ := mem_of_document? document
  have changed :
      (s.withDocument ((Document.ofText uri version' text').index catalog order)).document? uri =
      some ((Document.ofText uri version' text').index catalog order) := by
    rw [withDocument_document?]
    exact if_pos rfl
  have there : (s.withDocument ((Document.ofText uri version' text').index catalog order)).resolve?
      uri (h.spelling.offset o.span.start) =
      s.resolveOccurrence? uri (o.renamed h.spelling.view text rule pattern new) := by
    have found := read.occurrenceAt? renamed
    rw [resolve?, changed, Option.bind_some]
    rw [show ((Document.ofText uri version' text').index catalog order).occurrenceAt?
      (h.spelling.offset o.span.start) = _ from found]
    exact resolveOccurrence?_withDocument sound.distinct orders known
      (seenAlike_renamed h clean respelled version') uri _
  rw [there, Occurrence.renamed]
  split
  · rename_i asks
    obtain ⟨both, _⟩ := Bool.and_eq_true_iff.mp asks
    obtain ⟨same, dangles⟩ := Bool.and_eq_true_iff.mp both
    obtain ⟨span, i, kind⟩ := o
    obtain rfl := beq_iff_eq.mp same
    unfold Occurrence.dangles at dangles
    unfold Occurrence.finding
    split at dangles
    · rename_i indexed asked
      rw [show kind = _ from asked]
      rfl
    · cases dangles
  · exact s.resolveOccurrence?_rebase uri h.spelling.view o

end

variable {s : Snapshot} {uri : String} {version : Option Int} {text : List Char} {catalog : Catalog}
    {order rule pattern : Nat}

/-- The names of the pattern mean it, and nothing else but references that asked for the new name. -/
theorem HasPattern.means_renamed {r : Rule} {q : Pattern}
    (has : s.HasPattern uri version text catalog order rule pattern r q) {t : Snapshot}
    {v : View} {n : Nat} {new : List Char} {o : Occurrence}
    (occurs : o ∈ ((Document.ofText uri version text).index catalog order).occurrences)
    (means : t.resolve? uri n = if o.asksFor text rule new
      then some ⟨.pattern uri rule pattern, .reference, o.span.rebase v⟩
      else (s.resolveOccurrence? uri o).map (·.rebase v)) :
    (∃ r, t.resolve? uri n = some r ∧ r.entity = .pattern uri rule pattern) ↔
      (uri, o.span) ∈ s.findReferences (.pattern uri rule pattern) true ∨
        o.asksFor text rule new := by
  rw [means, has.mem_findReferences]
  split
  · rename_i asks
    exact iff_of_true ⟨_, rfl, rfl⟩ (.inr asks)
  · rename_i other
    rw [or_iff_left other]
    constructor
    · rintro ⟨_, found, entity⟩
      obtain ⟨r, resolved, rfl⟩ := Option.map_eq_some_iff.mp found
      exact ⟨o, occurs, (means_pattern_iff.mp ⟨r, resolved, entity⟩).2, rfl⟩
    · rintro ⟨o', occurs', names_it, place⟩
      have read : ((Document.ofText uri version text).index catalog order).Read :=
        ⟨uri, version, text, catalog, order, rfl⟩
      have here := read.occurrenceAt? occurs'
      rw [← show o.span = o'.span from congrArg Prod.snd place, read.occurrenceAt? occurs] at here
      obtain rfl := Option.some.inj here
      obtain ⟨r, resolved, entity⟩ := (means_pattern_iff (s := s)).mpr ⟨rfl, names_it⟩
      exact ⟨r.rebase v, Option.map_eq_some_iff.mpr ⟨r, resolved, rfl⟩, entity⟩

/-- In the snapshot with the text that was edited all names mean what they meant before. -/
theorem HasPattern.moved {r : Rule} {q : Pattern}
    (has : s.HasPattern uri version text catalog order rule pattern r q) (sound : s.Sound)
    (orders : s.indexes.Pairwise fun x y => x.order ≠ y.order) (clean : (parse text).errors = [])
    {old new text' : List Char}
    {names : List Span} (h : Renaming uri version text catalog order rule pattern old new names)
    (respelled : Respelled h.spelling 0 text text') (version' : Option Int) :
    PatternMoved s (s.withDocument ((Document.ofText uri version' text').index catalog order))
      ((Document.ofText uri version text).index catalog order)
        ((Document.ofText uri version' text').index catalog order)
      rule pattern h.spelling := by
  obtain ⟨known, _⟩ := mem_of_document? has.document
  refine ⟨?_, (h.found clean respelled version' order).1, fun o occurs => ?_, fun o occurs => ?_,
    fun other elsewhere => ?_⟩
  · rw [h.occurrences clean respelled, List.map_map]
    rfl
  · have before : s.resolve? uri o.span.start = s.resolveOccurrence? uri o :=
      sound.resolve? known occurs
    have means := resolve?_renamed h clean respelled sound orders has.document version' occurs
    rw [← before] at means
    exact means
  · exact has.means_renamed occurs
      (resolve?_renamed h clean respelled sound orders has.document version' occurs)
  · exact fun n => resolve?_withDocument sound.distinct orders known
      (seenAlike_renamed h clean respelled version') elsewhere n

/-- A pattern gets another name: its names are edited and nothing else, the text
says the same, and all names mean what they meant before. References of its
rule that had the new name and meant nothing mean the pattern then. -/
theorem Built.rename_pattern (built : s.Built)
    (orders : s.indexes.Pairwise fun x y => x.order ≠ y.order)
    (document : s.document? uri = some ((Document.ofText uri version text).index catalog order))
    (clean : (parse text).errors = [])
    {position : Position} {y : DocumentIndex} {resolved : Resolved}
    (named : s.named? uri position = .ok (some (y, resolved)))
    {owner : String} (entity : resolved.entity = .pattern owner rule pattern) {newName : String}
    {edits : WorkspaceEdit} (renamed : s.rename uri position newName = .ok (some edits)) :
    owner = uri ∧ ∃ r q, s.HasPattern uri version text catalog order rule pattern r q ∧
      (bareName newName ≠ bareName q.ident.name →
      ∃ es p text', edits = [(uri, es)] ∧ p.old = (bareName q.ident.name).toList ∧
        p.new = (bareName newName).toList ∧ PatternRenamed s uri text rule pattern es p text' ∧
        ∀ version', PatternMoved s
          (s.withDocument ((Document.ofText uri version' text').index catalog order))
          ((Document.ofText uri version text).index catalog order)
            ((Document.ofText uri version' text').index catalog order)
          rule pattern p) := by
  obtain ⟨rfl, o, occurs, names_it⟩ := namesPattern_of_named? document named entity
  obtain ⟨r, q, place, inside, some_name⟩ := declared_of_namesPattern occurs names_it
  have has : s.HasPattern owner version text catalog order rule pattern r q :=
    ⟨document, place, inside, some_name⟩
  refine ⟨rfl, r, q, has, fun other => ?_⟩
  obtain ⟨spans, accepted, rfl⟩ := edits_of_rename named renamed
  rw [entity] at accepted
  obtain ⟨valid, free, rfl⟩ := has.renameEdits_pattern accepted other
  have h := has.to_rename valid free
  obtain ⟨text', applied, respelled⟩ :=
    h.namesIn.applyEdits_nameEdits h.old_named h.old_parts h.new_named h.new_parts
  have respelled : Respelled h.spelling 0 text text' := respelled
  obtain ⟨file, errors⟩ := (h.fits clean respelled).parse h.distinct
  rw [String.ofList_toList] at applied
  refine ⟨_, h.spelling, text', ?_, rfl, rfl,
    ⟨fun place member => ?_, h.namesIn, ?_, applied, errors, rfl, file⟩,
    fun version' => has.moved built.sound orders clean h respelled version'⟩
  · rw [has.edited_documents, List.map_singleton, has.editsOf_pattern h.namesIn]
  · exact has.mem_uris (List.mem_map_of_mem member)
  · rw [List.map_map]
    refine List.map_congr_left fun a member => Prod.ext ?_ ?_
    · have span : (nameEdit text (String.ofList (bareName newName).toList) a).span? text =
        some ⟨a.start + 1, a.stop⟩ :=
        h.namesIn.span?_nameEdit h.old_named h.old_parts member
      rwa [String.ofList_toList] at span
    · exact String.ofList_toList.symm

/-- A snapshot with one document. -/
def ofText (text : List Char) : Snapshot :=
  Snapshot.empty.withDocument ((Document.ofText "file:///a.yar" none text).index ⟨[]⟩ 0)

theorem ofText_document? (text : List Char) : (ofText text).document? "file:///a.yar" =
    some ((Document.ofText "file:///a.yar" none text).index ⟨[]⟩ 0) := by
  rw [ofText, withDocument_document?]
  exact if_pos rfl

/-- Where all is found in order, nothing is sorted. -/
theorem ofText_found {text : List Char}
    (sorted : (Document.ofText "file:///a.yar" none text).InOrder ⟨[]⟩) :
    ofText text = Snapshot.empty.withDocument
      ((Document.ofText "file:///a.yar" none text).indexFound ⟨[]⟩ 0) := by
  rw [ofText, sorted.index_eq]

/-- The edit of a name in one document. -/
theorem ofText_rename {text : List Char} {p : Position} {newName : String} {r : Resolved}
    {spans : List (String × Span × String)}
    (means : (Lines.offset? text p).bind ((ofText text).resolve? "file:///a.yar") = some r)
    (named : r.role ≠ .enclosing) (accepted : (ofText text).renameEdits r.entity newName = .ok spans)
    (one : (spans.map (·.1)).eraseDups = ["file:///a.yar"]) :
    (ofText text).rename "file:///a.yar" p newName =
      .ok (some [("file:///a.yar", (ofText text).editsOf spans "file:///a.yar")]) := by
  have name : (ofText text).named? "file:///a.yar" p =
      .ok (some ((Document.ofText "file:///a.yar" none text).index ⟨[]⟩ 0, r)) := by
    refine (named?_eq (ofText_document? text) p).trans ?_
    rw [show ((Document.ofText "file:///a.yar" none text).index ⟨[]⟩ 0).document.offset? p =
      Lines.offset? text p from rfl, means, Option.bind_some, if_neg named]
  have renamed : (ofText text).rename "file:///a.yar" p newName =
      ((ofText text).renameEdits r.entity newName).bind fun spans =>
        .ok (some ((spans.map (·.1)).eraseDups.map fun uri =>
          (uri, (ofText text).editsOf spans uri))) := by
    rw [rename, name]
    rfl
  rw [renamed, accepted, Except.bind, one]
  rfl

/-- The references that asked for the new name of a pattern mean it. -/
theorem rename_pattern_finds :
    (parse "rule A \x7b strings: $a = \"x\" condition: $a and $b \x7d".toList).errors = [] ∧
    (ofText "rule A \x7b strings: $a = \"x\" condition: $a and $b \x7d".toList).resolve?
      "file:///a.yar" 38 = some ⟨.pattern "file:///a.yar" 0 0, .reference, ⟨38, 40⟩⟩ ∧
    (ofText "rule A \x7b strings: $a = \"x\" condition: $a and $b \x7d".toList).resolve?
      "file:///a.yar" 45 = none ∧
    (ofText "rule A \x7b strings: $a = \"x\" condition: $a and $b \x7d".toList).rename
      "file:///a.yar" ⟨0, 38⟩ "b" =
      .ok (some [("file:///a.yar", [⟨⟨⟨0, 19⟩, ⟨0, 20⟩⟩, "b"⟩, ⟨⟨⟨0, 39⟩, ⟨0, 40⟩⟩, "b"⟩])]) ∧
    applyEdits "rule A \x7b strings: $a = \"x\" condition: $a and $b \x7d".toList
      [⟨⟨⟨0, 19⟩, ⟨0, 20⟩⟩, "b"⟩, ⟨⟨⟨0, 39⟩, ⟨0, 40⟩⟩, "b"⟩] =
      some "rule A \x7b strings: $b = \"x\" condition: $b and $b \x7d".toList ∧
    (ofText "rule A \x7b strings: $b = \"x\" condition: $b and $b \x7d".toList).resolve?
      "file:///a.yar" 45 = some ⟨.pattern "file:///a.yar" 0 0, .reference, ⟨45, 47⟩⟩ := by
  -- all is found in order, so that nothing is left to sort
  have found := @ofText_found "rule A \x7b strings: $a = \"x\" condition: $a and $b \x7d".toList
    ⟨by decide +kernel, by decide +kernel⟩
  have found' := @ofText_found "rule A \x7b strings: $b = \"x\" condition: $b and $b \x7d".toList
    ⟨by decide +kernel, by decide +kernel⟩
  have means : (Lines.offset? "rule A \x7b strings: $a = \"x\" condition: $a and $b \x7d".toList
      ⟨0, 38⟩).bind
      ((ofText "rule A \x7b strings: $a = \"x\" condition: $a and $b \x7d".toList).resolve?
        "file:///a.yar") = some ⟨.pattern "file:///a.yar" 0 0, .reference, ⟨38, 40⟩⟩ := by
    rw [found]
    decide +kernel
  refine ⟨by decide +kernel, ?_, ?_, ?_, by decide +kernel, ?_⟩
  · rw [found]
    decide +kernel
  · rw [found]
    decide +kernel
  · have accepted :
        (ofText "rule A \x7b strings: $a = \"x\" condition: $a and $b \x7d".toList).renameEdits
          (.pattern "file:///a.yar" 0 0) "b" =
        .ok [("file:///a.yar", ⟨19, 20⟩, "b"), ("file:///a.yar", ⟨39, 40⟩, "b")] := by
      rw [found]
      decide +kernel
    rw [ofText_rename means nofun accepted (by decide +kernel), editsOf,
      List.mergeSort_of_pairwise]
    · rw [found]
      decide +kernel
    · rw [found]
      decide +kernel
  · rw [found']
    decide +kernel

/-- A rule that counts its pattern. -/
def countingRule : List Char := "rule A \x7b strings: $a = \"x\" condition: #a > 1 \x7d".toList

theorem rename_pattern_countingRule :
    (ofText countingRule).Built ∧ (parse countingRule).errors = [] ∧
    ∃ r q, (ofText countingRule).HasPattern "file:///a.yar" none countingRule ⟨[]⟩ 0 0 0 r q ∧
      (bareName "b" ≠ bareName q.ident.name →
      ∃ es p text', [("file:///a.yar", [⟨⟨⟨0, 19⟩, ⟨0, 20⟩⟩, "b"⟩, ⟨⟨⟨0, 39⟩, ⟨0, 40⟩⟩, "b"⟩])] =
        [("file:///a.yar", es)] ∧ p.old = (bareName q.ident.name).toList ∧ p.new = ['b'] ∧
        (ofText countingRule).PatternRenamed "file:///a.yar" countingRule 0 0 es p text' ∧
        ∀ version', PatternMoved (ofText countingRule)
          ((ofText countingRule).withDocument
            ((Document.ofText "file:///a.yar" version' text').index ⟨[]⟩ 0))
          ((Document.ofText "file:///a.yar" none countingRule).index ⟨[]⟩ 0)
          ((Document.ofText "file:///a.yar" version' text').index ⟨[]⟩ 0) 0 0 p) := by
  have built : (ofText countingRule).Built :=
    .add .empty fun x member => ⟨_, _, _, _, _, List.mem_singleton.mp member⟩
  have orders : (ofText countingRule).indexes.Pairwise fun x y => x.order ≠ y.order :=
    List.pairwise_singleton _ _
  have document := ofText_document? countingRule
  have clean : (parse countingRule).errors = [] := by decide +kernel
  have found := @ofText_found countingRule ⟨by decide +kernel, by decide +kernel⟩
  have means :
      (Lines.offset? countingRule ⟨0, 39⟩).bind ((ofText countingRule).resolve? "file:///a.yar") =
      some ⟨.pattern "file:///a.yar" 0 0, .reference, ⟨38, 40⟩⟩ := by
    rw [found]
    decide +kernel
  have accepted : (ofText countingRule).renameEdits (.pattern "file:///a.yar" 0 0) "b" =
      .ok [("file:///a.yar", ⟨19, 20⟩, "b"), ("file:///a.yar", ⟨39, 40⟩, "b")] := by
    rw [found]
    decide +kernel
  have renamed : (ofText countingRule).rename "file:///a.yar" ⟨0, 39⟩ "b" =
      .ok (some [("file:///a.yar", [⟨⟨⟨0, 19⟩, ⟨0, 20⟩⟩, "b"⟩, ⟨⟨⟨0, 39⟩, ⟨0, 40⟩⟩, "b"⟩])]) := by
    rw [ofText_rename means nofun accepted (by decide +kernel), editsOf, List.mergeSort_of_pairwise]
    · rw [found]
      decide +kernel
    · rw [found]
      decide +kernel
  have named := named?_eq document ⟨0, 39⟩
  rw [show ((Document.ofText "file:///a.yar" none countingRule).index ⟨[]⟩ 0).document.offset?
    ⟨0, 39⟩ = Lines.offset? countingRule ⟨0, 39⟩ from rfl, means] at named
  exact ⟨built, clean, (built.rename_pattern orders document clean named rfl renamed).2⟩

end Snapshot

end RuleDesk
