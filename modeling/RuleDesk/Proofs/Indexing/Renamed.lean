import RuleDesk.Proofs.Editing.Edits
import RuleDesk.Proofs.Indexing.Rebased
import RuleDesk.Proofs.Indexing.Resolve
import RuleDesk.Proofs.Indexing.Tokens

namespace RuleDesk

/-! ## The index of a text in which a pattern has another name -/

/-- The occurrences that name a pattern: its declaration and its references. -/
def Occurrence.namesPattern (rule pattern : Nat) (o : Occurrence) : Bool :=
  (o.rule == rule && o.kind == .patternDeclaration pattern) ||
    Snapshot.refersToPattern rule pattern o

theorem Occurrence.namesPattern_iff {rule pattern : Nat} {o : Occurrence} :
    o.namesPattern rule pattern ↔
    o.rule = rule ∧ (o.kind = .patternDeclaration pattern ∨
      ∃ indexed, o.kind = .patternReference (some pattern) false indexed) := by
  rw [namesPattern, Bool.or_eq_true, Bool.and_eq_true, beq_iff_eq, beq_iff_eq,
    Snapshot.refersToPattern_iff, ← and_or_left]

/-- The text of the name behind the sigil. -/
theorem PatternName.slice {text : List Char} {s : Sigil} {bare : List Char} {i : Ident}
    (h : PatternName text s bare i) :
    sliceBytes? text (i.span.start + 1) i.span.stop = some bare := by
  obtain ⟨front, back, rfl, start⟩ := h.stands
  have split : front ++ (s.char :: bare ++ back) = front ++ [s.char] ++ (bare ++ back) := by simp
  have width : byteLength (front ++ [s.char]) = i.span.start + 1 := by
    rw [byteLength_append, start, byteLength, s.char_utf8Size]
    rfl
  have rest : i.span.stop - (i.span.start + 1) = byteLength bare := by rw [h.stop]; omega
  rw [sliceBytes?, if_pos (by rw [h.stop]; omega), rest, split, ← width,
    dropBytes?_byteLength_append, Option.bind_some, takeBytes?_byteLength_append]

/-! ### Names that are looked up -/

theorem patternNamed?_eq (patterns : List PatternSymbol) (name : String) :
    patternNamed? patterns name =
    if bareName name = "" then none
      else (patterns.map fun p => bareName p.name).findIdx? (· == bareName name) := by
  rw [patternNamed?, List.findIdx?_map]
  by_cases empty : bareName name = ""
  · rw [if_pos empty]
    exact if_pos (beq_iff_eq.mpr empty)
  · rw [if_neg empty]
    exact if_neg fun same => empty (beq_iff_eq.mp same)

section

variable {all : List String} {n : Nat} {new name : String}

/-- A new name is found where it was put. -/
theorem findIdx?_set_new (free : new ∉ all) (inside : n < all.length) :
    (all.set n new).findIdx? (· == new) = some n := by
  induction all generalizing n with
  | nil => cases inside
  | cons first rest ih =>
    cases n with
    | zero => rw [List.set_cons_zero, List.findIdx?_cons, if_pos (beq_self_eq_true new)]
    | succ n =>
      have other : ¬ (first == new) = true :=
        fun same => free (beq_iff_eq.mp same ▸ List.mem_cons_self ..)
      rw [List.set_cons_succ, List.findIdx?_cons, if_neg other,
        ih (fun member => free (List.mem_cons_of_mem _ member)) (Nat.lt_of_succ_lt_succ inside)]
      rfl

/-- Any other name that was not found there is found where it was. -/
theorem findIdx?_set_other (other : name ≠ new) (elsewhere : all.findIdx? (· == name) ≠ some n) :
    (all.set n new).findIdx? (· == name) = all.findIdx? (· == name) := by
  induction all generalizing n with
  | nil => rfl
  | cons first rest ih =>
    rw [List.findIdx?_cons] at elsewhere
    cases n with
    | zero =>
      have differs : ¬ (new == name) = true := fun same => other (beq_iff_eq.mp same).symm
      rw [List.set_cons_zero, List.findIdx?_cons, List.findIdx?_cons, if_neg differs]
      split
      · rename_i here
        exact (elsewhere (if_pos here)).elim
      · rfl
    | succ n =>
      rw [List.set_cons_succ, List.findIdx?_cons, List.findIdx?_cons]
      split
      · rfl
      · rename_i differs
        rw [if_neg differs] at elsewhere
        rw [ih fun found => elsewhere (by rw [found]; rfl)]

end

/-! ### Occurrences in the text that is spelled anew -/

namespace Occurrence

/-- A reference to a pattern that there is not. -/
def dangles (o : Occurrence) : Bool :=
  match o.kind with
  | .patternReference none false _ => true
  | _ => false

/-- A reference of a rule that finds no pattern and has a name behind its sigil. -/
def asksFor (text : List Char) (rule : Nat) (name : List Char) (o : Occurrence) : Bool :=
  o.rule == rule && o.dangles && sliceBytes? text (o.span.start + 1) o.span.stop == some name

theorem asksPattern_of_dangles {o : Occurrence} (h : o.dangles) : o.kind.asksPattern := by
  unfold dangles at h
  split at h
  · rename_i kind
    rw [kind]
    rfl
  · cases h

/-- A reference that found no pattern finds one. -/
def finding (pattern : Nat) (o : Occurrence) : OccurrenceKind :=
  match o.kind with
  | .patternReference none false indexed => .patternReference (some pattern) false indexed
  | kind => kind

/-- What an occurrence becomes when a pattern of a rule gets a new name. -/
def renamed (view : View) (text : List Char) (rule pattern : Nat) (new : List Char)
    (o : Occurrence) : Occurrence :=
  ⟨o.span.rebase view, o.rule, if o.asksFor text rule new then o.finding pattern else o.kind⟩

end Occurrence

/-- A pattern of a text, its name, all the places of this name, and another name
that no pattern of its rule has. -/
structure Renaming (uri : String) (version : Option Int) (text : List Char) (catalog : Catalog)
    (order rule pattern : Nat) (old new : List Char) (names : List Span) : Prop where
  ordered : names.Pairwise fun a b => a.stop ≤ b.start
  named : ∀ a, a ∈ names ↔
    ∃ o ∈ ((Document.ofText uri version text).index catalog order).occurrences,
    o.namesPattern rule pattern ∧ o.span = a
  old_named : old ≠ []
  new_named : new ≠ []
  old_parts : old.all isWordPart
  new_parts : new.all isWordPart
  declared : ∃ r q, (parse text).rules[rule]? = some r ∧ r.patterns[pattern]? = some q ∧
      bareName q.ident.name = String.ofList old
  free : ∀ r ∈ (parse text).rules[rule]?, ∀ q ∈ r.patterns,
      bareName q.ident.name ≠ String.ofList new

namespace Renaming

variable {uri : String} {version : Option Int} {text : List Char} {catalog : Catalog}
  {order rule pattern : Nat}
  {old new : List Char} {names : List Span}
  (h : Renaming uri version text catalog order rule pattern old new names)

/-- How the text is spelled anew. -/
def spelling (h : Renaming uri version text catalog order rule pattern old new names) : Spelling :=
  .ofNames names h.old_named h.new_named h.old_parts h.new_parts

include h

/-- What names the pattern is a name of its rule and the old one. -/
theorem name_of_namesPattern {o : Occurrence}
    (occurs : o ∈ ((Document.ofText uri version text).index catalog order).occurrences)
    (names_it : o.namesPattern rule pattern) : ∃ s i, PatternName text s old i ∧
    i.span = o.span := by
  obtain ⟨r, q, place, inside, bare⟩ := h.declared
  have member := List.mem_of_getElem? place
  have found := DocumentIndex.mem_occurrences.mp occurs
  obtain ⟨same, kind⟩ := Occurrence.namesPattern_iff.mp names_it
  -- the name of a declaration or of a reference, either one of the rule
  obtain ⟨s, i, named, span, asks⟩ : ∃ s i, (.sigil s, i) ∈ r.names ∧ i.span = o.span ∧
      bareName i.name = String.ofList old := by
    rcases kind with kind | ⟨indexed, kind⟩
    · obtain ⟨r', place', origin⟩ :=
        ((Document.ofText uri version text).found_foundIn catalog).sound found
      rw [same] at place' origin
      obtain rfl := Option.some.inj (place'.symm.trans place)
      refine ⟨.identity, q.ident, ?_, ?_, bare⟩
      · exact List.mem_append_right _
          (List.mem_append_left _ (List.mem_map_of_mem (List.mem_of_getElem? inside)))
      · rcases origin with declared | sound
        · rcases Document.mem_declarations.mp declared with ⟨_, rfl⟩ | ⟨n, q', inside', _, rfl⟩
          · cases kind
          · cases kind
            obtain rfl := Option.some.inj (inside'.symm.trans inside)
            rfl
        · rw [kind] at sound
          cases sound
    · obtain ⟨r', s, i, place', named, span, asks⟩ :=
        (Document.ofText uri version text).found_asks catalog o found _ _ kind
      rw [same] at place'
      obtain rfl := Option.some.inj (place'.symm.trans place)
      obtain ⟨q', inside', bare', _⟩ := patternNamed?_some asks
      obtain ⟨p, found, rfl⟩ := Option.map_eq_some_iff.mp (List.getElem?_map ▸ inside')
      obtain rfl := Option.some.inj (found.symm.trans inside)
      exact ⟨s, i, named, span, bare'.symm.trans bare⟩
  obtain ⟨written, name⟩ := name_pattern member named
  rw [name.bareName] at asks
  obtain rfl := String.ofList_inj.mp asks
  exact ⟨s, i, name, span⟩

theorem namesIn : NamesIn text old names := by
  refine ⟨h.ordered, fun a member => ?_⟩
  obtain ⟨o, occurs, names_it, rfl⟩ := (h.named a).mp member
  obtain ⟨s, i, name, span⟩ := h.name_of_namesPattern occurs names_it
  obtain ⟨front, back, split, start⟩ := name.stands
  exact ⟨s, front, back, split, span ▸ start, span ▸ name.stop⟩

theorem fits (clean : (parse text).errors = []) {text' : List Char}
    (respelled : Respelled h.spelling 0 text text') :
    h.spelling.Fits text text' := by
  refine ⟨clean, rfl, respelled, fun m place => ?_⟩
  obtain ⟨a, member, rfl⟩ := List.mem_map.mp place
  obtain ⟨o, occurs, names_it, rfl⟩ := (h.named a).mp member
  obtain ⟨s, i, name, span⟩ := h.name_of_namesPattern occurs names_it
  exact ⟨_, name.token, congrArg Span.start span, ⟨s, rfl⟩,
    Spelling.names_sigil (p := h.spelling) s⟩

/-- Where an occurrence is, its name is spelled anew if it names the pattern. -/
theorem place_iff {o : Occurrence}
    (occurs : o ∈ ((Document.ofText uri version text).index catalog order).occurrences) :
    o.span.start ∈ h.spelling.places ↔ o.namesPattern rule pattern := by
  have read : ((Document.ofText uri version text).index catalog order).Read :=
    ⟨uri, version, text, catalog, order, rfl⟩
  constructor
  · intro place
    obtain ⟨a, member, start⟩ := List.mem_map.mp place
    obtain ⟨o', occurs', names_it, rfl⟩ := (h.named a).mp member
    have here := read.occurrenceAt? occurs'
    rw [start, read.occurrenceAt? occurs] at here
    exact Option.some.inj here ▸ names_it
  · exact fun names_it => List.mem_map_of_mem ((h.named o.span).mpr ⟨o, occurs, names_it, rfl⟩)

theorem spell_name {o : Occurrence}
    (occurs : o ∈ ((Document.ofText uri version text).index catalog order).occurrences)
    {s : Sigil} {bare : List Char} {i : Ident} (name : PatternName text s bare i)
    (span : i.span = o.span) :
    h.spelling.spell i.span.start (s.char :: bare) = s.char :: if o.namesPattern rule pattern
      then new else bare := by
  have place := h.place_iff occurs
  rw [← span] at place
  split
  · rename_i names_it
    obtain ⟨_, _, old_name, old_span⟩ := h.name_of_namesPattern occurs names_it
    have slice := old_name.slice
    rw [old_span, ← span, name.slice] at slice
    obtain rfl := Option.some.inj slice
    exact Spelling.spell_name (p := h.spelling) (place.mpr names_it) s
  · rename_i other
    exact Spelling.spell_other (fun here => other (place.mp here)) _

theorem view_name {s : Sigil} {bare : List Char} {i : Ident} (name : PatternName text s bare i)
    {spelled : List Char}
    (same : h.spelling.spell i.span.start (s.char :: bare) = s.char :: spelled) :
    bareName (h.spelling.view.name i.span i.name) = String.ofList spelled := by
  show bareName (String.ofList (h.spelling.spell i.span.start i.name.toList)) = _
  rw [name.name, String.toList_ofList, same, bareName_sigil]

/-- Of the names of patterns only the one of the pattern changes. -/
theorem spell_declared {i n : Nat} {r : Rule} {q : Pattern}
    (place : (parse text).rules[i]? = some r)
    (inside : r.patterns[n]? = some q) : ∃ bare, PatternName text .identity bare q.ident ∧
      h.spelling.spell q.ident.span.start q.ident.name.toList = '$' :: if i = rule ∧
        n = pattern then new else bare := by
  have named : (.sigil .identity, q.ident) ∈ r.names :=
    List.mem_append_right _
      (List.mem_append_left _ (List.mem_map_of_mem (List.mem_of_getElem? inside)))
  obtain ⟨bare, name⟩ := name_pattern (List.mem_of_getElem? place) named
  refine ⟨bare, name, ?_⟩
  rw [name.name, String.toList_ofList]
  by_cases anonymous : bare = []
  · subst anonymous
    rw [if_neg]
    · exact (Spelling.spell_short _ (Nat.le_refl ['$'].length)).mpr rfl
    · rintro ⟨rfl, rfl⟩
      obtain ⟨r', q', place', inside', bare⟩ := h.declared
      obtain rfl := Option.some.inj (place'.symm.trans place)
      obtain rfl := Option.some.inj (inside'.symm.trans inside)
      rw [name.bareName] at bare
      exact h.old_named (String.ofList_inj.mp bare).symm
  · have declared : ⟨q.ident.span, i, .patternDeclaration n⟩ ∈
        ((Document.ofText uri version text).index catalog order).occurrences := by
      refine DocumentIndex.mem_occurrences.mpr
        (((Document.ofText uri version text).found_foundIn catalog).declared i r place _ ?_)
      refine Document.mem_declarations.mpr (.inr ⟨n, q, inside, fun none => anonymous ?_, rfl⟩)
      rw [name.bareName] at none
      exact String.ofList_eq_empty_iff.mp none
    refine (h.spell_name declared name rfl).trans ?_
    have same : (⟨q.ident.span, i, .patternDeclaration n⟩ : Occurrence).namesPattern rule pattern ↔
        i = rule ∧ n = pattern := by
      rw [Occurrence.namesPattern_iff]
      refine and_congr_right fun _ => ⟨?_, fun same => .inl (congrArg _ same)⟩
      rintro (same | ⟨_, same⟩)
      · exact OccurrenceKind.patternDeclaration.inj same
      · cases same
    simp only [same]
    rfl

/-- The bare names of the patterns of a rule. -/
theorem bare_names {i : Nat} {r : Rule} (place : (parse text).rules[i]? = some r) :
    (r.patterns.map fun q => bareName (h.spelling.view.name q.ident.span q.ident.name)) =
      if i = rule then (r.patterns.map fun q => bareName q.ident.name).set pattern
        (String.ofList new)
      else r.patterns.map fun q => bareName q.ident.name := by
  refine List.ext_getElem? fun n => ?_
  have bare : ((r.patterns.map fun q =>
      bareName (h.spelling.view.name q.ident.span q.ident.name))[n]?) =
      r.patterns[n]?.map fun q => if i = rule ∧ n = pattern then String.ofList new
        else bareName q.ident.name := by
    rw [List.getElem?_map]
    cases inside : r.patterns[n]? with
    | none => rfl
    | some q =>
      obtain ⟨bare, name, spelled⟩ := h.spell_declared place inside
      rw [name.name, String.toList_ofList] at spelled
      refine congrArg some ((h.view_name name spelled).trans ?_)
      split
      · rfl
      · exact name.bareName.symm
  rw [bare]
  by_cases same : i = rule
  · rw [if_pos same, List.getElem?_set, List.length_map, List.getElem?_map]
    by_cases here : pattern = n
    · subst here
      rw [if_pos rfl]
      by_cases inside : pattern < r.patterns.length
      · rw [if_pos inside, List.getElem?_eq_getElem inside, Option.map_some, if_pos ⟨same, rfl⟩]
      · rw [if_neg inside, List.getElem?_eq_none (Nat.le_of_not_lt inside)]
        rfl
    · rw [if_neg here]
      refine congrArg (Option.map · _) (funext fun q => if_neg fun both => here both.2.symm)
  · rw [if_neg same, List.getElem?_map]
    exact congrArg (Option.map · _) (funext fun q => if_neg fun both => same both.1)

theorem distinct : ∀ r ∈ (parse text).rules, h.spelling.Distinct r := by
  intro r member a first b second same
  obtain ⟨i, place⟩ := List.mem_iff_getElem?.mp member
  obtain ⟨n, at_n⟩ := List.mem_iff_getElem?.mp first
  obtain ⟨m, at_m⟩ := List.mem_iff_getElem?.mp second
  obtain ⟨bare, name, spelled⟩ := h.spell_declared place at_n
  obtain ⟨bare', name', spelled'⟩ := h.spell_declared place at_m
  have same := (List.cons.inj (spelled.symm.trans (same.trans spelled'))).2
  have taken : ∀ {q : Pattern} {bare : List Char}, q ∈ r.patterns →
      PatternName text .identity bare q.ident → i = rule → bare ≠ new := by
    rintro q bare inside name rfl rfl
    exact h.free r place q inside name.bareName
  by_cases here : i = rule ∧ n = pattern
  · by_cases here' : i = rule ∧ m = pattern
    · rw [here.2, ← here'.2, at_m] at at_n
      rw [Option.some.inj at_n]
    · rw [if_pos here, if_neg here'] at same
      exact (taken second name' here.1 same.symm).elim
  · by_cases here' : i = rule ∧ m = pattern
    · rw [if_neg here, if_pos here'] at same
      exact (taken first name here'.1 same).elim
    · rw [if_neg here, if_neg here'] at same
      rw [name.name, name'.name, same]

/-- What is found at each name in both texts. -/
def Related (h : Renaming uri version text catalog order rule pattern old new names)
    (o o' : Occurrence) : Prop :=
  o'.span = o.span.rebase h.spelling.view ∧
    (o ∈ ((Document.ofText uri version text).index catalog order).occurrences →
    o' = o.renamed h.spelling.view text rule pattern new)

theorem related_same (span : Span) (i : Nat) {kind : OccurrenceKind} (other : ¬ kind.asksPattern) :
    h.Related ⟨span, i, kind⟩ ⟨span.rebase h.spelling.view, i, kind⟩ := by
  refine ⟨rfl, fun _ => ?_⟩
  have still : Occurrence.asksFor text rule new ⟨span, i, kind⟩ = false := by
    refine Bool.eq_false_iff.mpr fun asks => other ?_
    exact Occurrence.asksPattern_of_dangles (o := ⟨span, i, kind⟩)
      (Bool.and_eq_true_iff.mp (Bool.and_eq_true_iff.mp asks).1).2
  rw [Occurrence.renamed, still]
  rfl

/-- What a reference to a pattern finds in both texts. -/
theorem finds {i : Nat} {r : Rule} (place : (parse text).rules[i]? = some r) (bare : List Char)
    (found : Option Nat)
    (finds : (r.patterns.map fun q => bareName q.ident.name).findIdx?
    (· == String.ofList bare) = found) :
    (r.patterns.map fun q => bareName (h.spelling.view.name q.ident.span q.ident.name)).findIdx?
        (· == String.ofList (if i = rule ∧ found = some pattern then new else bare)) =
      if i = rule ∧ found = none ∧ bare = new then some pattern else found := by
  rw [h.bare_names place]
  by_cases here : i = rule
  · subst here
    obtain ⟨r', q, place', inside, _⟩ := h.declared
    obtain rfl := Option.some.inj (place'.symm.trans place)
    have free : String.ofList new ∉ r'.patterns.map fun q => bareName q.ident.name :=
      fun member => by
      obtain ⟨q, inside, same⟩ := List.mem_map.mp member
      exact h.free r' place q inside same
    have short : pattern < (r'.patterns.map fun q => bareName q.ident.name).length := by
      rw [List.length_map]
      exact (List.getElem?_eq_some_iff.mp inside).1
    rw [if_pos rfl]
    by_cases asked : found = some pattern
    · have some_one : ¬ (i = i ∧ found = none ∧ bare = new) :=
        fun both => Option.some_ne_none _ (asked.symm.trans both.2.1)
      rw [if_pos ⟨rfl, asked⟩, findIdx?_set_new free short, if_neg some_one, asked]
    · rw [if_neg fun both => asked both.2]
      by_cases same : bare = new
      · subst same
        have none : found = none := by
          rw [← finds]
          refine List.findIdx?_eq_none_iff.mpr fun name member => ?_
          exact beq_eq_false_iff_ne.mpr fun same => free (same ▸ member)
        rw [findIdx?_set_new free short, if_pos ⟨rfl, none, rfl⟩]
      · rw [findIdx?_set_other (fun equal => same (String.ofList_inj.mp equal))
          (finds ▸ asked), finds, if_neg fun both => same both.2.2]
  · rw [if_neg here, if_neg fun both => here both.1, if_neg fun both => here both.1, finds]

theorem related_pattern (version' : Option Int) (text' : List Char) {i : Nat} {r : Rule}
    (place : (parse text).rules[i]? = some r)
    {s : Sigil} {j : Ident} (named : (.sigil s, j) ∈ r.names) (indexed : Bool)
    (some_name : bareName j.name ≠ "") :
    h.Related ⟨j.span, i, .patternReference (patternNamed?
      ((Document.ofText uri version text).ruleSymbol r).patterns j.name) false indexed⟩
      ⟨j.span.rebase h.spelling.view, i, .patternReference (patternNamed?
        ((Document.ofText uri version' text').ruleSymbol (r.rebase h.spelling.view)).patterns
          (h.spelling.view.name j.span j.name)) false indexed⟩ := by
  refine ⟨rfl, fun occurs => ?_⟩
  obtain ⟨bare, name⟩ := name_pattern (List.mem_of_getElem? place) named
  have spelled := h.view_name name (h.spell_name occurs name rfl)
  have lookup : patternNamed? ((Document.ofText uri version text).ruleSymbol r).patterns j.name =
      (r.patterns.map fun q => bareName q.ident.name).findIdx? (· == String.ofList bare) := by
    rw [patternNamed?_eq, if_neg some_name, name.bareName]
    exact congrArg _ List.map_map
  generalize patternNamed? ((Document.ofText uri version text).ruleSymbol r).patterns j.name =
    found at occurs spelled lookup ⊢
  have names_it : Occurrence.namesPattern rule pattern
      ⟨j.span, i, .patternReference found false indexed⟩ ↔ i = rule ∧ found = some pattern := by
    rw [Occurrence.namesPattern_iff]
    refine and_congr_right fun _ => ⟨?_, fun same => .inr ⟨indexed, by rw [same]⟩⟩
    rintro (same | ⟨_, same⟩)
    · cases same
    · exact (OccurrenceKind.patternReference.inj same).1
  simp only [names_it] at spelled
  have lookup' : patternNamed?
      ((Document.ofText uri version' text').ruleSymbol (r.rebase h.spelling.view)).patterns
      (h.spelling.view.name j.span j.name) = if i = rule ∧ found = none ∧
        bare = new then some pattern else found := by
    rw [patternNamed?_eq, if_neg, spelled, ← h.finds place bare found lookup.symm]
    · exact congrArg _ (List.map_map.trans List.map_map)
    · rw [spelled, String.ofList_eq_empty_iff]
      split
      · exact h.new_named
      · exact fun none => some_name (name.bareName.trans (String.ofList_eq_empty_iff.mpr none))
  have asks : Occurrence.asksFor text rule new ⟨j.span, i, .patternReference found false indexed⟩ ↔
      i = rule ∧ found = none ∧ bare = new := by
    have dangles : Occurrence.dangles ⟨j.span, i, .patternReference found false indexed⟩ ↔
        found = none := by
      cases found with
      | none => exact iff_of_true rfl rfl
      | some p => exact iff_of_false Bool.false_ne_true (Option.some_ne_none p)
    rw [Occurrence.asksFor, Bool.and_eq_true, Bool.and_eq_true, dangles, beq_iff_eq, beq_iff_eq,
      name.slice, Option.some_inj, and_assoc]
  rw [lookup', Occurrence.renamed]
  simp only [asks]
  split
  · rename_i asked
    obtain ⟨rfl, rfl, rfl⟩ := asked
    rfl
  · rfl

theorem compares (version' : Option Int) (text' : List Char) {i : Nat} {r : Rule}
    (place : (parse text).rules[i]? = some r) :
    Compares h.spelling.view h.Related i ((Document.ofText uri version text).ruleSymbol r).patterns
      ((Document.ofText uri version' text').ruleSymbol (r.rebase h.spelling.view)).patterns
        r.names := by
  have member := List.mem_of_getElem? place
  refine ⟨fun span kind other => h.related_same span i other, fun j named => ?_,
    fun s j named => ?_,
    fun s j indexed named some_name =>
      h.related_pattern version' text' place named indexed some_name⟩
  · have word := name_word member named
    show String.ofList (h.spelling.spell j.span.start j.name.toList) = _
    rw [Spelling.spell_word _ word, String.ofList_toList]
  · obtain ⟨bare, name⟩ := name_pattern member named
    have empty : ∀ text : List Char, bareName (String.ofList (s.char :: text)) = "" ↔ text = [] :=
      fun text => by
      rw [bareName_sigil, String.ofList_eq_empty_iff]
    show bareName (String.ofList (h.spelling.spell j.span.start j.name.toList)) = "" ↔ _
    rw [name.name, String.toList_ofList, Spelling.spell]
    split
    · rename_i spelled
      rw [empty]
      have old_name : bare = old := spelled.2.name
      exact iff_of_false (fun none => h.new_named ((empty new).mp none)) (old_name ▸ h.old_named)
    · exact Iff.rfl

theorem nameless (span : Span) : h.spelling.view.name span "" = "" := by
  have unnamed : h.spelling.spell span.start [] = [] := (Spelling.spell_short _ (by decide)).mpr rfl
  exact String.ofList_eq_empty_iff.mpr unnamed

/-- Rules keep their names. -/
theorem rule_name {r : Rule} (member : r ∈ (parse text).rules) :
    h.spelling.view.name r.ident.span r.ident.name = r.ident.name := by
  by_cases unnamed : r.ident.name = ""
  · rw [unnamed]
    exact h.nameless _
  · obtain ⟨i, place⟩ := List.mem_iff_getElem?.mp member
    refine (h.compares version text place).word r.ident ?_
    rw [Rule.names, if_neg unnamed]
    exact List.mem_cons_self ..

/-- What is found in the text that is spelled anew. -/
theorem found (clean : (parse text).errors = []) {text' : List Char}
    (respelled : Respelled h.spelling 0 text text') (version' : Option Int) (order' : Nat) :
    ((Document.ofText uri version' text').index catalog order').loopVars =
        ((Document.ofText uri version text).index catalog order).loopVars.map
          (·.rebase h.spelling.view) ∧
      List.Forall₂ h.Related ((Document.ofText uri version text).index catalog order).occurrences
        ((Document.ofText uri version' text').index catalog order').occurrences := by
  obtain ⟨file, _⟩ := (h.fits clean respelled).parse h.distinct
  exact Document.index_rebased file h.spelling.ordered (fun o o' same => same.1) h.nameless
    fun i r place => h.compares version' text' place

theorem occurrences (clean : (parse text).errors = []) {text' : List Char}
    (respelled : Respelled h.spelling 0 text text') (version' : Option Int) (order' : Nat) :
    ((Document.ofText uri version' text').index catalog order').occurrences =
      ((Document.ofText uri version text).index catalog order).occurrences.map
        (·.renamed h.spelling.view text rule pattern new) := by
  obtain ⟨length, each⟩ := List.forall₂_iff_zip.mp (h.found clean respelled version' order').2
  have same : List.Forall₂ (fun o o' => o.renamed h.spelling.view text rule pattern new = o')
      ((Document.ofText uri version text).index catalog order).occurrences
      ((Document.ofText uri version' text').index catalog order').occurrences :=
    List.forall₂_iff_zip.mpr ⟨length, fun pair => ((each pair).2 (List.of_mem_zip pair).1).symm⟩
  have equal := List.forall₂_map_left_iff.mpr same
  rw [List.forall₂_eq_eq_eq] at equal
  exact equal.symm

end Renaming

end RuleDesk
