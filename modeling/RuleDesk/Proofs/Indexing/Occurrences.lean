import RuleDesk.Proofs.Indexing.Tokens

namespace RuleDesk

/-! ## What the occurrences of an index stand at -/

/-- A token with some kind and some name may stand at what is recorded in a rule,
where some loop variables are known. What is referred to by number is there. -/
def OccurrenceKind.Names (r : RuleSymbol) (vars : List LoopVariable) (kind : Kind) (name : String) :
    OccurrenceKind → Prop
  | ruleDeclaration => kind = .ident ∧ name = r.name
  | ruleReference recorded => kind = .ident ∧ name = recorded
  | patternDeclaration p => kind = .sigil .identity ∧ ∃ q, r.patterns[p]? = some q ∧ name = q.name
  | patternReference p _ _ =>
    (∃ sigil, kind = .sigil sigil) ∧ ∀ n ∈ p, ∃ q, r.patterns[n]? = some q ∧
      bareName name = bareName q.name
  | variableDeclaration v | variableReference v =>
    kind = .ident ∧ ∃ w, vars[v]? = some w ∧ name = w.name
  | moduleReference path _ => kind = .ident ∧ path.getLast? = some (.field name)

/-- A token is the name of what an occurrence denotes: of the rule or of the
variable, of the module or its member, or of the pattern but for the sigil. -/
def DocumentIndex.Denotes (x : DocumentIndex) (o : Occurrence) (t : Token) : Prop :=
  ∃ r, x.rules[o.rule]? = some r ∧ o.kind.Names r x.loopVars t.kind t.name

theorem Mention.Yields.names {r : RuleSymbol} {i : Nat} {vars : List LoopVariable} {m : Mention}
    {os : List Occurrence}
    {errors : List Diagnostic} (h : m.Yields i r.patterns vars os errors) {o : Occurrence}
    (member : o ∈ os) :
    o.span = m.ident.span ∧ o.kind.Names r vars m.use.kind m.ident.name := by
  cases h with
  | anonymous | nameless | field | rules => cases member
  | @pattern sigil =>
    obtain rfl := List.mem_singleton.mp member
    refine ⟨rfl, ⟨sigil, rfl⟩, fun n found => ?_⟩
    obtain ⟨q, place, same, _⟩ := patternNamed?_some found
    exact ⟨q, place, same.symm⟩
  | wildcard =>
    split at member
    · cases member
    · obtain rfl := List.mem_singleton.mp member
      exact ⟨rfl, ⟨.identity, rfl⟩, nofun⟩
  | loopVariable known same | declared known same =>
    obtain rfl := List.mem_singleton.mp member
    exact ⟨rfl, rfl, _, known, same.symm⟩
  | module =>
    obtain rfl := List.mem_singleton.mp member
    exact ⟨rfl, rfl, rfl⟩
  | rule =>
    obtain rfl := List.mem_singleton.mp member
    exact ⟨rfl, rfl, rfl⟩
  | member =>
    obtain rfl := List.mem_singleton.mp member
    exact ⟨rfl, rfl, List.getLast?_concat⟩

/-- What is declared in a rule stands at a name of it. -/
theorem Document.declarations_names (d : Document) {r : Rule} {o : Occurrence}
    (declared : o ∈ declarations o.rule r) (vars : List LoopVariable) :
    ∃ kind i, (kind, i) ∈ r.names ∧ o.span = i.span ∧
      o.kind.Names (d.ruleSymbol r) vars kind i.name := by
  obtain ⟨span, rule, kind⟩ := o
  rcases mem_declarations.mp declared with ⟨named, eq⟩ | ⟨n, p, place, _, eq⟩
  · cases eq
    refine ⟨.ident, r.ident, List.mem_append_left _ ?_, rfl, rfl, rfl⟩
    rw [if_neg named]
    exact List.mem_singleton_self _
  · cases eq
    have known : (d.ruleSymbol r).patterns[n]? = some (d.patternSymbol p) :=
      List.getElem?_map.trans (congrArg _ place)
    refine ⟨.sigil .identity, p.ident, List.mem_append_right _ (List.mem_append_left _ ?_), rfl,
      rfl, _, known, rfl⟩
    exact List.mem_map_of_mem (List.mem_of_getElem? place)

/-- Every occurrence stands at a name of its rule, which is the name of what it denotes. -/
theorem Document.found_names (d : Document) (catalog : Catalog) {o : Occurrence}
    (member : o ∈ (d.found catalog).occurrences) :
    ∃ r kind i, d.file.rules[o.rule]? = some r ∧ (kind, i) ∈ r.names ∧ o.span = i.span ∧
      o.kind.Names (d.ruleSymbol r) (d.found catalog).loopVars kind i.name := by
  obtain ⟨r, place, declared | ⟨m, inside, os, errors, yields, from_it⟩⟩ :=
    (d.found_foundIn catalog).origin o member
  · obtain ⟨kind, i, known⟩ := d.declarations_names declared (d.found catalog).loopVars
    exact ⟨r, kind, i, place, known⟩
  · obtain ⟨span, names⟩ := Mention.Yields.names (r := d.ruleSymbol r) yields from_it
    exact ⟨r, m.use.kind, m.ident, place, mention_name inside, span, names⟩

/-- In the index of every text, malformed or not, the occurrences are not empty,
and each one starts and ends before the next one starts. Each stands at a token
of the text that is the name of what it denotes, in a rule and with a pattern or
a loop variable that there is. At an offset, that occurrence is found which a look
at all of them finds around it, or else the one that ends there. -/
theorem occurrences_stand (uri : String) (version : Option Int) (text : List Char)
    (catalog : Catalog) (order : Nat) :
    let x := (Document.ofText uri version text).index catalog order
    (∀ o ∈ x.occurrences, o.span.start < o.span.stop) ∧
    x.occurrences.Pairwise (fun o o' => o.span.start < o'.span.start ∧
      o.span.stop ≤ o'.span.start) ∧
    (∀ o ∈ x.occurrences, ∃ t ∈ (finalState text).read, t.span = o.span ∧
      sliceBytes? text o.span.start o.span.stop = some t.text ∧ x.Denotes o t) ∧
    ∀ n, x.occurrenceAt? n =
      (x.occurrences.find? fun o => o.span.start ≤ n && n < o.span.stop).or
        (x.occurrences.find? fun o => o.span.stop == n) := by
  intro x
  have read : x.Read := ⟨uri, version, text, catalog, order, rfl⟩
  obtain ⟨ordered, wide⟩ := read.ordered
  refine ⟨wide, ?_, fun o member => ?_, read.occurrenceAt?_eq⟩
  · exact ordered.imp_of_mem fun {o o'} member _ apart =>
      ⟨Nat.lt_of_lt_of_le (wide o member) apart, apart⟩
  obtain ⟨r, kind, i, place, named, span, names⟩ :=
    (Document.ofText uri version text).found_names catalog (DocumentIndex.mem_occurrences.mp member)
  obtain ⟨t, known, rfl, rfl⟩ := name_token (List.mem_of_getElem? place) named
  refine ⟨t, known, span.symm, ?_, _, List.getElem?_map.trans (congrArg _ place), names⟩
  obtain ⟨c, after, reaches, start, meant, next⟩ := (finalState_tracked text).read.stands t known
  rw [span]
  exact (reaches.standsAt (Cursor.nextSolid?_of_solid next meant)).slice

end RuleDesk
