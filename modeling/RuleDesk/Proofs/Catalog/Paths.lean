import RuleDesk.Catalog

namespace RuleDesk

/-! ## Where a path leads

The catalog follows a path as far as it can. What that means is said here without
the catalog's own walk: by the steps that lead from one node to the next. -/

namespace SchemaNode

/-- The steps of a path, one after the other, lead from a node to another. -/
inductive Leads : SchemaNode → Path → SchemaNode → Prop
  | here (n : SchemaNode) : Leads n [] n
  | step {n child last : SchemaNode} {segment : Segment} {rest : Path}
      (first : n.child? segment = some child)
      (later : Leads child rest last) : Leads n (segment :: rest) last

namespace Leads

variable {n m last : SchemaNode} {p q : Path}

/-- A path leads to one node only. -/
theorem unique (h : n.Leads p m) (h' : n.Leads p last) : m = last := by
  induction h with
  | here n =>
    cases h' with
    | here => rfl
  | step first _ ih =>
    cases h' with
    | step first' later' =>
      obtain rfl := Option.some.inj (first.symm.trans first')
      exact ih later'

theorem append (h : n.Leads p m) (h' : m.Leads q last) : n.Leads (p ++ q) last := by
  induction h with
  | here => exact h'
  | step first _ ih => exact .step first (ih h')

theorem split (h : n.Leads (p ++ q) last) : ∃ m, n.Leads p m ∧ m.Leads q last := by
  induction p generalizing n with
  | nil => exact ⟨n, .here n, h⟩
  | cons segment p ih =>
    cases h with
    | step first later =>
      obtain ⟨m, before, after⟩ := ih later
      exact ⟨m, .step first before, after⟩

end Leads

end SchemaNode

namespace Catalog

open SchemaNode

/-- What is followed leads to the node that is given. -/
theorem follow_leads (n : SchemaNode) (p : Path) :
    (follow n p).2 ≤ p.length ∧ n.Leads (p.take (follow n p).2) (follow n p).1 := by
  induction p generalizing n with
  | nil => exact ⟨Nat.le_refl 0, .here n⟩
  | cons segment rest ih =>
    rw [follow]
    cases first : n.child? segment with
    | none => exact ⟨Nat.zero_le _, .here n⟩
    | some child =>
      obtain ⟨within, later⟩ := ih child
      exact ⟨Nat.succ_le_succ within, .step first later⟩

/-- No longer part of the path leads anywhere. -/
theorem le_follow {n m : SchemaNode} {p : Path} {k : Nat} (within : k ≤ p.length)
    (h : n.Leads (p.take k) m) :
    k ≤ (follow n p).2 := by
  induction p generalizing n k with
  | nil => exact within
  | cons segment rest ih =>
    cases k with
    | zero => exact Nat.zero_le _
    | succ k =>
      cases h with
      | step first later =>
        rw [follow, first]
        exact Nat.succ_le_succ (ih (Nat.le_of_succ_le_succ within) later)

/-- A path names a module first, and the steps behind it lead from the module to a node. -/
def Resolves (c : Catalog) (p : Path) (n : SchemaNode) : Prop :=
  ∃ name rest root, p = .field name :: rest ∧ c.module? name = some root ∧ root.Leads rest n

/-- A part of a path that leads to a node, where no longer part leads anywhere. -/
structure LongestResolved (c : Catalog) (p : Path) (n : SchemaNode) (k : Nat) : Prop where
  within : k ≤ p.length
  resolves : c.Resolves (p.take k) n
  longest : ∀ {j m}, j ≤ p.length → c.Resolves (p.take j) m → j ≤ k

variable {c : Catalog} {p q : Path} {n m : SchemaNode} {k : Nat}

theorem Resolves.unique (h : c.Resolves p n) (h' : c.Resolves p m) : n = m := by
  obtain ⟨name, rest, root, rfl, known, leads⟩ := h
  obtain ⟨_, _, root', same, known', leads'⟩ := h'
  cases same
  obtain rfl := Option.some.inj (known.symm.trans known')
  exact leads.unique leads'

/-- Behind a path that is not empty one may go on. -/
theorem resolves_append (named : p ≠ []) :
    c.Resolves (p ++ q) n ↔ ∃ m, c.Resolves p m ∧ m.Leads q n := by
  constructor
  · rintro ⟨name, rest, root, same, known, leads⟩
    obtain ⟨first, later, rfl⟩ := List.exists_cons_of_ne_nil named
    cases same
    obtain ⟨m, before, after⟩ := leads.split
    exact ⟨m, ⟨name, later, root, rfl, known, before⟩, after⟩
  · rintro ⟨m, ⟨name, rest, root, rfl, known, before⟩, after⟩
    exact ⟨name, rest ++ q, root, rfl, known, before.append after⟩

theorem LongestResolved.unique {l : Nat} (h : c.LongestResolved p n k)
    (h' : c.LongestResolved p m l) : n = m ∧ k = l := by
  obtain rfl : k = l :=
    Nat.le_antisymm (h'.longest h.within h.resolves) (h.longest h'.within h'.resolves)
  exact ⟨h.resolves.unique h'.resolves, rfl⟩

/-- Behind the name of a module its longest part is the longest of all. -/
theorem longest_of_module {name : String} {root : SchemaNode} (known : c.module? name = some root)
    (rest : Path) :
    c.LongestResolved (.field name :: rest) (follow root rest).1 ((follow root rest).2 + 1) := by
  obtain ⟨within, leads⟩ := follow_leads root rest
  refine ⟨Nat.succ_le_succ within, ⟨name, _, root, rfl, known, leads⟩, @fun j m bound h => ?_⟩
  obtain ⟨_, later, root', same, known', leads'⟩ := h
  cases j with
  | zero => exact Nat.zero_le _
  | succ j =>
    cases same
    obtain rfl := Option.some.inj (known.symm.trans known')
    exact Nat.succ_le_succ (le_follow (Nat.le_of_succ_le_succ bound) leads')

theorem longestPrefix?_eq_some : c.longestPrefix? p = some (n, k) ↔ c.LongestResolved p n k := by
  have found : c.longestPrefix? p = some (n, k) → c.LongestResolved p n k := by
    intro h
    unfold longestPrefix? at h
    split at h
    · rename_i name rest
      obtain ⟨root, known, same⟩ := Option.map_eq_some_iff.mp h
      cases same
      exact longest_of_module known rest
    · cases h
  refine ⟨found, fun h => ?_⟩
  obtain ⟨name, later, root, same, known, _⟩ := h.resolves
  obtain ⟨rest, rfl⟩ : ∃ rest, p = .field name :: rest := by
    refine ⟨later ++ p.drop k, ?_⟩
    rw [← List.cons_append, ← same, List.take_append_drop]
  obtain ⟨rfl, rfl⟩ := h.unique (longest_of_module known rest)
  rw [longestPrefix?, known]
  rfl

theorem longestPrefix?_eq_none :
    c.longestPrefix? p = none ↔ ¬ ∃ name rest root, p = .field name :: rest ∧
      c.module? name = some root := by
  constructor
  · rintro none ⟨name, rest, root, rfl, known⟩
    rw [longestPrefix?_eq_some.mpr (longest_of_module known rest)] at none
    cases none
  · intro unknown
    unfold longestPrefix?
    split
    · rename_i name rest
      rw [Option.map_eq_none_iff, Option.eq_none_iff_forall_ne_some]
      exact fun root known => unknown ⟨name, rest, root, rfl, known⟩
    · rfl

/-- All of a path resolves exactly if it is its own longest part. -/
theorem longestResolved_length : c.LongestResolved p n p.length ↔ c.Resolves p n := by
  constructor
  · intro h
    have resolves := h.resolves
    rwa [List.take_length] at resolves
  · intro h
    exact ⟨Nat.le_refl _, by rwa [List.take_length], fun within _ => within⟩

theorem find?_eq_some_iff_longest :
    c.find? p = some n ↔ c.longestPrefix? p = some (n, p.length) := by
  unfold find?
  cases c.longestPrefix? p with
  | none => exact ⟨nofun, nofun⟩
  | some found =>
    obtain ⟨last, length⟩ := found
    constructor
    · intro h
      dsimp only at h
      split at h
      · rename_i whole
        rw [Option.some.inj h, whole]
      · cases h
    · intro h
      cases h
      exact if_pos rfl

theorem find?_eq_some : c.find? p = some n ↔ c.Resolves p n := by
  rw [find?_eq_some_iff_longest, longestPrefix?_eq_some, longestResolved_length]

/-- The catalog follows a path up to the last node that its first segments lead to,
one after the other, and finds a node exactly where this is the whole path. So what
is found behind a part of a path is found by going on from the node of that part. Only
the path without segments is no such part: it names no module. -/
theorem paths_resolve (c : Catalog) (p : Path) :
    (c.longestPrefix? p = none ↔ ¬ ∃ name rest root, p = .field name :: rest ∧
    c.module? name = some root) ∧
    (∀ n k, c.longestPrefix? p = some (n, k) ↔ c.LongestResolved p n k) ∧
    (∀ n, c.find? p = some n ↔ c.longestPrefix? p = some (n, p.length)) ∧
    (p ≠ [] → ∀ q n, c.find? (p ++ q) = some n ↔ ∃ m, c.find? p = some m ∧ m.Leads q n) ∧
    (p ≠ [] → ∀ q, (c.find? (p ++ q)).isSome → (c.find? p).isSome) := by
  have onward : p ≠ [] → ∀ q n, c.find? (p ++ q) = some n ↔ ∃ m, c.find? p = some m ∧
      m.Leads q n := by
    intro named q n
    simp only [find?_eq_some]
    exact resolves_append named
  refine ⟨longestPrefix?_eq_none, fun _ _ => longestPrefix?_eq_some,
    fun _ => find?_eq_some_iff_longest, onward, ?_⟩
  intro named q found
  obtain ⟨n, whole⟩ := Option.isSome_iff_exists.mp found
  obtain ⟨m, part, _⟩ := (onward named q n).mp whole
  rw [part, Option.isSome_some]

def sectionNode : SchemaNode :=
  .record none [("name", .scalar none .string), ("size", .scalar none .integer)]

/-- A module with an array of records and a dictionary. -/
def smallCatalog : Catalog :=
  ⟨[("pe", .root none [("sections", .array none sectionNode),
    ("version_info", .dictionary none (.scalar none .string) ["CompanyName"])])]⟩

/-- The name of an item is found behind the array, and what is no member stops the walk
at the item. -/
theorem paths_resolve_items : ([.field "pe", .field "sections"] : Path) ≠ [] ∧
    smallCatalog.find? [.field "pe", .field "sections", .index, .field "name"] =
      some (.scalar none .string) ∧
    smallCatalog.longestPrefix? [.field "pe", .field "sections", .index, .field "bogus",
      .field "name"] = some (sectionNode, 3) := by
  have named : ([.field "pe", .field "sections"] : Path) ≠ [] := nofun
  obtain ⟨_, _, _, onward, _⟩ := paths_resolve smallCatalog [.field "pe", .field "sections"]
  have leads :
    (SchemaNode.array none sectionNode).Leads [.index, .field "name"] (.scalar none .string) :=
    .step rfl (.step rfl (.here _))
  exact ⟨named, (onward named [.index, .field "name"] _).mpr ⟨_, rfl, leads⟩, rfl⟩

/-- The path without segments is in front of a path that is found, and is not found itself. -/
theorem empty_path_unresolved :
    (smallCatalog.find? ([] ++ [.field "pe"])).isSome ∧ smallCatalog.find? [] = none ∧
    ¬ ∀ (c : Catalog) (p q : Path), (c.find? (p ++ q)).isSome → (c.find? p).isSome :=
  ⟨rfl, rfl, fun all => nomatch all smallCatalog [] [.field "pe"] rfl⟩

end Catalog

end RuleDesk
