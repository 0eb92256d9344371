import NestedData.Schema.Node

/-!
# Unions of nodes

This module defines unions: alternative nodes under distinct names, of which any may describe a value.
The alternatives are tried in their order, except that the default comes first.

Main results:

- `NodeUnion.mem_ordered_iff`: the order in which alternatives are tried leaves none out.
- `NodeUnion.exists_of_firstFit?`, `NodeUnion.firstFit?_eq_none_iff`: when an attempt on the
  alternatives succeeds.
-/

namespace NestedData

/-- Alternative nodes under distinct names, of which one may be the default. -/
structure NodeUnion (α : Type) where
  /-- The name of the union. -/
  name : String
  /-- The name of the default alternative. -/
  default? : Option String := none
  /-- The alternatives, in the order in which they were added. -/
  alternatives : List (String × Node α) := []

namespace NodeUnion

variable {α : Type}

/-- The union with an alternative added, in place of an alternative of that name.  It may become the
default. -/
def add (union : NodeUnion α) (name : String) (node : Node α) (asDefault : Bool) : NodeUnion α :=
  { union with
    default? := if asDefault then some name else union.default?
    alternatives := Entries.insert union.alternatives name node }

/-- The default alternative, or else the first. -/
def preferred? (union : NodeUnion α) : Option (String × Node α) :=
  let named? := union.default?.bind fun name =>
    union.alternatives.find? fun alternative => alternative.1 == name
  named?.or union.alternatives.head?

/-- The alternatives in the order in which they are tried: the preferred one first. -/
def ordered (union : NodeUnion α) : List (String × Node α) :=
  match union.preferred? with
  | none => []
  | some preferred =>
    preferred :: union.alternatives.filter fun alternative => alternative.1 != preferred.1

theorem mem_of_preferred? {union : NodeUnion α} {alternative : String × Node α}
    (found : union.preferred? = some alternative) : alternative ∈ union.alternatives := by
  rcases Option.or_eq_some_iff.1 found with named | ⟨_, first⟩
  · obtain ⟨name, _, there⟩ := Option.bind_eq_some_iff.1 named
    exact List.mem_of_find?_eq_some there
  · exact List.mem_of_head? first

/-- What is tried is an alternative. -/
theorem mem_of_mem_ordered {union : NodeUnion α} {alternative : String × Node α}
    (mem : alternative ∈ union.ordered) : alternative ∈ union.alternatives := by
  unfold ordered at mem
  split at mem
  · simp at mem
  · rename_i found
    rcases List.mem_cons.1 mem with rfl | rest
    · exact mem_of_preferred? found
    · exact (List.mem_filter.1 rest).1

/-- With distinct names, exactly the alternatives are tried. -/
theorem mem_ordered_iff {union : NodeUnion α} (distinct : (Entries.keys union.alternatives).Nodup)
    {alternative : String × Node α} :
    alternative ∈ union.ordered ↔ alternative ∈ union.alternatives := by
  refine ⟨mem_of_mem_ordered, fun mem => ?_⟩
  unfold ordered
  split
  · rename_i missing
    have empty := (Option.or_eq_none_iff.1 missing).2
    rw [List.head?_eq_none_iff] at empty
    simp [empty] at mem
  · rename_i preferred found
    by_cases same : alternative.1 = preferred.1
    · have one := Entries.get?_of_mem distinct mem
      have two := Entries.get?_of_mem distinct (mem_of_preferred? found)
      have : alternative = preferred := Prod.ext same (by simp_all)
      exact this ▸ List.mem_cons_self
    · exact List.mem_cons_of_mem _ (List.mem_filter.2 ⟨mem, by simpa using same⟩)

/-! ## Trying the alternatives -/

variable {β ε : Type}

/-- The first alternative, in the order in which they are tried, for which an attempt succeeds, by its
name and with what comes of it. -/
def firstFit? (union : NodeUnion α)
    (attempt : (alternative : String × Node α) → alternative ∈ union.ordered → Except ε β) :
    Option (String × β) :=
  union.ordered.attach.findSome? fun alternative =>
    match attempt alternative.1 alternative.2 with
    | .ok outcome => some (alternative.1.1, outcome)
    | .error _ => none

/-- What comes of the alternatives comes of one of them. -/
theorem exists_of_firstFit? {union : NodeUnion α}
    {attempt : (alternative : String × Node α) → alternative ∈ union.ordered → Except ε β}
    {fit : String × β} (found : union.firstFit? attempt = some fit) :
    ∃ node, ∃ mem : (fit.1, node) ∈ union.ordered, attempt (fit.1, node) mem = .ok fit.2 := by
  obtain ⟨⟨⟨name, node⟩, mem⟩, _, here⟩ := List.exists_of_findSome?_eq_some found
  dsimp only at here
  split at here
  · rename_i outcome success
    obtain rfl := Option.some.inj here
    exact ⟨node, mem, success⟩
  · simp at here

/-- Nothing comes of the alternatives if every attempt fails. -/
theorem firstFit?_eq_none_iff {union : NodeUnion α}
    {attempt : (alternative : String × Node α) → alternative ∈ union.ordered → Except ε β} :
    union.firstFit? attempt = none ↔
      ∀ alternative, ∀ mem : alternative ∈ union.ordered, ∃ fault,
        attempt alternative mem = .error fault := by
  rw [firstFit?, List.findSome?_eq_none_iff]
  constructor
  · intro all alternative mem
    have := all ⟨alternative, mem⟩ (List.mem_attach _ _)
    dsimp only at this
    split at this
    · simp at this
    · exact ⟨_, ‹_›⟩
  · intro all alternative _
    obtain ⟨fault, fails⟩ := all alternative.1 alternative.2
    simp [fails]

end NodeUnion

end NestedData
