import Mathlib.Data.List.MinMax
import NestedData.Json.Tree

/-!
# What is relied on of a document library

Documents are printed and parsed by a library that the development takes as it is.  This module names
what is relied on: a tree that is printed is parsed as the same tree, said separately for every sort of
tree, so that each law is about one piece of the format.  The law about floating numbers is the one
that depends on how numbers are rounded.  The laws of lists and maps carry reading back from the
children to the container, as long as no more containers are inside each other than the library is
ready for.

Main results:

- `Library.Faithful.readsBack`: a library that keeps the laws reads every well-formed tree back that is
  not nested too deep.
-/

namespace NestedData.Json

namespace Tree

/-- Every map inside the tree has distinct keys. -/
inductive WellFormed : Tree → Prop
  | null : WellFormed .null
  | bool (truth : Bool) : WellFormed (.bool truth)
  | number (value : Number) : WellFormed (.number value)
  | text (content : String) : WellFormed (.text content)
  | list {items : Array Tree} (hitems : ∀ item ∈ items, WellFormed item) : WellFormed (.list items)
  | map {entries : Entries Tree} (hkeys : (Entries.keys entries).Nodup)
      (hentries : ∀ entry ∈ entries, WellFormed entry.2) : WellFormed (.map entries)

/-- How many lists and maps are inside each other, at most. -/
def nesting : Tree → Nat
  | .list items => (items.map nesting).toList.foldr max 0 + 1
  | .map entries => (entries.map fun entry => nesting entry.2).foldr max 0 + 1
  | _ => 0
termination_by tree => tree
decreasing_by
  · exact sizeOf_item_lt ‹_›
  · exact sizeOf_entry_lt ‹_›

/-- An element is less nested than its list. -/
theorem nesting_item_lt {items : Array Tree} {item : Tree} (hmem : item ∈ items) :
    item.nesting < (list items).nesting := by
  have hnumber : item.nesting ∈ (items.map nesting).toList := by
    simpa using ⟨item, hmem, rfl⟩
  rw [nesting, Nat.lt_succ_iff]
  exact List.le_max_of_le' 0 hnumber (Nat.le_refl _)

/-- The value of an entry is less nested than the map. -/
theorem nesting_entry_lt {entries : Entries Tree} {entry : String × Tree} (hmem : entry ∈ entries) :
    entry.2.nesting < (map entries).nesting := by
  rw [nesting, Nat.lt_succ_iff]
  exact List.le_max_of_le' 0 (List.mem_map_of_mem hmem) (Nat.le_refl _)

end Tree

namespace Library

/-- The document of the tree is parsed as the tree. -/
def ReadsBack (library : Library) (tree : Tree) : Prop :=
  library.parse (library.print tree) = .ok tree

/-- The laws of a library that documents survive. -/
structure Faithful (library : Library) : Prop where
  /-- The word for nothing is read back. -/
  null : library.ReadsBack .null
  /-- The words for truth values are read back. -/
  bool : ∀ truth, library.ReadsBack (.bool truth)
  /-- A whole number of one of the 64-bit ranges is read back as a whole number. -/
  whole : ∀ value range, library.ReadsBack (.number (.whole value range))
  /-- A floating number is read back as a floating number with the same bits. -/
  float : ∀ value finite, library.ReadsBack (.number (.float value finite))
  /-- A text is read back, whatever characters are in it. -/
  text : ∀ content, library.ReadsBack (.text content)
  /-- A list is read back if its elements are. -/
  list : ∀ items, (Tree.list items).WellFormed → (Tree.list items).nesting ≤ depthLimit →
    (∀ item ∈ items, library.ReadsBack item) → library.ReadsBack (.list items)
  /-- A map under distinct keys is read back, in the same order, if its values are. -/
  map : ∀ entries, (Tree.map entries).WellFormed → (Tree.map entries).nesting ≤ depthLimit →
    (∀ entry ∈ entries, library.ReadsBack entry.2) → library.ReadsBack (.map entries)

/-- A well-formed tree that is not nested too deep is read back. -/
theorem Faithful.readsBack {library : Library} (hlibrary : library.Faithful) {tree : Tree}
    (htree : tree.WellFormed) (hdepth : tree.nesting ≤ depthLimit) : library.ReadsBack tree := by
  induction htree with
  | null => exact hlibrary.null
  | bool truth => exact hlibrary.bool truth
  | number value =>
    cases value with
    | whole value range => exact hlibrary.whole value range
    | float value finite => exact hlibrary.float value finite
  | text content => exact hlibrary.text content
  | @list items hitems ih =>
    apply hlibrary.list items (.list hitems) hdepth
    intro item hmem
    apply ih item hmem
    exact (Tree.nesting_item_lt hmem).le.trans hdepth
  | @map entries hkeys hentries ih =>
    apply hlibrary.map entries (.map hkeys hentries) hdepth
    intro entry hmem
    apply ih entry hmem
    exact (Tree.nesting_entry_lt hmem).le.trans hdepth

end Library

end NestedData.Json
