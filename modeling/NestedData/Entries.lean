/-!
# Entries under keys

This module provides lists of entries in insertion order, the shape of maps and of everything else
that is looked up by name.  Inserting under a key that is present replaces the entry where it
stands; removing an entry keeps the order of the others.

Main results:

- `get?_insert`: what a look-up finds after an insertion.
- `keys_insert`: insertion keeps the keys in place and adds a new one at the end.
- `get?_of_mem`: with distinct keys, every entry is found under its key.
- `nodup_keys_insert`: distinct keys stay distinct when an entry is inserted.
-/

namespace NestedData

/-- Entries under keys, in insertion order. -/
abbrev Entries (α : Type) := List (String × α)

namespace Entries

variable {α β : Type}

/-- The value under a key. -/
def get? : Entries α → String → Option α
  | [], _ => none
  | (name, value) :: rest, key => if name = key then some value else get? rest key

/-- Whether there is a value under a key. -/
def contains (entries : Entries α) (key : String) : Bool :=
  (get? entries key).isSome

/-- The keys, in order. -/
def keys (entries : Entries α) : List String :=
  entries.map Prod.fst

/-- Puts a value under a key: in place of the value there, or else at the end. -/
def insert : Entries α → String → α → Entries α
  | [], key, value => [(key, value)]
  | (name, old) :: rest, key, value =>
    if name = key then (name, value) :: rest else (name, old) :: insert rest key value

/-- Removes the value under a key. -/
def erase : Entries α → String → Entries α
  | [], _ => []
  | (name, value) :: rest, key => if name = key then rest else (name, value) :: erase rest key

/-- Entries inserted one after the other. -/
def ofList (pairs : List (String × α)) : Entries α :=
  pairs.foldl (fun entries pair => insert entries pair.1 pair.2) []

/-- The same keys with other values. -/
def mapValues (f : α → β) (entries : Entries α) : Entries β :=
  entries.map fun entry => (entry.1, f entry.2)

/-! ## Look-up after insertion and removal -/

/-- After an insertion, the inserted value is found under its key and the others are unchanged. -/
theorem get?_insert (entries : Entries α) (key other : String) (value : α) :
    get? (insert entries key value) other =
      if key = other then some value else get? entries other := by
  induction entries with
  | nil => simp [insert, get?]
  | cons entry rest ih =>
    obtain ⟨name, old⟩ := entry
    by_cases same : name = key
    · subst same
      simp only [insert, get?, if_true]
      split <;> rfl
    · simp only [insert, if_neg same, get?, ih]
      by_cases found : name = other
      · simp [found, show ¬ key = other from fun h => same (found.trans h.symm)]
      · simp [found]

/-- A key is present exactly when it is listed. -/
theorem contains_iff_mem_keys (entries : Entries α) (key : String) :
    contains entries key = true ↔ key ∈ keys entries := by
  induction entries with
  | nil => simp [contains, get?, keys]
  | cons entry rest ih =>
    obtain ⟨name, value⟩ := entry
    by_cases same : name = key
    · simp [contains, get?, keys, same]
    · simpa [contains, get?, keys, same, Ne.symm same] using ih

/-- What is found under a key is an entry. -/
theorem mem_of_get? {entries : Entries α} {key : String} {value : α}
    (found : get? entries key = some value) : (key, value) ∈ entries := by
  induction entries with
  | nil => simp [get?] at found
  | cons entry rest ih =>
    obtain ⟨name, old⟩ := entry
    by_cases same : name = key
    · simp_all [get?]
    · simp only [get?, if_neg same] at found
      exact List.mem_cons_of_mem _ (ih found)

/-- With distinct keys, the value of an entry is found under its key. -/
theorem get?_of_mem {entries : Entries α} (distinct : (keys entries).Nodup) {entry : String × α}
    (mem : entry ∈ entries) : get? entries entry.1 = some entry.2 := by
  induction entries with
  | nil => simp at mem
  | cons head rest ih =>
    simp only [keys, List.map_cons, List.nodup_cons] at distinct
    rcases List.mem_cons.1 mem with rfl | later
    · simp [get?]
    · have different : head.1 ≠ entry.1 := fun same =>
        distinct.1 (same ▸ List.mem_map_of_mem later)
      simpa [get?, different] using ih distinct.2 later

/-! ## Keys -/

/-- Insertion keeps the keys in place and adds a new one at the end. -/
theorem keys_insert (entries : Entries α) (key : String) (value : α) :
    keys (insert entries key value) =
      if contains entries key then keys entries else keys entries ++ [key] := by
  induction entries with
  | nil => simp [insert, keys, contains, get?]
  | cons entry rest ih =>
    obtain ⟨name, old⟩ := entry
    by_cases same : name = key
    · simp [insert, keys, contains, get?, same]
    · have tail : contains ((name, old) :: rest) key = contains rest key := by
        simp [contains, get?, same]
      have head : keys (insert ((name, old) :: rest) key value) =
          name :: keys (insert rest key value) := by
        simp [insert, keys, same]
      rw [head, tail, ih]
      split <;> rfl

/-- Distinct keys stay distinct when a value is inserted. -/
theorem nodup_keys_insert {entries : Entries α} (distinct : (keys entries).Nodup) (key : String)
    (value : α) : (keys (insert entries key value)).Nodup := by
  rw [keys_insert]
  split
  · exact distinct
  · rename_i absent
    rw [contains_iff_mem_keys] at absent
    exact List.nodup_append.2 ⟨distinct, by simp, by
      intro one memOne two memTwo same
      simp only [List.mem_singleton] at memTwo
      exact absent (memTwo ▸ same ▸ memOne)⟩

/-- Removing an entry leaves a sublist of the entries. -/
theorem erase_sublist (entries : Entries α) (key : String) :
    (erase entries key).Sublist entries := by
  induction entries with
  | nil => simp [erase]
  | cons entry rest ih =>
    obtain ⟨name, value⟩ := entry
    by_cases same : name = key
    · simp [erase, same]
    · simpa [erase, same] using ih

end Entries

end NestedData
