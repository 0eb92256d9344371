import NestedData.Proofs.Access.Growing
import NestedData.Proofs.Value.Bulk
import NestedData.Proofs.Value.Congruence

/-!
# Putting several children into a container

Putting a child into a container makes room for it first: an entry is added or a list is
padded.  This module says how two such changes go together.  At one step the later one
counts; at different steps neither sees the other, and their order shows in the order of
the entries that were added and in nothing else.

Main results:

- `Sequence.get?_pad`, `Sequence.get?_set`: what a list has at a position after it was padded
  or an element was replaced.
- `Action.put_put`: putting twice at one step is putting what came later.
- `Action.child?_makeRoom_put`: what one step finds does not depend on what was put at
  another.
- `Action.put_comm`: at different steps the order shows in the order of entries at most.
-/

namespace NestedData

/-! ## Two changes of entries, fields and elements -/

/-- Insertions under different keys may change places, up to the order of the entries. -/
theorem Entries.insert_comm {α : Type} {name other : String} (hne : name ≠ other)
    (entries : Entries α) (first second : α) :
    List.Perm (Entries.insert (Entries.insert entries name first) other second)
      (Entries.insert (Entries.insert entries other second) name first) := by
  induction entries with
  | nil => simpa [Entries.insert, hne, hne.symm] using List.Perm.swap _ _ _
  | cons entry rest ih =>
    obtain ⟨key, old⟩ := entry
    by_cases hname : key = name
    · subst hname
      simp [Entries.insert, hne]
    · by_cases hother : key = other
      · subst hother
        simp [Entries.insert, hname]
      · simpa [Entries.insert, hname, hother] using ih

theorem Record.setValue_setValue {α : Type} (record : Record α) (name : String)
    (first second : α) :
    (record.setValue name first).setValue name second = record.setValue name second := by
  obtain ⟨typeName, fields⟩ := record
  simp only [setValue, modifyField, Record.mk.injEq, true_and]
  induction fields with
  | nil => rfl
  | cons field rest ih => by_cases hname : field.name = name <;> simp [modifyField.go, hname, ih]

/-- Assignments to different fields may change places. -/
theorem Record.setValue_comm {α : Type} {name other : String} (hne : name ≠ other)
    (record : Record α) (first second : α) :
    (record.setValue name first).setValue other second =
      (record.setValue other second).setValue name first := by
  obtain ⟨typeName, fields⟩ := record
  simp only [setValue, modifyField, Record.mk.injEq, true_and]
  induction fields with
  | nil => rfl
  | cons field rest ih =>
    by_cases hname : field.name = name <;> by_cases hother : field.name = other <;>
      simp_all [modifyField.go]

namespace Sequence

variable {α : Type}

theorem ext_get? {first second : Sequence α} (hextent : first.extent = second.extent)
    (hitems : ∀ position, first.get? position = second.get? position) : first = second := by
  obtain ⟨extent, items⟩ := first
  obtain ⟨_, others⟩ := second
  obtain rfl := hextent
  exact congrArg (Sequence.mk extent) (Array.ext_getElem? hitems)

/-- A padded list has what it had and the padding behind it. -/
theorem get?_pad (sequence : Sequence α) (length : Nat) (fill : Nat → α) (position : Nat) :
    (sequence.pad length fill).get? position =
      if sequence.size ≤ position ∧ position < length then some (fill position)
      else sequence.get? position := by
  have hlength : sequence.items.toList.length = sequence.size := Array.length_toList
  rw [get?, ← Array.getElem?_toList, toList_pad, List.getElem?_append, hlength, get?,
    ← Array.getElem?_toList]
  by_cases hinside : position < sequence.size
  · rw [if_pos hinside, if_neg fun h => Nat.not_le.mpr hinside h.1]
  · have hstart : sequence.size ≤ position := Nat.not_lt.mp hinside
    rw [if_neg hinside, List.getElem?_map]
    by_cases hpadded : position < length
    · have hoffset : sequence.size + 1 * (position - sequence.size) = position := by omega
      rw [List.getElem?_range' (by omega), if_pos ⟨hstart, hpadded⟩, hoffset, Option.map_some]
    · have hafter : length - sequence.size ≤ position - sequence.size := by omega
      rw [if_neg fun h => hpadded h.2, List.getElem?_eq_none (by simpa using hafter),
        List.getElem?_eq_none (by rwa [hlength]), Option.map_none]

/-- A replaced element stands at its position, and the others are what they were. -/
theorem get?_set (sequence : Sequence α) (index : Nat) (value : α) (position : Nat) :
    (sequence.set index value).get? position =
      if index = position ∧ index < sequence.size then some value
      else sequence.get? position := by
  simp only [get?, set, size, Array.getElem?_setIfInBounds]
  by_cases hsame : index = position <;> by_cases hinside : index < sequence.items.size <;>
    simp_all

end Sequence

namespace Action

open Value

variable {shaping : Shaping} {location : Location} {step other : Step} {container : Value}

/-! ## What is put where -/

/-- An element beyond the end of a list that grows is padding after room has been made. -/
theorem get?_padTo (shaping : Shaping) (location : Location) (index : Nat)
    (sequence : Sequence Value) (position : Nat) :
    (padTo shaping location index sequence).get? position =
      if sequence.canGrow = true ∧ sequence.size ≤ position ∧ position ≤ index then
        some (shaping.zeroAt (location.child (.index position)))
      else sequence.get? position := by
  rw [padTo]
  by_cases hgrows : sequence.canGrow = true
  · simp [hgrows, Sequence.get?_pad]
  · simp [hgrows]

/-! ## Two children -/

/-- Putting twice at one step is putting what came later. -/
theorem put_put (shaping : Shaping) (location : Location) (step : Step)
    (first second container : Value) :
    put shaping location step second (put shaping location step first container) =
      put shaping location step second container := by
  cases container with
  | map entries =>
    cases step with
    | index position => rfl
    | key name => rw [put_map, put_map, put_map, Entries.insert_insert]
  | record aggregate =>
    cases step with
    | index position => rfl
    | key name => rw [put_record, put_record, put_record, Record.setValue_setValue]
  | list sequence =>
    cases step with
    | key name => rfl
    | index position =>
      rw [put_list, put_list, put_list]
      congr 1
      refine Sequence.ext_get? (by simp [extent_padTo]) fun index => ?_
      simp only [Sequence.get?_set, get?_padTo, Sequence.size_set, size_padTo, Sequence.canGrow,
        Sequence.extent_set, extent_padTo]
      grind
  | _ => rfl

/-- What one step finds does not depend on what was put at another. -/
theorem child?_makeRoom_put (shaping : Shaping) (location : Location) (hstep : container.Takes step)
    (hother : container.Takes other) (hne : step ≠ other) (child : Value) :
    (makeRoom shaping location other (put shaping location step child container)).child? other =
      (makeRoom shaping location other container).child? other := by
  cases hstep using Takes.casesOn with
  | entry entries name =>
    cases other with
    | index position => exact hother.elim
    | key key =>
      have hkeys : name ≠ key := fun hsame => hne (by rw [hsame])
      rw [put_map, child?_makeRoom_map, child?_makeRoom_map, Entries.get?_insert, if_neg hkeys]
  | field aggregate name _ => exact child?_setChild_of_ne hne.symm (.record aggregate) child
  | element sequence position _ =>
    cases other with
    | key name => exact hother.elim
    | index index =>
      have hpositions : position ≠ index := fun hsame => hne (by rw [hsame])
      simp only [put_list, makeRoom, child?, Sequence.get?_set, get?_padTo, Sequence.size_set,
        size_padTo, Sequence.canGrow, Sequence.extent_set, extent_padTo]
      grind

/-- Elements of a list that are padded and replaced at different positions may change places. -/
theorem set_padTo_comm (shaping : Shaping) (location : Location) {position index : Nat}
    (hne : position ≠ index) (sequence : Sequence Value) (first second : Value) :
    (padTo shaping location index ((padTo shaping location position sequence).set position
        first)).set index second =
      (padTo shaping location position ((padTo shaping location index sequence).set index
        second)).set position first := by
  refine Sequence.ext_get? (by simp [extent_padTo]) fun place => ?_
  simp only [Sequence.get?_set, get?_padTo, Sequence.size_set, size_padTo, Sequence.canGrow,
    Sequence.extent_set, extent_padTo]
  grind

/-- Children put at different steps are the same in either order, up to the order of
entries. -/
theorem put_comm (shaping : Shaping) (location : Location) (hstep : container.Takes step)
    (hother : container.Takes other) (hne : step ≠ other) (first second : Value) :
    Congruent Reordered
      (put shaping location other second (put shaping location step first container))
      (put shaping location step first (put shaping location other second container)) := by
  cases hstep using Takes.casesOn with
  | entry entries name =>
    cases other with
    | index position => exact hother.elim
    | key key =>
      have hkeys : name ≠ key := fun hsame => hne (by rw [hsame])
      simp only [put_map]
      exact .rule (.entries (Entries.insert_comm hkeys entries first second))
  | field aggregate name _ =>
    cases other with
    | index position => exact hother.elim
    | key key =>
      have hnames : name ≠ key := fun hsame => hne (by rw [hsame])
      simp only [put_record, Record.setValue_comm hnames]
      exact .refl _
  | element sequence position _ =>
    cases other with
    | key name => exact hother.elim
    | index index =>
      have hpositions : position ≠ index := fun hsame => hne (by rw [hsame])
      simp only [put_list, set_padTo_comm shaping location hpositions]
      exact .refl _

end Action

end NestedData
