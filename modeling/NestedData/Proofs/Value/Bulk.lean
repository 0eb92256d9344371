import Mathlib
import NestedData.Proofs.Value.Places

/-!
# How much there is inside a value

The bulk of a value counts the places inside it, and those where something is twice.  It
does not change when a child is replaced by one of the same bulk, and it tells a value from
one in which an absent value has become a container, a list has been padded or an entry has
been added.

Main results:

- `Value.bulk_eq`: the bulk of a container is made of that of its children.
- `Value.bulk_setChild`: what replacing a child changes.
- `Value.bulk_insert`, `Value.bulk_pad`: a new entry and new elements make a container larger.
-/

namespace NestedData

/-- Replacing the value of an entry in a sum over all entries. -/
theorem Entries.sum_insert {α : Type} (f : α → Nat) {entries : Entries α} {name : String} {old : α}
    (hold : Entries.get? entries name = some old) (new : α) :
    ((Entries.insert entries name new).map fun entry => f entry.2).sum + f old =
      (entries.map fun entry => f entry.2).sum + f new := by
  induction entries with
  | nil => cases hold
  | cons entry rest ih =>
    rcases entry with ⟨key, value⟩
    simp only [Entries.get?] at hold
    simp only [Entries.insert]
    by_cases hname : key = name
    · rw [if_pos hname] at hold ⊢
      simp only [List.map_cons, List.sum_cons, Option.some.inj hold]
      omega
    · rw [if_neg hname] at hold ⊢
      have hrest := ih hold
      simp only [List.map_cons, List.sum_cons]
      omega

/-- A new entry in a sum over all entries. -/
theorem Entries.sum_insert_of_missing {α : Type} (f : α → Nat) {entries : Entries α}
    {name : String} (habsent : Entries.contains entries name = false) (new : α) :
    ((Entries.insert entries name new).map fun entry => f entry.2).sum =
      (entries.map fun entry => f entry.2).sum + f new := by
  induction entries with
  | nil => simp [Entries.insert]
  | cons entry rest ih =>
    rcases entry with ⟨key, value⟩
    by_cases hname : key = name
    · simp [Entries.contains, Entries.get?, hname] at habsent
    · have hrest : Entries.contains rest name = false := by
        simpa [Entries.contains, Entries.get?, hname] using habsent
      simp only [Entries.insert, if_neg hname, List.map_cons, List.sum_cons, ih hrest]
      omega

/-- Replacing the value of a field in a sum over the fields that paths see. -/
theorem Record.sum_setValue {α : Type} (f : α → Nat) {record : Record α} {name : String} {old : α}
    (hold : record.get? name = some old) (new : α) :
    ((record.setValue name new).exportedFields.map fun field => f field.value).sum + f old =
      (record.exportedFields.map fun field => f field.value).sum + f new := by
  obtain ⟨field, hfield, hexported, rfl⟩ := Record.get?_eq_some_iff.mp hold
  rcases record with ⟨typeName, fields⟩
  simp only [Record.field?, Record.exportedFields, Record.setValue, Record.modifyField] at hfield ⊢
  clear hold
  induction fields with
  | nil => cases hfield
  | cons first rest ih =>
    by_cases hname : first.name = name
    · rw [List.find?_cons_of_pos (by simpa using hname)] at hfield
      obtain rfl := Option.some.inj hfield
      simp only [Record.modifyField.go, hname, if_true, List.filter_cons, hexported, List.map_cons,
        List.sum_cons]
      omega
    · rw [List.find?_cons_of_neg (by simpa using hname)] at hfield
      have hrest := ih hfield
      simp only [Record.modifyField.go, hname, if_false, List.filter_cons]
      split
      · rw [List.map_cons, List.map_cons, List.sum_cons, List.sum_cons]
        omega
      · exact hrest

/-- Replacing an element in a sum over all elements. -/
theorem Sequence.sum_set {α : Type} (f : α → Nat) {items : List α} {position : Nat} {old : α}
    (hold : items[position]? = some old) (new : α) :
    ((items.set position new).map f).sum + f old = (items.map f).sum + f new := by
  induction items generalizing position with
  | nil => cases hold
  | cons item rest ih =>
    cases position with
    | zero =>
      obtain rfl := Option.some.inj hold
      rw [List.set_cons_zero, List.map_cons, List.map_cons, List.sum_cons, List.sum_cons]
      omega
    | succ position =>
      have hrest := ih hold
      rw [List.set_cons_succ, List.map_cons, List.map_cons, List.sum_cons, List.sum_cons]
      omega

/-- A padded list begins with the elements it had. -/
theorem Sequence.toList_pad {α : Type} (sequence : Sequence α) (length : Nat) (fill : Nat → α) :
    (sequence.pad length fill).items.toList =
      sequence.items.toList ++
        (List.range' sequence.size (length - sequence.size)).map fill := by
  have hfold (positions : List Nat) : ∀ items : Array α,
      (positions.foldl (fun items index => items.push (fill index)) items).toList =
        items.toList ++ positions.map fill := by
    induction positions with
    | nil => simp
    | cons first rest ih =>
      intro items
      rw [List.foldl_cons, ih]
      simp
  exact hfold _ _

namespace Value

variable {value container old new : Value} {step : Step}

/-- The number of places inside a value, those where something is counted twice. -/
def bulk (value : Value) : Nat :=
  ((value.places []).map fun place => if place.2.isAbsent then 1 else 2).sum

/-- The bulk of a value is made of that of the children at the end of its references. -/
theorem bulk_eq (value : Value) :
    value.bulk = (if value.target.isAbsent then 1 else 2) +
      (value.target.children.map fun child => child.2.bulk).sum := by
  rw [bulk, places_nil, List.map_cons, List.sum_cons, List.map_flatMap]
  congr 1
  induction value.target.children with
  | nil => rfl
  | cons child rest ih =>
    rw [List.flatMap_cons, List.sum_append, ih, List.map_cons, List.sum_cons, List.map_map]
    rfl

@[simp]
theorem bulk_target (value : Value) : value.target.bulk = value.bulk := by
  rw [bulk_eq, bulk_eq value, target_target]

theorem bulk_mapTarget (value new : Value) : (value.mapTarget fun _ => new).bulk = new.bulk := by
  rw [← bulk_target, target_mapTarget, bulk_target]

theorem bulk_pos (value : Value) : 0 < value.bulk := by
  rw [bulk_eq]
  split <;> omega

theorem bulk_of_absent (habsent : value.target.isAbsent = true) : value.bulk = 1 := by
  rw [bulk_eq, if_pos habsent]
  cases htarget : value.target <;>
    first | rfl | (rw [htarget] at habsent; cases habsent)

theorem bulk_of_present (hpresent : value.target.isAbsent = false) : 1 < value.bulk := by
  rw [bulk_eq, if_neg (by simp [hpresent])]
  omega

theorem bulk_map (entries : Entries Value) :
    (Value.map entries).bulk = 2 + (entries.map fun entry => entry.2.bulk).sum := by
  rw [bulk_eq]
  simp [target, children, isAbsent, Function.comp_def]

theorem bulk_record (aggregate : Record Value) :
    (Value.record aggregate).bulk =
      2 + (aggregate.exportedFields.map fun field => field.value.bulk).sum := by
  rw [bulk_eq]
  simp [target, children, isAbsent, Function.comp_def]

theorem bulk_list (sequence : Sequence Value) :
    (Value.list sequence).bulk = 2 + (sequence.items.toList.map bulk).sum := by
  have hitems : sequence.items.toList.map bulk =
      sequence.items.toList.zipIdx.map fun slot => slot.1.bulk := by
    rw [← List.zipIdx_map_fst 0 sequence.items.toList, List.map_map, List.zipIdx_map_fst]
    rfl
  rw [bulk_eq]
  simp [target, children, isAbsent, Function.comp_def, hitems]

/-- Replacing a child adds what the new one has more. -/
theorem bulk_setChild (hold : container.child? step = some old) (new : Value) :
    (container.setChild step new).bulk + old.bulk = container.bulk + new.bulk := by
  cases container with
  | map entries =>
    cases step with
    | index position => cases hold
    | key name =>
      have hvalue : Entries.get? entries name = some old := hold
      have hpresent : Entries.contains entries name = true := by
        rw [Entries.contains, hvalue]
        rfl
      have hsum := Entries.sum_insert bulk hvalue new
      rw [setChild, if_pos hpresent, bulk_map, bulk_map]
      omega
  | record aggregate =>
    cases step with
    | index position => cases hold
    | key name =>
      have hsum := Record.sum_setValue bulk (show aggregate.get? name = some old from hold) new
      rw [setChild, bulk_record, bulk_record]
      omega
  | list sequence =>
    cases step with
    | key name => cases hold
    | index position =>
      have hitem : sequence.items.toList[position]? = some old := by
        rw [Array.getElem?_toList]
        exact hold
      have hsum := Sequence.sum_set bulk hitem new
      rw [setChild, bulk_list, bulk_list, Sequence.set, Array.toList_setIfInBounds]
      omega
  | _ => cases hold

/-- A new entry makes a map larger. -/
theorem bulk_insert {entries : Entries Value} {name : String}
    (habsent : Entries.contains entries name = false) (new : Value) :
    (Value.map (Entries.insert entries name new)).bulk = (Value.map entries).bulk + new.bulk := by
  rw [bulk_map, bulk_map, Entries.sum_insert_of_missing bulk habsent]
  omega

/-- New elements make a list larger. -/
theorem bulk_pad {sequence : Sequence Value} {length : Nat} (hlength : sequence.size < length)
    (fill : Nat → Value) :
    (Value.list sequence).bulk < (Value.list (sequence.pad length fill)).bulk := by
  have hfirst : length - sequence.size = length - sequence.size - 1 + 1 := by omega
  have hpos := (fill sequence.size).bulk_pos
  rw [bulk_list, bulk_list, Sequence.toList_pad, hfirst, List.range'_succ, List.map_cons,
    List.map_append, List.map_cons, List.sum_append, List.sum_cons]
  omega

end Value

end NestedData
