import NestedData.Proofs.Access.Surviving
import NestedData.Proofs.Value.Bulk
import NestedData.Value.Display
import NestedData.Value.Document
import NestedData.Value.Zero

/-!
# Views of values

A view decides which differences between values are seen: references may be told from what they refer
to or looked through, and hidden fields may be shown or covered.  This module defines what is seen of a
value and shows that looking at a value and working on it go together: the children that are seen are
what is seen of the children, and a container that is changed looks as if what is seen of it had been
changed.

Main results:

- `View.seen_seen`: in what is seen, everything is seen.
- `View.target_seen`, `View.seen_mapTarget`: references are followed and written through alike.
- `View.child?_seen`, `View.children_seen`, `View.places_seen`: so are the steps to what is inside.
- `View.seen_setChild`, `View.zeroed_seen`: children are replaced and values emptied alike.
- `View.toTree_seen`, `View.snapshot_seen`: no view changes a document, and none that shows references
  changes a text in a message.
-/

namespace NestedData

/-! ## Entries with other values -/

namespace Entries

variable {α β : Type} {f : α → β} {entries : Entries α}

theorem mapValues_cons (entry : String × α) :
    mapValues f (entry :: entries) = (entry.1, f entry.2) :: mapValues f entries := rfl

theorem get?_mapValues (key : String) : get? (mapValues f entries) key = (get? entries key).map f := by
  induction entries with
  | nil => rfl
  | cons entry rest ih =>
    rw [mapValues_cons, get?, get?, ih]
    split <;> rfl

theorem contains_mapValues (key : String) :
    contains (mapValues f entries) key = contains entries key := by
  rw [contains, get?_mapValues, Option.isSome_map, contains]

theorem keys_mapValues : keys (mapValues f entries) = keys entries := by
  simp [keys, mapValues]

/-- Values may be changed after another one has been put under a key. -/
theorem mapValues_insert (key : String) (value : α) :
    mapValues f (insert entries key value) = insert (mapValues f entries) key (f value) := by
  induction entries with
  | nil => rfl
  | cons entry rest ih =>
    rw [mapValues_cons, insert, insert]
    split
    · rfl
    · rw [mapValues_cons, ih]

/-- Values may be changed after one has been removed. -/
theorem mapValues_erase (key : String) :
    mapValues f (erase entries key) = erase (mapValues f entries) key := by
  induction entries with
  | nil => rfl
  | cons entry rest ih =>
    rw [mapValues_cons, erase, erase]
    split
    · rfl
    · rw [mapValues_cons, ih]

end Entries

/-! ## Sequences with other elements -/

namespace Sequence

variable {α : Type} {f : α → α} {sequence : Sequence α}

@[simp]
theorem size_map : (sequence.map f).size = sequence.size := by
  simp [map, size]

@[simp]
theorem canGrow_map : (sequence.map f).canGrow = sequence.canGrow := rfl

theorem get?_map (index : Nat) : (sequence.map f).get? index = (sequence.get? index).map f := by
  simp [map, get?]

theorem map_set (index : Nat) (value : α) :
    (sequence.set index value).map f = (sequence.map f).set index (f value) := by
  simp [map, set, Array.map_setIfInBounds]

theorem map_pad (length : Nat) (fill : Nat → α) :
    (sequence.pad length fill).map f = (sequence.map f).pad length fun index => f (fill index) := by
  have hitems : ((sequence.pad length fill).map f).items =
      ((sequence.map f).pad length fun index => f (fill index)).items := by
    apply Array.toList_inj.mp
    rw [toList_pad, map, Array.toList_map, toList_pad]
    simp [map, size]
  simpa [map, pad] using hitems

theorem without_map (indices : List Nat) :
    (sequence.map f).without indices = (sequence.without indices).map f := by
  simp only [without, size_map]
  simp only [map, Array.zip_map_left, Array.filterMap_map, Array.map_filterMap]
  congr 1
  funext slot
  cases hdoomed : slot.2 <;> simp [hdoomed]

end Sequence

/-! ## Records with another field -/

/-- A change of the first field of a name depends on what becomes of that field alone. -/
theorem Record.modifyField_congr {α : Type} {record : Record α} {name : String}
    {f g : Field α → Field α} (hsame : ∀ field, record.field? name = some field → f field = g field) :
    record.modifyField name f = record.modifyField name g := by
  rcases record with ⟨typeName, fields⟩
  simp only [modifyField, field?, mk.injEq, true_and] at hsame ⊢
  induction fields with
  | nil => rfl
  | cons head rest ih =>
    rw [modifyField.go, modifyField.go]
    by_cases hname : head.name = name
    · rw [if_pos hname, if_pos hname, hsame head (by simp [hname])]
    · rw [List.find?_cons_of_neg (by simpa using hname)] at hsame
      rw [if_neg hname, if_neg hname, ih hsame]

/-! ## Views -/

/-- Which differences between values are seen. -/
structure View where
  /-- Whether references are told from what they refer to. -/
  references : Bool
  /-- Whether the fields that paths do not see are seen. -/
  hiddenFields : Bool

namespace View

/-- The view that looks through references. -/
def throughReferences : View where
  references := false
  hiddenFields := true

/-- The view of what is exported. -/
def ofExported : View where
  references := true
  hiddenFields := false

/-- What is seen of a value.  Where references are looked through, what they refer to stands in their
place, and null in place of a reference to nothing.  Where hidden fields are covered, null stands in
them. -/
def seen (view : View) : Value → Value
  | .list sequence => .list { sequence with items := sequence.items.map (seen view) }
  | .map entries => .map (entries.map fun entry => (entry.1, seen view entry.2))
  | .record aggregate =>
    .record { aggregate with
      fields := aggregate.fields.map fun field =>
        { field with
          value := if field.exported || view.hiddenFields then seen view field.value else .null } }
  | .ref referent => if view.references then .ref (seen view referent) else seen view referent
  | .nilRef => if view.references then .nilRef else .null
  | value => value
termination_by value => value
decreasing_by
  · exact Value.sizeOf_item_lt ‹_›
  · exact Value.sizeOf_entry_lt ‹_›
  · exact Value.sizeOf_field_lt ‹_›
  · decreasing_tactic
  · decreasing_tactic

/-- What is seen of a field. -/
def field (view : View) (field : Field Value) : Field Value :=
  { field with value := if field.exported || view.hiddenFields then view.seen field.value else .null }

/-- What is seen of a record. -/
def record (view : View) (aggregate : Record Value) : Record Value :=
  { aggregate with fields := aggregate.fields.map view.field }

variable {view : View} {value : Value}

@[simp]
theorem seen_list (sequence : Sequence Value) :
    view.seen (.list sequence) = .list (sequence.map view.seen) := by
  rw [seen, Sequence.map]

@[simp]
theorem seen_map (entries : Entries Value) :
    view.seen (.map entries) = .map (Entries.mapValues view.seen entries) := by
  rw [seen, Entries.mapValues]

@[simp]
theorem seen_record (aggregate : Record Value) :
    view.seen (.record aggregate) = .record (view.record aggregate) := by
  rw [seen]
  rfl

theorem seen_ref (referent : Value) :
    view.seen (.ref referent) =
      if view.references then .ref (view.seen referent) else view.seen referent := by
  rw [seen]

theorem seen_nilRef : view.seen .nilRef = if view.references then .nilRef else .null := by
  rw [seen]

@[simp]
theorem seen_of_plain (hcontainer : value.kind.isContainer = false)
    (hreference : value.isReference = false) : view.seen value = value := by
  cases value with
  | list sequence => rw [Value.isContainer_list] at hcontainer; cases hcontainer
  | map | record => cases hcontainer
  | ref | nilRef => cases hreference
  | _ => rw [seen] <;> simp

/-! ## Fields -/

section Fields

variable {aggregate : Record Value}

theorem value_field {field : Field Value} (hexported : field.exported = true) :
    (view.field field).value = view.seen field.value := by
  simp [View.field, hexported]

theorem field?_record (name : String) :
    (view.record aggregate).field? name = (aggregate.field? name).map view.field :=
  Record.field?_map (f := view.field) (fun _ => rfl) aggregate name

/-- What is found under a name by paths is seen. -/
theorem get?_record (name : String) :
    (view.record aggregate).get? name = (aggregate.get? name).map view.seen := by
  rw [Record.get?, field?_record, Record.get?]
  cases aggregate.field? name with
  | none => rfl
  | some found =>
    cases hexported : found.exported with
    | true => simp [hexported, View.field]
    | false => simp [hexported, View.field]

theorem exportedFields_record :
    (view.record aggregate).exportedFields = aggregate.exportedFields.map view.field := by
  rw [Record.exportedFields, record, List.filter_map]
  rfl

end Fields

/-! ## Looking twice -/

/-- In what is seen, everything is seen. -/
@[simp]
theorem seen_seen (view : View) (value : Value) : view.seen (view.seen value) = view.seen value := by
  induction value using Value.induct with
  | list sequence ih =>
    simp only [seen_list, Sequence.map, Array.map_map, Value.list.injEq, Sequence.mk.injEq, true_and]
    exact Array.map_congr_left ih
  | map entries ih =>
    simp only [seen_map, Entries.mapValues, List.map_map, Value.map.injEq]
    exact List.map_congr_left fun entry hmem => congrArg (Prod.mk entry.1) (ih entry hmem)
  | record aggregate ih =>
    simp only [seen_record, record, List.map_map, Value.record.injEq, Record.mk.injEq, true_and]
    refine List.map_congr_left fun field hmem => ?_
    simp only [Function.comp_apply, View.field]
    split <;> simp [ih field hmem]
  | ref referent ih =>
    rw [seen_ref]
    cases hreferences : view.references <;> simp [seen_ref, hreferences, ih]
  | nilRef =>
    rw [seen_nilRef]
    cases hreferences : view.references <;> simp [seen, hreferences]
  | _ => simp [seen]

/-! ## References -/

/-- The end of the references that are seen is what is seen at their end. -/
theorem target_seen (view : View) (value : Value) :
    (view.seen value).target = view.seen value.target := by
  induction value using Value.induct with
  | ref referent ih =>
    rw [seen_ref, Value.target]
    cases view.references with
    | true => exact ih
    | false => exact ih
  | nilRef =>
    rw [Value.target.eq_def .nilRef]
    simp only [seen_nilRef]
    split <;> rfl
  | _ => simp [seen, Value.target]

theorem target_seen_of_target (hvalue : value.target = value) :
    (view.seen value).target = view.seen value := by
  rw [target_seen, hvalue]

/-- What is written at the end of references is seen there. -/
theorem seen_mapTarget (f : Value → Value) (value : Value) :
    view.seen (value.mapTarget f) =
      (view.seen value).mapTarget fun _ => view.seen (f value.target) := by
  have hend (value : Value) (hvalue : value.target = value) :
      view.seen (f value) = (view.seen value).mapTarget fun _ => view.seen (f value) := by
    rw [Value.mapTarget_of_target (target_seen_of_target hvalue)]
  induction value using Value.induct with
  | ref referent ih =>
    rw [Value.mapTarget, seen_ref, seen_ref, ih, Value.target]
    cases view.references <;> rfl
  | _ => exact hend _ rfl

/-- What is written at the end of references is seen alike if the values were, and what is written
is. -/
theorem seen_mapTarget_congr {other : Value} {f g : Value → Value}
    (hsame : view.seen value = view.seen other)
    (hwritten : view.seen (f value.target) = view.seen (g other.target)) :
    view.seen (value.mapTarget f) = view.seen (other.mapTarget g) := by
  rw [seen_mapTarget, seen_mapTarget, hsame, hwritten]

theorem target_of_isReference (hvalue : value.isReference = false) : value.target = value := by
  cases value <;> first | rfl | cases hvalue

/-- Whether there is a value is seen at the end of references, and everywhere if they are shown. -/
theorem isAbsent_seen (hvalue : view.references = true ∨ value.target = value) :
    (view.seen value).isAbsent = value.isAbsent := by
  cases value with
  | ref referent =>
    rcases hvalue with hreferences | htarget
    · rw [seen_ref, if_pos hreferences]
      rfl
    · exact absurd htarget (Value.target_ne_ref _ _)
  | nilRef =>
    rw [seen_nilRef]
    split <;> rfl
  | _ => simp [seen, Value.isAbsent]

/-- A container is seen as one, and nothing else is. -/
theorem isContainer_seen (hvalue : value.target = value) :
    (view.seen value).kind.isContainer = value.kind.isContainer := by
  cases value with
  | list sequence => rw [seen_list, Value.isContainer_list, Value.isContainer_list]
  | ref referent => exact absurd hvalue (Value.target_ne_ref _ _)
  | nilRef =>
    rw [seen_nilRef]
    split <;> rfl
  | _ => simp [seen, Value.kind]

/-- If references are shown, the kind of a value is. -/
theorem kind_seen (hreferences : view.references = true) (value : Value) :
    (view.seen value).kind = value.kind := by
  cases value with
  | ref referent => simp [seen_ref, hreferences, Value.kind]
  | nilRef => simp [seen_nilRef, hreferences]
  | list sequence =>
    rcases sequence with ⟨extent, items⟩
    rw [seen_list, Sequence.map]
    cases extent <;> rfl
  | _ => simp [seen, Value.kind]

/-! ## Children -/

/-- The child that a step leads to is seen. -/
theorem child?_seen (hvalue : value.target = value) (step : Step) :
    (view.seen value).child? step = (value.child? step).map view.seen := by
  cases value with
  | map entries =>
    rw [seen_map]
    cases step with
    | key name => exact Entries.get?_mapValues name
    | index position => rfl
  | record aggregate =>
    rw [seen_record]
    cases step with
    | key name => exact get?_record name
    | index position => rfl
  | list sequence =>
    rw [seen_list]
    cases step with
    | key name => rfl
    | index position => exact Sequence.get?_map position
  | ref referent => exact absurd hvalue (Value.target_ne_ref _ _)
  | nilRef =>
    rw [seen_nilRef]
    split <;> rfl
  | _ => simp [seen, Value.child?]

/-- The children of a value are seen, in order. -/
theorem children_seen (hvalue : value.target = value) :
    (view.seen value).children =
      value.children.map fun child => (child.1, view.seen child.2) := by
  cases value with
  | map entries => simp [Value.children, Entries.mapValues, Function.comp_def]
  | record aggregate =>
    rw [seen_record, Value.children, Value.children, exportedFields_record, List.map_map,
      List.map_map]
    refine List.map_congr_left fun field hmem => ?_
    simp only [Function.comp_apply, value_field (List.mem_filter.mp hmem).2]
    rfl
  | list sequence =>
    rw [seen_list, Value.children, Value.children, Sequence.map, Array.toList_map, List.zipIdx_map,
      List.map_map, List.map_map]
    rfl
  | ref referent => exact absurd hvalue (Value.target_ne_ref _ _)
  | nilRef =>
    rw [seen_nilRef]
    split <;> rfl
  | _ => simp [seen, Value.children]

/-- The places inside a value are seen, in order. -/
theorem places_seen (location : Location) (value : Value) :
    (view.seen value).places location =
      (value.places location).map fun place => (place.1, view.seen place.2) := by
  induction value using Value.induct_children generalizing location with
  | hstep value ih =>
    rw [Value.places_eq, Value.places_eq location value, target_seen,
      children_seen (Value.target_target value), List.flatMap_map, List.map_cons, List.map_flatMap]
    congr 1
    exact List.flatMap_congr fun child hmem => ih child hmem _

/-! ## Fields that are assigned -/

/-- What is seen of a record after an assignment: a field of what was seen of it has changed. -/
theorem record_setValue (aggregate : Record Value) (name : String) (child : Value) :
    view.record (aggregate.setValue name child) =
      (view.record aggregate).modifyField name fun field =>
        view.field { field with value := child } := by
  rcases aggregate with ⟨typeName, fields⟩
  simp only [record, Record.setValue, Record.modifyField, Record.mk.injEq, true_and]
  induction fields with
  | nil => rfl
  | cons head rest ih =>
    have hname : (view.field head).name = head.name := rfl
    rw [List.map_cons, Record.modifyField.go, Record.modifyField.go, hname]
    split
    · rfl
    · rw [List.map_cons, ih]

/-- Records that look alike still do when a field is assigned values that look alike, or one that is
covered any values. -/
theorem record_setValue_congr {aggregate other : Record Value} {name : String} {child next : Value}
    (hsame : view.record aggregate = view.record other)
    (hchild : ∀ field, aggregate.field? name = some field →
      (field.exported || view.hiddenFields) = true → view.seen child = view.seen next) :
    view.record (aggregate.setValue name child) = view.record (other.setValue name next) := by
  rw [record_setValue, record_setValue, ← hsame]
  refine Record.modifyField_congr fun field hfield => ?_
  rw [field?_record] at hfield
  obtain ⟨old, hold, rfl⟩ := Option.map_eq_some_iff.mp hfield
  cases hshown : old.exported || view.hiddenFields with
  | true => simp [View.field, hshown, hchild old hold hshown]
  | false => simp [View.field, hshown]

/-- Records that look alike still do when the value of a field is changed alike, if it is seen. -/
theorem record_setValue_alike {aggregate other : Record Value} {name : String}
    {field next : Field Value} {child renewed : Value}
    (hsame : view.record aggregate = view.record other) (hfield : aggregate.field? name = some field)
    (hlook : view.field field = view.field next)
    (hchild : view.seen field.value = view.seen next.value → view.seen child = view.seen renewed) :
    view.record (aggregate.setValue name child) = view.record (other.setValue name renewed) := by
  refine record_setValue_congr hsame fun shown hshown hseen => ?_
  obtain rfl := Option.some.inj (hfield.symm.trans hshown)
  obtain ⟨-, hvalue, hexported, -⟩ := Field.mk.inj hlook
  rw [← hexported, if_pos hseen, if_pos hseen] at hvalue
  exact hchild hvalue

/-! ## Emptying in place -/

/-- If references are shown, what is emptied in place looks as if what is seen of it had been. -/
theorem zeroed_seen (hreferences : view.references = true) (value : Value) :
    (view.seen value).zeroed = view.seen value.zeroed := by
  induction value using Value.induct with
  | list sequence ih =>
    rcases sequence with ⟨extent, items⟩
    rw [seen_list, Sequence.map]
    cases extent with
    | growable => simp [Value.zeroed, Sequence.map, Sequence.growable]
    | fixed =>
      simp only [Value.zeroed, seen_list, Sequence.map, Sequence.fixed, Array.map_map,
        Value.list.injEq, Sequence.mk.injEq, true_and]
      exact Array.map_congr_left ih
  | map entries ih => simp [Value.zeroed, Entries.mapValues]
  | record aggregate ih =>
    simp only [seen_record, record, Value.zeroed, List.map_map, Value.record.injEq,
      Record.mk.injEq, true_and]
    refine List.map_congr_left fun field hmem => ?_
    simp only [Function.comp_apply, View.field, Field.mk.injEq, true_and, and_true]
    split
    · exact ih field hmem
    · rw [Value.zeroed]
  | ref referent ih => simp [seen_ref, seen_nilRef, hreferences, Value.zeroed]
  | nilRef => simp [seen_nilRef, hreferences, Value.zeroed]
  | _ => simp [seen, Value.zeroed]

/-! ## Texts -/

/-- If references are shown, the text of a value is. -/
theorem display_seen (hreferences : view.references = true) (value : Value) :
    (view.seen value).display = value.display := by
  induction value using Value.induct with
  | list sequence ih =>
    rw [seen_list, Value.display, Value.display, Sequence.map, Array.map_map]
    congr 4
    exact Array.map_congr_left ih
  | map entries ih =>
    rw [seen_map, Value.display, Value.display, Entries.mapValues, List.map_map]
    congr 3
    exact List.map_congr_left fun entry hmem => by rw [Function.comp_apply, ih entry hmem]
  | record aggregate ih =>
    rw [seen_record, Value.display, Value.display, ← Record.exportedFields, ← Record.exportedFields,
      exportedFields_record, List.map_map]
    congr 3
    refine List.map_congr_left fun field hmem => ?_
    obtain ⟨hfield, hexported⟩ := List.mem_filter.mp hmem
    rw [Function.comp_apply, value_field hexported, ih field hfield]
    rfl
  | ref referent ih => rw [seen_ref, if_pos hreferences, Value.display, Value.display, ih]
  | nilRef => rw [seen_nilRef, if_pos hreferences]
  | _ => simp [seen]

/-- If references are shown, the text of a value in a message is. -/
theorem snapshot_seen (hreferences : view.references = true) (value : Value) :
    (view.seen value).snapshot = value.snapshot := by
  have htypeName : (view.seen value).typeName = value.typeName := by
    have hkind := kind_seen hreferences value
    cases value with
    | record aggregate => simp [Value.typeName, record]
    | ref referent => simp [Value.typeName, seen_ref, hreferences, Value.kind]
    | nilRef => simp [seen_nilRef, hreferences]
    | list sequence =>
      rw [seen_list] at hkind ⊢
      exact congrArg Kind.name hkind
    | _ => simp [seen, Value.typeName, Value.kind]
  simp only [Value.snapshot, htypeName, display_seen hreferences]

/-- The tree of a value does not depend on the view. -/
theorem toTree_seen (view : View) (value : Value) : (view.seen value).toTree = value.toTree := by
  induction value using Value.induct with
  | list sequence ih =>
    rw [seen_list, Value.toTree, Value.toTree, Sequence.map, Array.map_map]
    congr 1
    exact Array.map_congr_left ih
  | map entries ih =>
    rw [seen_map, Value.toTree, Value.toTree, Entries.mapValues, List.map_map]
    congr 2
    exact List.map_congr_left fun entry hmem => by rw [Function.comp_apply, ih entry hmem]
  | record aggregate ih =>
    rw [seen_record, Value.toTree, Value.toTree, ← Record.exportedFields, ← Record.exportedFields,
      exportedFields_record, List.map_map]
    congr 2
    refine List.map_congr_left fun field hmem => ?_
    obtain ⟨hfield, hexported⟩ := List.mem_filter.mp hmem
    rw [Function.comp_apply, value_field hexported, ih field hfield]
    rfl
  | ref referent ih =>
    rw [seen_ref, Value.toTree, ← ih]
    split
    · rw [Value.toTree]
    · rfl
  | nilRef =>
    rw [seen_nilRef]
    split <;> simp [Value.toTree]
  | _ => simp [seen]

/-! ## Values that are seen alike -/

section Alike

variable {other : Value}

/-- Two values, neither of which refers to another one, that are seen alike. -/
structure Same (view : View) (value other : Value) : Prop where
  /-- They are seen alike. -/
  seen : view.seen value = view.seen other
  /-- The first is no reference to another value. -/
  target : value.target = value
  /-- Nor is the second. -/
  other_target : other.target = other

theorem same_target (hsame : view.seen value = view.seen other) :
    view.Same value.target other.target where
  seen := by rw [← target_seen, ← target_seen, hsame]
  target := Value.target_target value
  other_target := Value.target_target other

/-- Results that look the same are related if there are any. -/
theorem rel_of_map_eq {α β : Type} {f : α → β} {found next : Option α}
    (hsame : found.map f = next.map f) : Option.Rel (fun left right => f left = f right) found next := by
  cases found with
  | none =>
    cases next with
    | none => exact .none
    | some _ => cases hsame
  | some _ =>
    cases next with
    | none => cases hsame
    | some _ => exact .some (Option.some.inj hsame)

theorem Same.child (hsame : view.Same value other) (step : Step) :
    Option.Rel (fun child next => view.seen child = view.seen next) (value.child? step)
      (other.child? step) :=
  rel_of_map_eq (by rw [← child?_seen hsame.target, ← child?_seen hsame.other_target, hsame.seen])

theorem field?_rel {aggregate other : Record Value} (hsame : view.record aggregate = view.record other)
    (name : String) :
    Option.Rel (fun field next => view.field field = view.field next) (aggregate.field? name)
      (other.field? name) :=
  rel_of_map_eq (by rw [← field?_record, hsame, field?_record])

/-- Two values that are found at the same place and seen alike. -/
def SameAt {κ : Type} (view : View) (found other : κ × Value) : Prop :=
  found.1 = other.1 ∧ view.seen found.2 = view.seen other.2

theorem forall₂_sameAt {κ : Type} {found others : List (κ × Value)}
    (hsame : found.map (fun place => (place.1, view.seen place.2)) =
      others.map fun place => (place.1, view.seen place.2)) :
    List.Forall₂ view.SameAt found others := by
  rw [← List.forall₂_eq_eq_eq, List.forall₂_map_left_iff, List.forall₂_map_right_iff] at hsame
  exact hsame.imp fun _ _ heq => Prod.mk.inj heq

theorem Same.children (hsame : view.Same value other) :
    List.Forall₂ view.SameAt value.children other.children :=
  forall₂_sameAt (by
    rw [← children_seen hsame.target, ← children_seen hsame.other_target, hsame.seen])

theorem places_alike (hsame : view.seen value = view.seen other) (location : Location) :
    List.Forall₂ view.SameAt (value.places location) (other.places location) :=
  forall₂_sameAt (by rw [← places_seen, ← places_seen, hsame])

/-- Two values that are seen alike are containers of one sort in which the same is seen, or neither is
a container. -/
inductive Paired (view : View) : Value → Value → Prop
  /-- Both are maps. -/
  | map {entries others : Entries Value}
      (hsame : Entries.mapValues view.seen entries = Entries.mapValues view.seen others) :
      Paired view (.map entries) (.map others)
  /-- Both are records. -/
  | record {aggregate other : Record Value} (hsame : view.record aggregate = view.record other) :
      Paired view (.record aggregate) (.record other)
  /-- Both are lists. -/
  | list {sequence other : Sequence Value} (hsame : sequence.map view.seen = other.map view.seen) :
      Paired view (.list sequence) (.list other)
  /-- Neither is a container. -/
  | leaf {value other : Value} (hvalue : value.kind.isContainer = false)
      (hother : other.kind.isContainer = false) : Paired view value other

/-- Values that are seen alike are of one sort. -/
theorem Same.paired (hsame : view.Same value other) : view.Paired value other := by
  obtain ⟨hseen, htarget, hother⟩ := hsame
  have hcontainer : value.kind.isContainer = other.kind.isContainer := by
    rw [← isContainer_seen htarget, hseen, isContainer_seen hother]
  cases hvalue : value.kind.isContainer with
  | false => exact .leaf hvalue (hcontainer.symm.trans hvalue)
  | true =>
    rw [hvalue] at hcontainer
    cases value with
    | map entries =>
      cases other with
      | map others => exact .map (by simpa using hseen)
      | record | list => simp at hseen
      | _ => cases hcontainer
    | record aggregate =>
      cases other with
      | record others => exact .record (by simpa using hseen)
      | map | list => simp at hseen
      | _ => cases hcontainer
    | list sequence =>
      cases other with
      | list others => exact .list (by simpa using hseen)
      | map | record => simp at hseen
      | _ => cases hcontainer
    | _ => cases hvalue

end Alike

end View

end NestedData
