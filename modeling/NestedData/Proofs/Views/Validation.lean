import NestedData.Proofs.Outcome
import NestedData.Proofs.Schema.Acceptance
import NestedData.Proofs.Views.Basic
import NestedData.Schema.Validation

/-!
# Validation in a view

A schema that checks values by the rules for their shapes never looks into a field that paths do not
see.  In a view that shows references, it finds in what is seen of a value the same fault as in the
value, if any, and words it in the same way.

Main results:

- `View.message_misfit`: the message about a fault does not depend on the view.
- `Node.validateWith_seen`, `Schema.validate_seen`: what is seen of a value is checked as the value is.
-/

namespace NestedData

open Outcome

namespace View

variable {view : View}

/-- What is seen of what is wrong between a value and a schema. -/
def schemaFault (view : View) : SchemaFault → SchemaFault
  | .unconvertible value why => .unconvertible (view.seen value) why
  | .undecodable value detail => .undecodable (view.seen value) detail
  | .invalid value why => .invalid (view.seen value) why
  | .validatorRefused value why => .validatorRefused (view.seen value) why
  | .converterRefused why => .converterRefused why
  | .absent why => .absent why

/-- What is seen of a fault between a value and a schema. -/
def misfit (view : View) (error : SchemaError) : SchemaError :=
  { error with fault := view.schemaFault error.fault }

/-- If references are shown, what is seen of a fault has its message. -/
theorem message_misfit (hreferences : view.references = true) (error : SchemaError) :
    (view.misfit error).message = error.message := by
  rcases error with ⟨path, schema, fault⟩
  cases fault <;>
    simp [misfit, schemaFault, SchemaError.message, SchemaError.operation, snapshot_seen hreferences]

/-- A check that goes by what is seen: of what is seen of a value it says what it says of the value. -/
def Guides (view : View) (check : Check) : Prop :=
  ∀ location value,
    check location (view.seen value) = (check location value).mapError view.misfit

end View

namespace Node

variable {view : View} {node : Node Schema} {checkPart : node.EachPart Check}

theorem pardon_mapError (f : SchemaError → SchemaError) (outcome : Except SchemaError Unit) :
    node.pardon (outcome.mapError f) = (node.pardon outcome).mapError f := by
  cases outcome with
  | ok done => rfl
  | error fault =>
    simp only [Except.mapError, pardon]
    split <;> rfl

theorem seen_readKey (schema : Schema) (key : String) :
    view.seen (schema.readKey key) = schema.readKey key := by
  obtain ⟨kind, hread⟩ := schema.exists_readKey_eq key
  rw [hread]
  rcases kind.readKey_cases key with hvalue | ⟨_, _, hvalue⟩ | ⟨_, _, hvalue⟩ | ⟨_, _, hvalue⟩ <;>
    rw [hvalue, View.seen_of_plain rfl rfl]

section Parts

variable (hparts : ∀ part mem, view.Guides (checkPart part mem))

include hparts

theorem pardon_seen {part : Schema} (hmem : part ∈ node.parts) (location : Location) (value : Value) :
    node.pardon (checkPart part hmem location (view.seen value)) =
      (node.pardon (checkPart part hmem location value)).mapError view.misfit := by
  rw [hparts, pardon_mapError]

/-- What is seen of the fields of a record is checked as the fields are. -/
theorem checkFields_seen (location : Location) (aggregate : Record Value) :
    (do
      (view.record aggregate).exportedFields.forM fun field =>
        match found : node.child? field.name with
        | some part => node.pardon (checkPart part (mem_parts_of_child? found)
            (location.child (.key field.name)) field.value)
        | none => node.violation location (view.seen (.record aggregate)) (.undeclaredField field.name)
      match node.children.find? fun child : String × Schema =>
        ((view.record aggregate).get? child.1).isNone with
      | some child => node.violation location (view.seen (.record aggregate)) (.missingField child.1)
      | none => .ok ()) =
    Except.mapError view.misfit (do
      aggregate.exportedFields.forM fun field =>
        match found : node.child? field.name with
        | some part => node.pardon (checkPart part (mem_parts_of_child? found)
            (location.child (.key field.name)) field.value)
        | none => node.violation location (.record aggregate) (.undeclaredField field.name)
      match node.children.find? fun child : String × Schema =>
        (aggregate.get? child.1).isNone with
      | some child => node.violation location (.record aggregate) (.missingField child.1)
      | none => .ok ()) := by
  have hpart (name : String) (value : Value) :
      (match found : node.child? name with
        | some part => node.pardon (checkPart part (mem_parts_of_child? found)
            (location.child (.key name)) (view.seen value))
        | none => node.violation location (view.seen (.record aggregate)) (.undeclaredField name)) =
      Except.mapError view.misfit (match found : node.child? name with
        | some part => node.pardon (checkPart part (mem_parts_of_child? found)
            (location.child (.key name)) value)
        | none => node.violation location (.record aggregate) (.undeclaredField name)) := by
    split
    · exact pardon_seen hparts _ _ _
    · rfl
  rw [mapError_bind, View.exportedFields_record]
  congr 1
  · refine forM_map_eq_mapError fun field hmem => ?_
    rw [View.value_field (List.mem_filter.mp hmem).2]
    exact hpart field.name field.value
  · funext _
    simp only [View.get?_record, Option.isNone_map]
    split <;> rfl

/-- What is seen of a record is checked as the record is. -/
theorem checkRecord_seen (location : Location) (aggregate : Record Value) :
    node.checkRecord checkPart location (view.record aggregate) =
      (node.checkRecord checkPart location aggregate).mapError view.misfit := by
  have hfields := checkFields_seen hparts location aggregate
  have hname : (view.record aggregate).name = aggregate.name := rfl
  rw [View.seen_record] at hfields
  unfold checkRecord
  simp only
  cases node.typeName with
  | none => exact hfields
  | some expected =>
    by_cases hsame : aggregate.name = expected
    · simp only [hname, hsame, ne_eq, not_true_eq_false, if_false]
      exact hfields
    · simp only [hname, hsame, ne_eq, not_false_eq_true, if_true]
      rw [← View.seen_record]
      rfl

/-- What is seen of an entry of a map is checked as the entry is. -/
theorem checkEntry_seen (location : Location) (entries : Entries Value) (entry : String × Value) :
    node.checkEntry checkPart location (Entries.mapValues view.seen entries)
        (entry.1, view.seen entry.2) =
      (node.checkEntry checkPart location entries entry).mapError view.misfit := by
  unfold checkEntry
  simp only
  split
  · exact pardon_seen hparts _ _ _
  · split
    · rename_i schemas hschemas
      rw [mapError_bind, ← pardon_seen hparts (mem_parts_of_key hschemas), seen_readKey]
      congr 1
      funext _
      exact pardon_seen hparts _ _ _
    · split
      · rfl
      · rw [← View.seen_map]
        rfl

/-- What is seen of the items of a list is checked as they are. -/
theorem checkItems_seen (location : Location) (sequence : Sequence Value) :
    ((sequence.map view.seen).items.toList.zipIdx.forM fun (item, position) =>
      match found : node.elementAt? position with
      | some part => node.pardon (checkPart part (mem_parts_of_elementAt? found)
          (location.child (.index position)) item)
      | none => .ok ()) =
      (sequence.items.toList.zipIdx.forM fun (item, position) =>
        match found : node.elementAt? position with
        | some part => node.pardon (checkPart part (mem_parts_of_elementAt? found)
            (location.child (.index position)) item)
        | none => .ok ()).mapError view.misfit := by
  have hitem (item : Value) (position : Nat) :
      (match found : node.elementAt? position with
        | some part => node.pardon (checkPart part (mem_parts_of_elementAt? found)
            (location.child (.index position)) (view.seen item))
        | none => .ok ()) =
      Except.mapError view.misfit (match found : node.elementAt? position with
        | some part => node.pardon (checkPart part (mem_parts_of_elementAt? found)
            (location.child (.index position)) item)
        | none => .ok ()) := by
    split
    · exact pardon_seen hparts _ _ _
    · rfl
  rw [Sequence.map, Array.toList_map, List.zipIdx_map]
  exact forM_map_eq_mapError fun slot _ => hitem slot.1 slot.2

/-- What is seen of a list is checked as the list is. -/
theorem checkList_seen (location : Location) (sequence : Sequence Value) :
    node.checkList checkPart location (sequence.map view.seen) =
      (node.checkList checkPart location sequence).mapError view.misfit := by
  have hitems := checkItems_seen hparts location sequence
  unfold checkList
  simp only
  cases node.length? with
  | none => exact hitems
  | some length =>
    by_cases hsame : sequence.size = length
    · simp only [Sequence.size_map, hsame, ne_eq, not_true_eq_false, if_false]
      exact hitems
    · simp only [Sequence.size_map, hsame, ne_eq, not_false_eq_true, if_true]
      rw [← View.seen_list]
      rfl

/-- What is seen of the children of a value is checked as they are. -/
theorem checkChildren_seen (hreferences : view.references = true) :
    view.Guides (node.checkChildren checkPart) := by
  intro location value
  cases value with
  | record aggregate =>
    rw [View.seen_record]
    exact checkRecord_seen hparts location aggregate
  | map entries =>
    rw [View.seen_map]
    exact forM_map_eq_mapError fun entry _ => checkEntry_seen hparts location entries entry
  | list sequence =>
    rw [View.seen_list]
    exact checkList_seen hparts location sequence
  | ref referent =>
    rw [View.seen_ref, if_pos hreferences, checkChildren, checkChildren]
    split
    · exact pardon_seen hparts _ _ _
    · rfl
  | nilRef =>
    rw [View.seen_nilRef, if_pos hreferences]
    rfl
  | _ =>
    rw [View.seen_of_plain rfl rfl]
    rfl

/-- What is seen of a value is checked against a node without a rule of its own as the value is. -/
theorem validateWith_seen (hreferences : view.references = true) (hvalidator : node.validator? = none) :
    view.Guides (node.validateWith checkPart) := by
  intro location value
  unfold validateWith
  simp only [hvalidator, View.isAbsent_seen (.inl hreferences), View.kind_seen hreferences]
  split
  · rfl
  · split
    · exact checkChildren_seen hparts hreferences location value
    · rfl

end Parts

end Node

namespace Schema

variable {view : View} {schema : Schema}

/-- A schema that checks values by the rules for the shapes. -/
def WithoutValidators : Schema → Prop :=
  Everywhere (fun node => node.validator? = none) fun _ => True

/-- If references are shown, what is seen of a value is checked as the value is. -/
theorem validate_seen (hreferences : view.references = true) (hschema : schema.WithoutValidators) :
    view.Guides schema.validate := by
  induction hschema with
  | @single node hvalidator _ ih =>
    rw [validate_single]
    exact Node.validateWith_seen (fun part mem => ih part mem) hreferences hvalidator
  | @choice union _ _ ih =>
    intro location value
    have hfirst : (union.firstFit? fun alternative _ =>
          (Schema.single alternative.2).validate location (view.seen value)) =
        union.firstFit? fun alternative _ =>
          (Schema.single alternative.2).validate location value := by
      unfold NodeUnion.firstFit?
      congr 1
      funext alternative
      dsimp only
      rw [ih alternative.1 (NodeUnion.mem_of_mem_ordered alternative.2)]
      cases (Schema.single alternative.1.2).validate location value <;> rfl
    rw [validate_choice, validate_choice, NodeUnion.validate, NodeUnion.validate, hfirst]
    split <;> rfl

/-- If references are shown, values that are seen alike are valid alike, or not valid for the same
reason. -/
theorem validate_alike (hreferences : view.references = true) (hschema : schema.WithoutValidators)
    {value other : Value} (hsame : view.seen value = view.seen other) (location : Location) :
    Agree (fun error fault => error.path = fault.path ∧ error.message = fault.message) Eq
      (schema.validate location value) (schema.validate location other) := by
  have hguides := validate_seen hreferences hschema
  refine (agree_of_mapError (f := view.misfit) ?_).imp (fun error fault hfault => ?_) fun _ _ heq => heq
  · rw [← hguides, hsame, hguides]
  · refine ⟨(SchemaError.mk.inj hfault).1, ?_⟩
    rw [← View.message_misfit hreferences, hfault, View.message_misfit hreferences]

end Schema

end NestedData
