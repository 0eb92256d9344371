import NestedData.Proofs.Outcome
import NestedData.Proofs.Value.WellFormed
import NestedData.Schema.Validation

/-!
# What validation accepts

This module says without places and messages which values a schema accepts: what is
asked of a value is asked of its children by the parts of the node.  Whether a value
is valid does not depend on the place it is checked at.

Main results:

- `Node.validateWith_eq_ok_iff`: a node accepts what `Node.Admits` says.
- `Schema.validate_eq_ok_iff`: a value is valid at every place or at none.
- `Schema.isValid_single_iff`, `Schema.isValid_choice_iff`: what a node and what a
  union accept.
-/

namespace NestedData

namespace Node

variable (node : Node Schema) (accepts : Schema → Value → Prop)

/-! ## What a node asks for -/

/-- A child is accepted, or the node puts up with whatever it is. -/
def AdmitsChild (part : Schema) (child : Value) : Prop :=
  node.nilable = true ∨ accepts part child

/-- What a node asks of a record: the type name, no field that is not declared, and every
declared one. -/
structure AdmitsRecord (aggregate : Record Value) : Prop where
  /-- The type has the expected name. -/
  name : ∀ expected, node.typeName = some expected → aggregate.name = expected
  /-- Every field that paths see is declared and fits. -/
  fields : ∀ field ∈ aggregate.exportedFields, ∃ part, node.child? field.name = some part ∧
    node.AdmitsChild accepts part field.value
  /-- Every declared field is there. -/
  complete : ∀ child ∈ node.children, (aggregate.get? child.1).isSome = true

/-- What a node asks of an entry of a map. -/
def AdmitsEntry (key : String) (value : Value) : Prop :=
  match node.child? key with
  | some part => node.AdmitsChild accepts part value
  | none =>
    match node.entries? with
    | some schemas =>
      node.AdmitsChild accepts schemas.1 (schemas.1.readKey key) ∧
        node.AdmitsChild accepts schemas.2 value
    | none => node.children = []

/-- What a node asks of a list: the length, and that every element fits its position. -/
structure AdmitsList (sequence : Sequence Value) : Prop where
  /-- The list has the expected length. -/
  length : ∀ length, node.length? = some length → sequence.size = length
  /-- Every element fits. -/
  items : ∀ position item, sequence.items[position]? = some item →
    ∀ part, node.elementAt? position = some part → node.AdmitsChild accepts part item

/-- What a node asks of the children of a value. -/
def AdmitsChildren : Value → Prop
  | .record aggregate => node.AdmitsRecord accepts aggregate
  | .map entries => ∀ entry ∈ entries, node.AdmitsEntry accepts entry.1 entry.2
  | .list sequence => node.AdmitsList accepts sequence
  | .ref referent =>
    ∀ part, node.pointee? = some part → node.AdmitsChild accepts part referent
  | _ => True

/-- What a node asks of a value, given what its parts accept. -/
def Admits (value : Value) : Prop :=
  match node.validator? with
  | some validator => validator value = .ok ()
  | none => node.kind = .any ∨ (node.nilable = true ∧ value.isAbsent = true) ∨
      (value.kind = node.kind ∧ node.AdmitsChildren accepts value)

variable {node accepts}

theorem admits_of_any {value : Value} (hvalidator : node.validator? = none)
    (hany : node.kind = .any) : node.Admits accepts value := by
  rw [Admits, hvalidator]
  exact Or.inl hany

theorem admits_of_kind {value : Value} (hvalidator : node.validator? = none)
    (hkind : value.kind = node.kind) (hchildren : node.AdmitsChildren accepts value) :
    node.Admits accepts value := by
  rw [Admits, hvalidator]
  exact Or.inr (Or.inr ⟨hkind, hchildren⟩)

theorem shape_eq_record (hkind : node.kind = .record) : node.shape = .record := by
  unfold kind at hkind
  cases hshape : node.shape <;> simp_all [Shape.kind]

theorem length?_of_kind (hkind : node.kind ≠ .array) : node.length? = none := by
  unfold kind at hkind
  unfold length?
  split
  · rename_i hshape
    simp [hshape, Shape.kind] at hkind
  · rfl

/-! ## What the checks accept -/

variable {checkPart : node.EachPart Check}

theorem pardon_eq_ok_iff {outcome : Except SchemaError Unit} :
    node.pardon outcome = .ok () ↔ node.nilable = true ∨ outcome = .ok () := by
  cases outcome with
  | ok done => simp [pardon]
  | error fault => simp [pardon]

theorem violation_ne_ok {location : Location} {value : Value} {why : Violation} :
    node.violation location value why ≠ .ok () := by
  simp [violation]

variable (hpart : ∀ part mem location value,
  checkPart part mem location value = .ok () ↔ accepts part value)

include hpart

theorem pardon_checkPart_iff {part : Schema} {mem : part ∈ node.parts} {location : Location}
    {value : Value} : node.pardon (checkPart part mem location value) = .ok () ↔
      node.AdmitsChild accepts part value := by
  rw [pardon_eq_ok_iff, hpart, AdmitsChild]

/-- The fields of a record pass the check exactly when each is declared and admitted and
none is missing. -/
theorem checkFields_eq_ok_iff (location : Location) (aggregate : Record Value) :
    (do
      aggregate.exportedFields.forM fun field =>
        match found : node.child? field.name with
        | some part => node.pardon (checkPart part (mem_parts_of_child? found)
            (location.child (.key field.name)) field.value)
        | none => node.violation location (.record aggregate) (.undeclaredField field.name)
      match node.children.find? fun child : String × Schema =>
        (aggregate.get? child.1).isNone with
      | some child => node.violation location (.record aggregate) (.missingField child.1)
      | none => .ok ()) = .ok () ↔
      (∀ field ∈ aggregate.exportedFields, ∃ part, node.child? field.name = some part ∧
        node.AdmitsChild accepts part field.value) ∧
      ∀ child ∈ node.children, (aggregate.get? child.1).isSome = true := by
  rw [Outcome.both_eq_ok_iff, Outcome.forM_eq_ok_iff]
  refine and_congr (forall₂_congr fun field _ => ?_) ?_
  · split
    · rename_i part hfound
      rw [pardon_checkPart_iff hpart]
      simp [hfound]
    · rename_i hmissing
      simp [violation_ne_ok, hmissing]
  · split
    · rename_i child hfound
      have hmem := List.mem_of_find?_eq_some hfound
      have hnone := List.find?_some hfound
      simp only [violation_ne_ok, false_iff]
      intro hall
      have hthere := hall child hmem
      simp_all
    · rename_i hnone
      rw [List.find?_eq_none] at hnone
      simp only [true_iff]
      intro child hmem
      simpa [Option.isSome_iff_ne_none] using hnone child hmem

/-- Records pass the check exactly when they are admitted. -/
theorem checkRecord_eq_ok_iff {location : Location} {aggregate : Record Value} :
    node.checkRecord checkPart location aggregate = .ok () ↔
      node.AdmitsRecord accepts aggregate := by
  have hfields := checkFields_eq_ok_iff hpart location aggregate
  unfold checkRecord
  simp only
  cases hexpected : node.typeName with
  | none =>
    refine hfields.trans ?_
    constructor
    · rintro ⟨hdeclared, hcomplete⟩
      exact ⟨by simp [hexpected], hdeclared, hcomplete⟩
    · intro hadmits
      exact ⟨hadmits.fields, hadmits.complete⟩
  | some expected =>
    by_cases hsame : aggregate.name = expected
    · simp only [hsame, ne_eq, not_true_eq_false, if_false]
      refine hfields.trans ?_
      constructor
      · rintro ⟨hdeclared, hcomplete⟩
        exact ⟨by simp [hexpected, hsame], hdeclared, hcomplete⟩
      · intro hadmits
        exact ⟨hadmits.fields, hadmits.complete⟩
    · simp only [hsame, ne_eq, not_false_eq_true, if_true]
      rw [Outcome.both_eq_ok_iff]
      constructor
      · rintro ⟨hviolation, _⟩
        exact absurd hviolation violation_ne_ok
      · intro hadmits
        exact absurd (hadmits.name expected hexpected) hsame

/-- Entries pass the check exactly when they are admitted. -/
theorem checkEntry_eq_ok_iff {location : Location} {entries : Entries Value}
    {entry : String × Value} :
    node.checkEntry checkPart location entries entry = .ok () ↔
      node.AdmitsEntry accepts entry.1 entry.2 := by
  unfold checkEntry AdmitsEntry
  simp only
  split
  · rename_i part hfound
    simp only [hfound]
    exact pardon_checkPart_iff hpart
  · rename_i hmissing
    simp only [hmissing]
    split
    · rename_i schemas hschemas
      simp only [hschemas]
      rw [Outcome.both_eq_ok_iff]
      exact and_congr (pardon_checkPart_iff hpart) (pardon_checkPart_iff hpart)
    · rename_i hschemas
      simp only [hschemas]
      cases node.children with
      | nil => simp
      | cons child rest => simp [violation_ne_ok]

/-- The elements of a list pass the check exactly when they are admitted at their
positions. -/
theorem checkItems_eq_ok_iff (location : Location) (sequence : Sequence Value) :
    (sequence.items.toList.zipIdx.forM fun (item, position) =>
      match found : node.elementAt? position with
      | some part => node.pardon (checkPart part (mem_parts_of_elementAt? found)
          (location.child (.index position)) item)
      | none => .ok ()) = .ok () ↔
      ∀ position item, sequence.items[position]? = some item →
        ∀ part, node.elementAt? position = some part → node.AdmitsChild accepts part item := by
  have hitem (item : Value) (position : Nat) :
      (match found : node.elementAt? position with
        | some part => node.pardon (checkPart part (mem_parts_of_elementAt? found)
            (location.child (.index position)) item)
        | none => .ok ()) = .ok () ↔
        ∀ part, node.elementAt? position = some part → node.AdmitsChild accepts part item := by
    split
    · rename_i part hfound
      rw [pardon_checkPart_iff hpart]
      simp [hfound]
    · rename_i hmissing
      simp [hmissing]
  rw [Outcome.forM_eq_ok_iff]
  constructor
  · intro hitems position item hfound
    have hmem : (item, position) ∈ sequence.items.toList.zipIdx :=
      List.mk_mem_zipIdx_iff_getElem?.mpr (by simpa using hfound)
    exact (hitem item position).mp (hitems (item, position) hmem)
  · intro hitems entry hmem
    have hfound := List.mk_mem_zipIdx_iff_getElem?.mp hmem
    exact (hitem entry.1 entry.2).mpr (hitems entry.2 entry.1 (by simpa using hfound))

/-- Lists pass the check exactly when they are admitted. -/
theorem checkList_eq_ok_iff {location : Location} {sequence : Sequence Value} :
    node.checkList checkPart location sequence = .ok () ↔ node.AdmitsList accepts sequence := by
  have hitems := checkItems_eq_ok_iff hpart location sequence
  unfold checkList
  simp only
  cases hexpected : node.length? with
  | none =>
    refine hitems.trans ?_
    constructor
    · intro hfits
      exact ⟨by simp [hexpected], hfits⟩
    · exact AdmitsList.items
  | some length =>
    by_cases hsame : sequence.size = length
    · simp only [hsame, ne_eq, not_true_eq_false, if_false]
      refine hitems.trans ?_
      constructor
      · intro hfits
        exact ⟨by simp [hexpected, hsame], hfits⟩
      · exact AdmitsList.items
    · simp only [hsame, ne_eq, not_false_eq_true, if_true]
      rw [Outcome.both_eq_ok_iff]
      constructor
      · rintro ⟨hviolation, _⟩
        exact absurd hviolation violation_ne_ok
      · intro hadmits
        exact absurd (hadmits.length length hexpected) hsame

/-- The children of a value pass the check exactly when they are admitted. -/
theorem checkChildren_eq_ok_iff {location : Location} {value : Value} :
    node.checkChildren checkPart location value = .ok () ↔ node.AdmitsChildren accepts value := by
  cases value with
  | record aggregate => exact checkRecord_eq_ok_iff hpart
  | map entries =>
    rw [checkChildren, AdmitsChildren, Outcome.forM_eq_ok_iff]
    exact forall₂_congr fun entry _ => checkEntry_eq_ok_iff hpart
  | list sequence => exact checkList_eq_ok_iff hpart
  | ref referent =>
    rw [checkChildren, AdmitsChildren]
    split
    · rename_i part hfound
      rw [pardon_checkPart_iff hpart]
      simp [hfound]
    · rename_i hmissing
      simp [hmissing]
  | _ => simp [checkChildren, AdmitsChildren]

/-- A value passes the check exactly when it is admitted. -/
theorem validateWith_eq_ok_iff {location : Location} {value : Value} :
    node.validateWith checkPart location value = .ok () ↔ node.Admits accepts value := by
  unfold validateWith Admits
  cases hvalidator : node.validator? with
  | some validator =>
    simp only
    cases validator value <;> simp
  | none =>
    simp only
    by_cases hany : node.kind = .any
    · simp [hany]
    · by_cases hforgiven : node.nilable = true ∧ value.isAbsent = true
      · simp [hforgiven]
      · by_cases hkind : value.kind = node.kind
        · simp [hany, hforgiven, hkind, checkChildren_eq_ok_iff hpart]
        · simp [hany, hforgiven, hkind, violation_ne_ok]

end Node

namespace Schema

/-! ## Validity -/

theorem isValid_iff {schema : Schema} {value : Value} :
    schema.isValid value = true ↔ schema.validate [] value = .ok () := by
  unfold isValid
  cases schema.validate [] value <;> simp [Except.isOk, Except.toBool]

/-- A union passes a value exactly when one of the alternatives that are tried does. -/
theorem validate_choice_eq_ok_iff {union : NodeUnion Schema} {location : Location}
    {value : Value} : (Schema.choice union).validate location value = .ok () ↔
      ∃ alternative ∈ union.ordered,
        (Schema.single alternative.2).validate location value = .ok () := by
  rw [validate]
  simp only
  split
  · rename_i fit hfit
    rcases NodeUnion.exists_of_firstFit? hfit with ⟨node, hmem, hvalid⟩
    simp only [true_iff]
    exact ⟨(fit.1, node), hmem, hvalid⟩
  · rename_i hnone
    rw [NodeUnion.firstFit?_eq_none_iff] at hnone
    simp only [reduceCtorEq, false_iff]
    rintro ⟨alternative, hmem, hvalid⟩
    rcases hnone alternative hmem with ⟨fault, hfault⟩
    rw [hvalid] at hfault
    cases hfault

/-- A value is valid at every place or at none. -/
theorem validate_eq_ok_iff (schema : Schema) :
    ∀ location value, schema.validate location value = .ok () ↔ schema.isValid value = true := by
  induction schema using Schema.induct with
  | single node ih =>
    intro location value
    rw [isValid_iff, validate_single]
    rw [Node.validateWith_eq_ok_iff ih, Node.validateWith_eq_ok_iff ih]
  | choice union ih =>
    intro location value
    rw [isValid_iff, validate_choice_eq_ok_iff, validate_choice_eq_ok_iff]
    constructor
    · rintro ⟨alternative, hmem, hvalid⟩
      have hplace := ih alternative (NodeUnion.mem_of_mem_ordered hmem)
      exact ⟨alternative, hmem, (hplace [] value).mpr ((hplace location value).mp hvalid)⟩
    · rintro ⟨alternative, hmem, hvalid⟩
      have hplace := ih alternative (NodeUnion.mem_of_mem_ordered hmem)
      exact ⟨alternative, hmem, (hplace location value).mpr ((hplace [] value).mp hvalid)⟩

/-- A value is valid for a node exactly when the node admits it. -/
theorem isValid_single_iff {node : Node Schema} {value : Value} :
    (Schema.single node).isValid value = true ↔
      node.Admits (fun part child => part.isValid child = true) value := by
  rw [isValid_iff, validate_single]
  exact Node.validateWith_eq_ok_iff fun part _ => part.validate_eq_ok_iff

/-- A value is valid for a union exactly when it is for one of the alternatives that are
tried. -/
theorem isValid_choice_iff {union : NodeUnion Schema} {value : Value} :
    (Schema.choice union).isValid value = true ↔
      ∃ alternative ∈ union.ordered, (Schema.single alternative.2).isValid value = true := by
  simp only [isValid_iff, validate_choice_eq_ok_iff]

end Schema

end NestedData
