import NestedData.Proofs.Schema.Everywhere
import NestedData.Proofs.Schema.Validity
import NestedData.Proofs.Value.Assembly
import NestedData.Schema.Zero

/-!
# Zero values are valid

An absent value becomes the zero value of its schema, and the fields of a record start
at their zero values.  This module proves that the zero value of a plain schema fits the
schema, at every depth: every declared field of a record is there, an array has its
length, and a union has an alternative that its zero value fits.

Main results:

- `Node.Declares.admitsRecord`: a record that declares the children of a node, each with a
  value that fits, is what the node asks for.
- `Schema.isValid_zero`: the zero value of a plain schema is valid.
-/

namespace NestedData

namespace Node

variable {node : Node Schema} {accepts : Schema → Value → Prop}

/-! ## Records that declare the children of a node -/

/-- A record has exactly the declared children as fields that paths see, each with a value
that fits. -/
structure Declares (node : Node Schema) (accepts : Schema → Value → Prop)
    (aggregate : Record Value) : Prop where
  /-- The type has the name of the node. -/
  name : aggregate.name = node.typeName.getD ""
  /-- Every field is seen by paths. -/
  exported : ∀ field ∈ aggregate.fields, field.exported = true
  /-- Every field is declared with a part that its value fits. -/
  fields : ∀ field ∈ aggregate.fields,
    ∃ part, (field.name, part) ∈ node.children ∧ accepts part field.value
  /-- Every declared child has a field. -/
  complete : ∀ child ∈ node.children, child.1 ∈ aggregate.names

/-- A record that declares the children is what the node asks for. -/
theorem Declares.admitsRecord {aggregate : Record Value}
    (hdeclares : node.Declares accepts aggregate) (hnames : (Entries.keys node.children).Nodup) :
    node.AdmitsRecord accepts aggregate where
  name := by
    intro expected hexpected
    simp [hdeclares.name, hexpected]
  fields := by
    intro field hmem
    have hfield := (List.mem_filter.mp hmem).1
    rcases hdeclares.fields field hfield with ⟨part, hchild, hfits⟩
    exact ⟨part, Entries.get?_of_mem hnames hchild, Or.inr hfits⟩
  complete := by
    intro child hmem
    have hname := Record.isSome_field?_iff.mpr (hdeclares.complete child hmem)
    rcases Option.isSome_iff_exists.mp hname with ⟨field, hfound⟩
    have hexported := hdeclares.exported field (Record.mem_of_field? hfound).1
    rw [Record.get?_eq_some_iff.mpr ⟨field, hfound, hexported, rfl⟩]
    rfl

/-- Assigning a value that fits keeps what is declared. -/
theorem Declares.setValue {aggregate : Record Value} {child : String × Schema} {value : Value}
    (hdeclares : node.Declares accepts aggregate) (hmem : child ∈ node.children)
    (hvalue : accepts child.2 value) :
    node.Declares accepts (aggregate.setValue child.1 value) where
  name := hdeclares.name
  exported := by
    intro field hfield
    rcases Record.mem_fields_setValue hfield with hother | ⟨old, hold, _, rfl⟩
    · exact hdeclares.exported field hother
    · exact hdeclares.exported old hold
  fields := by
    intro field hfield
    rcases Record.mem_fields_setValue hfield with hother | ⟨old, _, hname, rfl⟩
    · exact hdeclares.fields field hother
    · exact ⟨child.2, by simpa [hname] using hmem, hvalue⟩
  complete := by
    intro other hother
    rw [Record.names_setValue]
    exact hdeclares.complete other hother

/-- Declaring a child with a value that fits keeps what is declared. -/
theorem Declares.put {aggregate : Record Value} {child : String × Schema} {value : Value}
    (hdeclares : node.Declares accepts aggregate) (hmem : child ∈ node.children)
    (hvalue : accepts child.2 value) :
    node.Declares accepts (aggregate.put { name := child.1, value }) where
  name := by rw [Record.name_put, hdeclares.name]
  exported := by
    intro field hfield
    rcases Record.mem_fields_put hfield with rfl | hother
    · rfl
    · exact hdeclares.exported field hother
  fields := by
    intro field hfield
    rcases Record.mem_fields_put hfield with rfl | hother
    · exact ⟨child.2, hmem, hvalue⟩
    · exact hdeclares.fields field hother
  complete := by
    intro other hother
    exact Record.mem_names_put.mpr (Or.inl (hdeclares.complete other hother))

/-! ## The zero value of a node -/

/-- The zero value of a record declares the children, each with its zero value. -/
theorem declares_zero (hplain : node.IsPlain) (hshape : node.shape = .record)
    (hparts : ∀ part ∈ node.parts, accepts part part.zero) :
    ∃ aggregate, node.zero = .record aggregate ∧ node.Declares accepts aggregate := by
  rw [Node.zero, Schema.zero_single, zeroWith, hplain.default]
  simp only [hshape]
  refine ⟨_, rfl, Record.name_ofFields _ _, ?_, ?_, ?_⟩
  · intro field hfield
    rcases List.mem_map.mp (Record.mem_fields_ofFields hfield) with ⟨child, _, rfl⟩
    rfl
  · intro field hfield
    rcases List.mem_map.mp (Record.mem_fields_ofFields hfield) with ⟨child, _, rfl⟩
    exact ⟨child.1.2, child.2, hparts _ (mem_parts_of_attached child)⟩
  · intro child hmem
    rw [Record.mem_names_ofFields]
    exact ⟨_, List.mem_map_of_mem (List.mem_attach _ ⟨child, hmem⟩), rfl⟩

/-- The zero value of an array has its length, and every element is the zero value of its
position. -/
theorem admits_zero_array (hplain : node.IsPlain) {bound? : Option (Nat × Schema)}
    (hshape : node.shape = .array bound?) (hparts : ∀ part ∈ node.parts, accepts part part.zero) :
    node.AdmitsChildren accepts node.zero := by
  rw [Node.zero, Schema.zero_single, zeroWith, hplain.default]
  simp only [hshape]
  refine ⟨?_, ?_⟩
  · intro length hlength
    simp [Sequence.size, Sequence.fixed, hlength]
  · intro position item hitem part hpart
    rcases Array.getElem?_eq_some_iff.mp hitem with ⟨hposition, rfl⟩
    apply Or.inr
    simp only [Sequence.fixed, Array.getElem_ofFn]
    split
    · rename_i element hfound
      rcases Option.some.inj (hfound.symm.trans hpart) with rfl
      exact hparts element (mem_parts_of_elementAt? hfound)
    · rename_i hmissing
      simp [hmissing] at hpart

/-- The zero value of a plain node is admitted when those of its parts are. -/
theorem admits_zero (hplain : node.IsPlain)
    (hparts : ∀ part ∈ node.parts, accepts part part.zero) : node.Admits accepts node.zero := by
  by_cases hany : node.kind = .any
  · exact admits_of_any hplain.validator hany
  · refine admits_of_kind hplain.validator (Schema.kind_zero hplain.default hany) ?_
    cases hshape : node.shape with
    | record =>
      rcases declares_zero hplain hshape hparts with ⟨aggregate, hzero, hdeclares⟩
      rw [hzero]
      exact hdeclares.admitsRecord hplain.names
    | array bound? => exact admits_zero_array hplain hshape hparts
    | list element? =>
      rw [Node.zero, Schema.zero_single, zeroWith, hplain.default]
      simp only [hshape]
      refine ⟨?_, ?_⟩
      · intro length hlength
        simp [length?, hshape] at hlength
      · intro position item hitem
        simp [Sequence.growable] at hitem
    | any =>
      have hkind : node.kind = .any := by
        rw [kind, hshape]
        rfl
      exact absurd hkind hany
    | _ =>
      rw [Node.zero, Schema.zero_single, zeroWith, hplain.default]
      simp [hshape, AdmitsChildren]

end Node

namespace NodeUnion

variable {α : Type}

theorem preferred_mem_ordered {union : NodeUnion α} {preferred : String × Node α}
    (hpreferred : union.preferred? = some preferred) : preferred ∈ union.ordered := by
  rw [ordered, hpreferred]
  exact List.mem_cons_self

theorem HasAlternatives.exists_preferred {union : NodeUnion Schema}
    (hunion : union.HasAlternatives) : ∃ preferred, union.preferred? = some preferred := by
  cases hpreferred : union.preferred? with
  | some preferred => exact ⟨preferred, rfl⟩
  | none =>
    have hhead := (Option.or_eq_none_iff.mp hpreferred).2
    exact absurd (List.head?_eq_none_iff.mp hhead) hunion

end NodeUnion

namespace Schema

/-- The zero value of a plain schema is valid. -/
theorem isValid_zero {schema : Schema} (hplain : schema.IsPlain) :
    schema.isValid schema.zero = true := by
  induction schema using Schema.induct with
  | single node ih =>
    rcases everywhere_single_iff.mp hplain with ⟨hnode, hparts⟩
    rw [isValid_single_iff]
    exact Node.admits_zero hnode fun part hmem => ih part hmem (hparts part hmem)
  | choice union ih =>
    rcases everywhere_choice_iff.mp hplain with ⟨hunion, halternatives⟩
    rcases hunion.exists_preferred with ⟨preferred, hpreferred⟩
    rw [zero_choice, hpreferred, isValid_choice_iff]
    refine ⟨preferred, NodeUnion.preferred_mem_ordered hpreferred, ?_⟩
    have hmem := NodeUnion.mem_of_preferred? hpreferred
    exact ih preferred hmem (halternatives preferred hmem)

end Schema

end NestedData
