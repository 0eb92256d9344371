import Mathlib.Data.List.Nodup
import NestedData.Location

/-!
# Well-formed values

The entries of a map stand under distinct keys and the fields of a record have
distinct names.  This module states that at every depth of a value and derives
what it means for the children of a container: a step leads to at most one of
them, and every child is led to by its step.

Main results:

- `Value.mem_children_iff`: under distinct steps, the children are what steps lead to.
- `Value.nodup_steps`: no two children share a step.
- `Value.WellFormed.child`: the children of a well-formed value are well-formed.
-/

namespace NestedData

/-! ## Fields under distinct names -/

namespace Record

variable {α : Type}

theorem mem_of_field? {record : Record α} {name : String} {field : Field α}
    (hfound : record.field? name = some field) : field ∈ record.fields ∧ field.name = name :=
  ⟨List.mem_of_find?_eq_some hfound, by simpa using List.find?_some hfound⟩

/-- With distinct names, a field is found under its name. -/
theorem field?_of_mem {record : Record α} (hnames : record.names.Nodup) {field : Field α}
    (hmem : field ∈ record.fields) : record.field? field.name = some field := by
  rcases record with ⟨typeName, fields⟩
  simp only [names, field?] at hnames hmem ⊢
  induction fields with
  | nil => simp at hmem
  | cons head rest ih =>
    rw [List.map_cons, List.nodup_cons] at hnames
    rcases List.mem_cons.mp hmem with rfl | hlater
    · simp
    · have hne : head.name ≠ field.name := by
        intro hsame
        exact hnames.1 (hsame ▸ List.mem_map_of_mem hlater)
      rw [List.find?_cons_of_neg (by simpa using hne)]
      exact ih hnames.2 hlater

theorem field?_map {f : Field α → Field α} (hname : ∀ field, (f field).name = field.name)
    (record : Record α) (name : String) :
    field? { record with fields := record.fields.map f } name = (record.field? name).map f := by
  simp only [field?, List.find?_map, Function.comp_def, hname]

theorem get?_eq_some_iff {record : Record α} {name : String} {value : α} :
    record.get? name = some value ↔
      ∃ field, record.field? name = some field ∧ field.exported = true ∧ field.value = value := by
  unfold get?
  cases record.field? name with
  | none => simp
  | some field => cases hexported : field.exported <;> simp [hexported]

end Record

namespace Value

/-! ## Well-formed values -/

/-- Every map inside the value has distinct keys and every record distinct field
names. -/
inductive WellFormed : Value → Prop
  | null : WellFormed .null
  | bool (truth : Bool) : WellFormed (.bool truth)
  | int (number : Int64) : WellFormed (.int number)
  | float (number : Binary64) : WellFormed (.float number)
  | text (content : String) : WellFormed (.text content)
  | list {sequence : Sequence Value} (hitems : ∀ item ∈ sequence.items, WellFormed item) :
      WellFormed (.list sequence)
  | map {entries : Entries Value} (hkeys : (Entries.keys entries).Nodup)
      (hvalues : ∀ entry ∈ entries, WellFormed entry.2) : WellFormed (.map entries)
  | record {aggregate : Record Value} (hnames : aggregate.names.Nodup)
      (hvalues : ∀ field ∈ aggregate.fields, WellFormed field.value) :
      WellFormed (.record aggregate)
  | ref {referent : Value} (hreferent : WellFormed referent) : WellFormed (.ref referent)
  | nilRef : WellFormed .nilRef

attribute [simp] WellFormed.null WellFormed.bool WellFormed.int WellFormed.float WellFormed.text
  WellFormed.nilRef

@[simp]
theorem wellFormed_list_iff {sequence : Sequence Value} :
    (Value.list sequence).WellFormed ↔ ∀ item ∈ sequence.items, item.WellFormed :=
  ⟨fun h => by cases h; assumption, .list⟩

@[simp]
theorem wellFormed_map_iff {entries : Entries Value} :
    (Value.map entries).WellFormed ↔
      (Entries.keys entries).Nodup ∧ ∀ entry ∈ entries, entry.2.WellFormed :=
  ⟨fun h => by cases h; exact ⟨‹_›, ‹_›⟩, fun h => .map h.1 h.2⟩

@[simp]
theorem wellFormed_record_iff {aggregate : Record Value} :
    (Value.record aggregate).WellFormed ↔
      aggregate.names.Nodup ∧ ∀ field ∈ aggregate.fields, field.value.WellFormed :=
  ⟨fun h => by cases h; exact ⟨‹_›, ‹_›⟩, fun h => .record h.1 h.2⟩

@[simp]
theorem wellFormed_ref_iff {referent : Value} :
    (Value.ref referent).WellFormed ↔ referent.WellFormed :=
  ⟨fun h => by cases h; assumption, .ref⟩

/-- The end of a chain of references in a well-formed value is well-formed. -/
theorem WellFormed.target {value : Value} (hvalue : value.WellFormed) :
    value.target.WellFormed := by
  induction hvalue with
  | ref _ ih => simpa [Value.target] using ih
  | list hitems => exact .list hitems
  | map hkeys hvalues => exact .map hkeys hvalues
  | record hnames hvalues => exact .record hnames hvalues
  | _ => simp only [Value.target]; constructor

/-! ## Children -/

/-- The children of a container stand under distinct keys or names. -/
def HasDistinctSteps : Value → Prop
  | .map entries => (Entries.keys entries).Nodup
  | .record aggregate => aggregate.names.Nodup
  | _ => True

theorem WellFormed.hasDistinctSteps {value : Value} (hvalue : value.WellFormed) :
    value.HasDistinctSteps := by
  cases hvalue with
  | map hkeys _ => exact hkeys
  | record hnames _ => exact hnames
  | _ => trivial

/-- A child that a step leads to is listed with the step. -/
theorem mem_children_of_child? {value child : Value} {step : Step}
    (hchild : value.child? step = some child) : (step, child) ∈ value.children := by
  cases value with
  | list sequence =>
    cases step with
    | key name => simp [child?] at hchild
    | index position =>
      have hitem : sequence.items.toList[position]? = some child := by
        simpa [child?, Sequence.get?] using hchild
      refine List.mem_map.mpr ⟨(child, position), ?_, rfl⟩
      exact List.mk_mem_zipIdx_iff_getElem?.mpr hitem
  | map entries =>
    cases step with
    | index position => simp [child?] at hchild
    | key name =>
      exact List.mem_map.mpr ⟨(name, child), Entries.mem_of_get? hchild, rfl⟩
  | record aggregate =>
    cases step with
    | index position => simp [child?] at hchild
    | key name =>
      rcases Record.get?_eq_some_iff.mp hchild with ⟨field, hfield, hexported, rfl⟩
      rcases Record.mem_of_field? hfield with ⟨hmem, rfl⟩
      exact List.mem_map.mpr ⟨field, List.mem_filter.mpr ⟨hmem, hexported⟩, rfl⟩
  | _ => simp [child?] at hchild

/-- Under distinct steps, the children are what steps lead to. -/
theorem mem_children_iff {value : Value} (hvalue : value.HasDistinctSteps) {step : Step}
    {child : Value} : (step, child) ∈ value.children ↔ value.child? step = some child := by
  refine ⟨fun hmem => ?_, mem_children_of_child?⟩
  cases value with
  | list sequence =>
    rcases List.mem_map.mp hmem with ⟨⟨item, position⟩, hitem, hsame⟩
    cases hsame
    simpa [child?, Sequence.get?] using List.mk_mem_zipIdx_iff_getElem?.mp hitem
  | map entries =>
    rcases List.mem_map.mp hmem with ⟨entry, hentry, hsame⟩
    cases hsame
    exact Entries.get?_of_mem hvalue hentry
  | record aggregate =>
    rcases List.mem_map.mp hmem with ⟨field, hfield, hsame⟩
    cases hsame
    rcases List.mem_filter.mp hfield with ⟨hmem, hexported⟩
    exact Record.get?_eq_some_iff.mpr ⟨field, Record.field?_of_mem hvalue hmem, hexported, rfl⟩
  | _ => simp [children] at hmem

/-- The children of a well-formed value are well-formed. -/
theorem WellFormed.of_mem_children {value : Value} {child : Step × Value}
    (hvalue : value.WellFormed) (hmem : child ∈ value.children) : child.2.WellFormed := by
  cases hvalue with
  | @list sequence hitems =>
    rcases List.mem_map.mp hmem with ⟨⟨item, position⟩, hitem, hsame⟩
    cases hsame
    exact hitems _ (Array.mem_toList_iff.mp (List.fst_mem_of_mem_zipIdx hitem))
  | @map entries hkeys hvalues =>
    rcases List.mem_map.mp hmem with ⟨entry, hentry, hsame⟩
    cases hsame
    exact hvalues entry hentry
  | @record aggregate hnames hvalues =>
    rcases List.mem_map.mp hmem with ⟨field, hfield, hsame⟩
    cases hsame
    exact hvalues field (List.mem_filter.mp hfield).1
  | _ => simp [children] at hmem

/-- What a step leads to in a well-formed value is well-formed. -/
theorem WellFormed.child {value child : Value} {step : Step} (hvalue : value.WellFormed)
    (hchild : value.child? step = some child) : child.WellFormed :=
  hvalue.of_mem_children (mem_children_of_child? hchild)

/-- No two children share a step. -/
theorem nodup_steps {value : Value} (hvalue : value.HasDistinctSteps) :
    (value.children.map Prod.fst).Nodup := by
  cases value with
  | list sequence =>
    have hsteps : (children (.list sequence)).map Prod.fst =
        (List.range' 0 sequence.items.toList.length).map Step.index := by
      rw [← List.zipIdx_map_snd 0 sequence.items.toList, children, List.map_map, List.map_map]
      rfl
    rw [hsteps]
    exact List.Nodup.map (fun _ _ h => by cases h; rfl) List.nodup_range'
  | map entries =>
    have hsteps : (children (.map entries)).map Prod.fst = (Entries.keys entries).map Step.key := by
      simp [children, Entries.keys]
    rw [hsteps]
    exact List.Nodup.map (fun _ _ h => by cases h; rfl) hvalue
  | record aggregate =>
    have hsteps : (children (.record aggregate)).map Prod.fst =
        (aggregate.exportedFields.map Field.name).map Step.key := by
      simp [children]
    rw [hsteps]
    refine List.Nodup.map (fun _ _ h => by cases h; rfl) ?_
    exact List.Nodup.sublist (List.Sublist.map Field.name List.filter_sublist) hvalue
  | _ => simp [children]

end Value

end NestedData
