import NestedData.Proofs.Access.Matching
import NestedData.Value.Zero

/-!
# Rebuilding a container from its children

This module describes changes to the children of a container all at once: something is
made of every child, or nothing, in which case the child is removed where the container
can do without it and emptied where it cannot.  Replacing one child, and deleting some,
are changes of this sort.

Main results:

- `rebuild_rebuild`: a change after one that keeps all children is one change.
- `child?_rebuild`, `steps_rebuild`: a change that keeps all children keeps what steps
  lead to and what segments pick.
- `setChild_eq_rebuild`: replacing a child is such a change.
- `rebuild_rebuild_of_fixed`: two changes, one after the other, are one where no position
  shifts.
-/

namespace NestedData

theorem zipIdx_map_zipIdx {α β : Type} (items : List α) (f : α × Nat → β) (start : Nat) :
    ((items.zipIdx start).map f).zipIdx start =
      (items.zipIdx start).map fun slot => (f slot, slot.2) := by
  induction items generalizing start with
  | nil => rfl
  | cons item rest ih => simp only [List.zipIdx_cons, List.map_cons, ih]

namespace Value

/-- Rebuilds a container from what is made of its children.  If nothing is made of a
child, an entry or an element of a growable list is removed, and a field or an element of
a list of fixed length is emptied.  Hidden fields are no children and stay. -/
def rebuild (remake : Step → Value → Option Value) : Value → Value
  | .map entries =>
    .map (entries.filterMap fun entry => (remake (.key entry.1) entry.2).map (entry.1, ·))
  | .record aggregate =>
    .record { aggregate with
      fields := aggregate.fields.map fun field =>
        if field.exported then
          { field with value := (remake (.key field.name) field.value).getD field.value.zeroed }
        else field }
  | .list { extent := .growable, items } =>
    .list (.growable
      (items.toList.zipIdx.filterMap fun slot => remake (.index slot.2) slot.1).toArray)
  | .list { extent := .fixed, items } =>
    .list (.fixed
      (items.toList.zipIdx.map fun slot =>
        (remake (.index slot.2) slot.1).getD slot.1.zeroed).toArray)
  | value => value

variable {value : Value} {f g : Step → Value → Option Value}

/-! ## Changes -/

/-- Only what is made of the children matters. -/
theorem rebuild_congr (hsame : ∀ child ∈ value.children, f child.1 child.2 = g child.1 child.2) :
    value.rebuild f = value.rebuild g := by
  cases value with
  | map entries =>
    simp only [rebuild, map.injEq]
    refine List.filterMap_congr fun entry hentry => ?_
    rw [hsame (.key entry.1, entry.2) (List.mem_map_of_mem hentry)]
  | record aggregate =>
    simp only [rebuild, record.injEq, Record.mk.injEq, true_and]
    refine List.map_congr_left fun field hfield => ?_
    split
    · rename_i hexported
      have hmem : field ∈ aggregate.exportedFields := List.mem_filter.mpr ⟨hfield, hexported⟩
      rw [hsame (.key field.name, field.value) (List.mem_map_of_mem hmem)]
    · rfl
  | list sequence =>
    have hslot (slot : Value × Nat) (hmem : slot ∈ sequence.items.toList.zipIdx) :
        f (.index slot.2) slot.1 = g (.index slot.2) slot.1 :=
      hsame (.index slot.2, slot.1) (List.mem_map_of_mem hmem)
    rcases sequence with ⟨extent, items⟩
    cases extent with
    | growable =>
      simp only [rebuild]
      rw [List.filterMap_congr hslot]
    | fixed =>
      simp only [rebuild]
      congr 3
      exact List.map_congr_left fun slot hmem => by rw [hslot slot hmem]
  | _ => rfl

/-- Whether elements are removed, so that positions shift, when nothing is made of them. -/
def isGrowable : Value → Bool
  | .list sequence => sequence.canGrow
  | _ => false

/-- Where nothing can be removed, what nothing is made of is emptied. -/
theorem rebuild_getD (hmap : ∀ entries, value ≠ .map entries) (hfixed : value.isGrowable = false) :
    value.rebuild f =
      value.rebuild fun step child => some ((f step child).getD child.zeroed) := by
  cases value with
  | map entries => exact absurd rfl (hmap entries)
  | list sequence =>
    rcases sequence with ⟨extent, items⟩
    cases extent with
    | growable => cases hfixed
    | fixed => rfl
  | _ => rfl

theorem rebuild_id (value : Value) : value.rebuild (fun _ child => some child) = value := by
  cases value with
  | map entries => simp [rebuild]
  | record aggregate => simp [rebuild]
  | list sequence =>
    rcases sequence with ⟨extent, items⟩
    cases extent <;> simp [rebuild, Sequence.growable, Sequence.fixed]
  | _ => rfl

/-- A change after one that keeps all children, and keeps what emptying would leave of
them, is one change. -/
theorem rebuild_rebuild {keep : Step → Value → Value}
    (hzeroed : ∀ step child, (keep step child).zeroed = child.zeroed) :
    (value.rebuild fun step child => some (keep step child)).rebuild f =
      value.rebuild fun step child => f step (keep step child) := by
  cases value with
  | map entries => simp [rebuild]
  | record aggregate =>
    simp only [rebuild, List.map_map, record.injEq, Record.mk.injEq, true_and]
    refine List.map_congr_left fun field _ => ?_
    cases hexported : field.exported <;> simp [hexported, hzeroed]
  | list sequence =>
    rcases sequence with ⟨extent, items⟩
    cases extent with
    | growable =>
      simp [rebuild, Sequence.growable, zipIdx_map_zipIdx]
    | fixed =>
      simp [rebuild, Sequence.fixed, zipIdx_map_zipIdx, Function.comp_def, hzeroed]
  | _ => rfl

/-- Where no position shifts, two changes are one: a child of which nothing was made is gone
or empty when the second change comes to it. -/
theorem rebuild_rebuild_of_fixed (hfixed : value.isGrowable = false)
    {h : Step → Value → Option Value}
    (hgone : ∀ step child, f step child = none →
      h step child = none ∧ (g step child.zeroed).getD child.zeroed = child.zeroed)
    (hkept : ∀ step child remade, f step child = some remade →
      h step child = g step remade ∧ remade.zeroed = child.zeroed) :
    (value.rebuild f).rebuild g = value.rebuild h := by
  -- What two changes leave of a child that is emptied where it stands.
  have hboth (step : Step) (child : Value) :
      (g step ((f step child).getD child.zeroed)).getD ((f step child).getD child.zeroed).zeroed =
        (h step child).getD child.zeroed := by
    cases hmade : f step child with
    | none =>
      obtain ⟨hnone, hempty⟩ := hgone step child hmade
      rw [hnone, Option.getD_none, zeroed_zeroed, hempty]
    | some remade =>
      obtain ⟨hsome, hsame⟩ := hkept step child remade hmade
      rw [hsome, Option.getD_some, hsame]
  cases value with
  | map entries =>
    simp only [rebuild, List.filterMap_filterMap, map.injEq]
    refine List.filterMap_congr fun entry _ => ?_
    cases hmade : f (.key entry.1) entry.2 with
    | none => simp [(hgone _ _ hmade).1]
    | some remade => simp [(hkept _ _ _ hmade).1]
  | record aggregate =>
    simp only [rebuild, List.map_map, record.injEq, Record.mk.injEq, true_and]
    refine List.map_congr_left fun field _ => ?_
    cases hexported : field.exported <;> simp [hexported, hboth]
  | list sequence =>
    rcases sequence with ⟨extent, items⟩
    cases extent with
    | growable => cases hfixed
    | fixed => simp [rebuild, Sequence.fixed, zipIdx_map_zipIdx, Function.comp_def, hboth]
  | _ => rfl

/-- A change that makes of children what is emptied to the same does not change what
emptying leaves. -/
theorem zeroed_rebuild (hzeroed : ∀ child ∈ value.children, ∀ remade,
      f child.1 child.2 = some remade → remade.zeroed = child.2.zeroed) :
    (value.rebuild f).zeroed = value.zeroed := by
  have hgetD {child : Step × Value} (hchild : child ∈ value.children) :
      ((f child.1 child.2).getD child.2.zeroed).zeroed = child.2.zeroed := by
    cases hremade : f child.1 child.2 with
    | none => simp
    | some remade => simpa using hzeroed child hchild remade hremade
  cases value with
  | map entries => simp [rebuild, zeroed]
  | record aggregate =>
    simp only [rebuild, zeroed, List.map_map, record.injEq, Record.mk.injEq, true_and]
    refine List.map_congr_left fun field hfield => ?_
    cases hexported : field.exported with
    | false => simp [hexported]
    | true =>
      have hmem : field ∈ aggregate.exportedFields := List.mem_filter.mpr ⟨hfield, hexported⟩
      have hlisted : (Step.key field.name, field.value) ∈ children (.record aggregate) :=
        List.mem_map_of_mem hmem
      have hvalue := hgetD hlisted
      simpa [hexported] using hvalue
  | list sequence =>
    rcases sequence with ⟨extent, items⟩
    cases extent with
    | growable => simp [rebuild, zeroed, Sequence.growable]
    | fixed =>
      have hitems : items.toList.zipIdx.map (zeroed ∘ fun slot =>
          (f (.index slot.2) slot.1).getD slot.1.zeroed) = items.toList.map zeroed := by
        rw [← List.zipIdx_map_fst 0 items.toList, List.map_map, List.zipIdx_map_fst]
        refine List.map_congr_left fun slot hslot => ?_
        have hlisted : (Step.index slot.2, slot.1) ∈
            children (.list { extent := .fixed, items }) := List.mem_map_of_mem hslot
        exact hgetD hlisted
      simp only [rebuild, Sequence.fixed, zeroed, List.map_toArray, List.map_map, hitems,
        ← Array.toList_map, Array.toArray_toList]
  | _ => rfl

theorem target_rebuild (hvalue : value.target = value) :
    (value.rebuild f).target = value.rebuild f := by
  cases value with
  | ref referent => exact absurd hvalue (target_ne_ref _ _)
  | list sequence =>
    rcases sequence with ⟨extent, items⟩
    cases extent <;> rfl
  | _ => rfl

/-! ## Changes that keep all children -/

section Keeping

variable {keep : Step → Value → Value}

theorem rebuild_map (entries : Entries Value) :
    (Value.map entries).rebuild (fun step child => some (keep step child)) =
      .map (entries.map fun entry => (entry.1, keep (.key entry.1) entry.2)) := by
  simp [rebuild]

/-- What a change that keeps all children makes of a field. -/
def keepField (keep : Step → Value → Value) (field : Field Value) : Field Value :=
  if field.exported then { field with value := keep (.key field.name) field.value } else field

@[simp]
theorem name_keepField (field : Field Value) : (keepField keep field).name = field.name := by
  unfold keepField
  split <;> rfl

theorem rebuild_record (aggregate : Record Value) :
    (Value.record aggregate).rebuild (fun step child => some (keep step child)) =
      .record { aggregate with fields := aggregate.fields.map (keepField keep) } := by
  simp [rebuild, keepField]

/-- A change that keeps all elements of a list. -/
theorem rebuild_list (sequence : Sequence Value) :
    (Value.list sequence).rebuild (fun step child => some (keep step child)) =
      .list { sequence with
        items := sequence.items.mapIdx fun index item => keep (.index index) item } := by
  rcases sequence with ⟨extent, items⟩
  have hitems : (items.toList.zipIdx.map fun slot => keep (.index slot.2) slot.1).toArray =
      items.mapIdx fun index item => keep (.index index) item := by
    rw [← Array.toList_inj, Array.toList_mapIdx, List.mapIdx_eq_zipIdx_map]
  cases extent <;> simp [rebuild, Sequence.growable, Sequence.fixed, hitems]

/-- The value under a key after all values of a map were changed. -/
theorem get?_rebuild_map (entries : Entries Value) (name : String) :
    Entries.get? (entries.map fun entry => (entry.1, keep (.key entry.1) entry.2)) name =
      (Entries.get? entries name).map (keep (.key name)) := by
  induction entries with
  | nil => rfl
  | cons entry rest ih =>
    simp only [List.map_cons, Entries.get?, ih]
    split
    · rename_i hsame
      rw [hsame]
      rfl
    · rfl

/-- A step leads to what was made of the child it led to. -/
theorem child?_rebuild (step : Step) :
    (value.rebuild fun step child => some (keep step child)).child? step =
      (value.child? step).map (keep step) := by
  cases value with
  | map entries =>
    rw [rebuild_map]
    cases step with
    | key name => exact get?_rebuild_map entries name
    | index position => rfl
  | record aggregate =>
    rw [rebuild_record]
    cases step with
    | key name =>
      simp only [child?, Record.get?, Record.field?_map name_keepField]
      cases hfield : aggregate.field? name with
      | none => rfl
      | some field =>
        rcases Record.mem_of_field? hfield with ⟨_, hname⟩
        cases hexported : field.exported <;> simp [keepField, hexported, hname]
    | index position => rfl
  | list sequence =>
    rw [rebuild_list]
    cases step with
    | key name => rfl
    | index position => simp [child?, Sequence.get?]
  | _ => cases step <;> rfl

/-- Whether a step leads to a field that may not be written. -/
def isReadOnly : Value → Step → Bool
  | .record aggregate, .key name => (aggregate.field? name).any fun field => !field.mutable
  | _, _ => false

/-- Whether a field may be written does not change. -/
theorem isReadOnly_rebuild (step : Step) :
    (value.rebuild fun step child => some (keep step child)).isReadOnly step =
      value.isReadOnly step := by
  cases value with
  | record aggregate =>
    rw [rebuild_record]
    cases step with
    | index position => rfl
    | key name =>
      rw [isReadOnly, Record.field?_map name_keepField, Option.any_map, isReadOnly]
      congr 1
      funext field
      simp only [keepField]
      split <;> rfl
  | map entries => rfl
  | list sequence =>
    rw [rebuild_list]
    rfl
  | _ => rfl

/-- A segment picks the same steps from a record whose fields have other values. -/
theorem steps_rebuild_record (aggregate : Record Value) (segment : Segment) :
    segment.steps ((Value.record aggregate).rebuild fun step child => some (keep step child)) =
      segment.steps (.record aggregate) := by
  have hget (name : String) :
      Record.get? { aggregate with fields := aggregate.fields.map (keepField keep) } name =
        (aggregate.get? name).map (keep (.key name)) := by
    have hchild : ((Value.record aggregate).rebuild fun step child =>
        some (keep step child)).child? (.key name) =
          ((Value.record aggregate).child? (.key name)).map (keep (.key name)) :=
      child?_rebuild (.key name)
    rwa [rebuild_record] at hchild
  rw [rebuild_record, Segment.steps_record, Segment.steps_record]
  cases segment with
  | key name => simp only [hget, Option.isSome_map]
  | wildcard =>
    simp only [Record.exportedFields, List.filter_map, List.map_map]
    have hexported : Field.exported ∘ keepField keep = Field.exported := by
      funext field
      simp only [keepField, Function.comp_apply]
      split <;> rfl
    rw [hexported]
    refine List.map_congr_left fun field _ => ?_
    rw [Function.comp_apply, name_keepField]
  | union selectors =>
    have hfield : Selection.fieldOf?
        { aggregate with fields := aggregate.fields.map (keepField keep) } =
        Selection.fieldOf? aggregate := by
      funext selector
      cases selector with
      | index position => rfl
      | key name =>
        rw [Selection.fieldOf?, hget, Option.map_map]
        rfl
    rw [hfield]
  | _ => rfl

/-- A segment picks the same steps. -/
theorem steps_rebuild (segment : Segment) :
    segment.steps (value.rebuild fun step child => some (keep step child)) =
      segment.steps value := by
  cases value with
  | map entries =>
    rw [rebuild_map, Segment.steps_map, Segment.steps_map]
    have hcontains : Entries.contains
        (entries.map fun entry => (entry.1, keep (.key entry.1) entry.2)) =
        Entries.contains entries := by
      funext name
      simp [Entries.contains, get?_rebuild_map]
    cases segment <;> simp [hcontains, Entries.keys]
  | record aggregate => exact steps_rebuild_record aggregate segment
  | list sequence =>
    have hsize : Sequence.size { sequence with
        items := sequence.items.mapIdx fun index item => keep (.index index) item } =
        sequence.size := by
      simp [Sequence.size]
    rw [rebuild_list, Segment.steps_list, Segment.steps_list]
    cases segment with
    | union selectors =>
      refine List.filterMap_congr fun selector _ => ?_
      cases selector <;>
        simp [Selection.positionOf?, Selection.reaches, Selection.mayGrow, Selection.tolerant,
          hsize]
    | _ => simp only [hsize]
  | _ => rfl

/-! ## Replacing one child -/

/-- A change that keeps all children keeps their keys and names. -/
theorem HasDistinctSteps.rebuild (hvalue : value.HasDistinctSteps) :
    (value.rebuild fun step child => some (keep step child)).HasDistinctSteps := by
  cases value with
  | map entries =>
    rw [rebuild_map]
    simpa [HasDistinctSteps, Entries.keys, Function.comp_def] using hvalue
  | record aggregate =>
    rw [rebuild_record]
    simpa [HasDistinctSteps, Record.names, Function.comp_def] using hvalue
  | list sequence =>
    rw [rebuild_list]
    trivial
  | _ => trivial

/-- Putting a value under a key that is there changes the entry under it. -/
theorem insert_eq_map {entries : Entries Value} (hkeys : (Entries.keys entries).Nodup)
    {key : String} (hpresent : Entries.contains entries key = true) (new : Value) :
    Entries.insert entries key new =
      entries.map fun entry => (entry.1, if entry.1 = key then new else entry.2) := by
  induction entries with
  | nil => simp [Entries.contains, Entries.get?] at hpresent
  | cons entry rest ih =>
    rcases entry with ⟨name, old⟩
    rw [Entries.keys, List.map_cons, List.nodup_cons] at hkeys
    by_cases hsame : name = key
    · have hothers : rest.map (fun entry => (entry.1, if entry.1 = key then new else entry.2)) =
          rest := by
        refine (List.map_congr_left fun entry hentry => ?_).trans rest.map_id
        have hother : entry.1 ≠ key := by
          intro hother
          exact hkeys.1 (List.mem_map.mpr ⟨entry, hentry, hother.trans hsame.symm⟩)
        rw [if_neg hother, id]
      simp [Entries.insert, hsame, hothers]
    · have hrest : Entries.contains rest key = true := by
        simpa [Entries.contains, Entries.get?, hsame] using hpresent
      simp [Entries.insert, hsame, ih hkeys.2 hrest]

/-- Changing the first field of a name changes the field of that name. -/
theorem modifyField_eq_map {fields : List (Field Value)} (hnames : (fields.map Field.name).Nodup)
    (name : String) (f : Field Value → Field Value) :
    Record.modifyField.go name f fields =
      fields.map fun field => if field.name = name then f field else field := by
  induction fields with
  | nil => rfl
  | cons field rest ih =>
    rw [List.map_cons, List.nodup_cons] at hnames
    by_cases hsame : field.name = name
    · have hothers :
          rest.map (fun field => if field.name = name then f field else field) = rest := by
        refine (List.map_congr_left fun other hother => ?_).trans rest.map_id
        have hname : other.name ≠ name := by
          intro hname
          exact hnames.1 (List.mem_map.mpr ⟨other, hother, hname.trans hsame.symm⟩)
        rw [if_neg hname, id]
      simp [Record.modifyField.go, hsame, hothers]
    · simp [Record.modifyField.go, hsame, ih hnames.2]

/-- Replacing a child makes the new child of it and keeps the others. -/
theorem setChild_eq_rebuild (hvalue : value.HasDistinctSteps) {step : Step}
    (hpresent : (value.child? step).isSome = true) (new : Value) :
    value.setChild step new =
      value.rebuild fun other child => some (if other = step then new else child) := by
  cases value with
  | map entries =>
    cases step with
    | index position => simp [child?] at hpresent
    | key name =>
      have hpresent : Entries.contains entries name = true := hpresent
      rw [rebuild_map, setChild, if_pos hpresent, insert_eq_map hvalue hpresent]
      simp
  | record aggregate =>
    cases step with
    | index position => simp [child?] at hpresent
    | key name =>
      rcases Option.isSome_iff_exists.mp hpresent with ⟨old, hold⟩
      rcases Record.get?_eq_some_iff.mp hold with ⟨field, hfield, hexported, _⟩
      rw [rebuild_record, setChild, Record.setValue, Record.modifyField, modifyField_eq_map hvalue]
      congr 2
      refine List.map_congr_left fun other hother => ?_
      by_cases hsame : other.name = name
      · have hother : other = field := by
          have hfound := Record.field?_of_mem hvalue hother
          rw [hsame, hfield] at hfound
          exact (Option.some.inj hfound).symm
        simp [keepField, hother, hexported, hother ▸ hsame]
      · simp [keepField, hsame]
  | list sequence =>
    cases step with
    | key name => simp [child?] at hpresent
    | index position =>
      have hitems : sequence.items.setIfInBounds position new = sequence.items.mapIdx
          fun index item => if Step.index index = .index position then new else item := by
        ext index hindex
        · simp
        · rw [Array.getElem_setIfInBounds (by simpa using hindex)]
          simp [eq_comm]
      rw [rebuild_list, setChild, Sequence.set, hitems]
  | _ => simp [child?] at hpresent

end Keeping

end Value

end NestedData
