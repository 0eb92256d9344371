import NestedData.Access.Assign
import NestedData.Proofs.Value.Places
import NestedData.Proofs.Value.Rebuild

/-!
# Overwriting places

This module says what is left of a value when another value is written at chosen places
inside it.  A reference that stands at a chosen place is written through, unless a
reference is written.  Below a chosen place nothing is looked at, so of two chosen places
one below the other the outer one decides.  No child is added or removed outside what is
written.

Main results:

- `assign_mapTarget`: a change inside a slot does not matter once the slot is written.
- `overwrite_eq_rebuild`: overwriting inside a container is a change of its children.
- `valueAt?_overwrite_of_chosen`: an outermost chosen place holds what was written.
- `valueAt?_overwrite_of_spared`: a place that is not below a chosen one is still there.
-/

namespace NestedData

namespace Value

variable {value slot new : Value}

/-! ## Writing into a slot -/

/-- What stands at the end of the references of a slot once a value has been written
through them: the value, and a reference to nothing is pointed at it. -/
def written (new : Value) : Value → Value
  | .nilRef => .ref new
  | _ => new

theorem assign_of_reference (hnew : new.isReference = true) (slot : Value) :
    slot.assign new = new := by
  simp [assign, hnew]

theorem assign_of_value (hnew : new.isReference = false) (slot : Value) :
    slot.assign new = slot.mapTarget (written new) := by
  rw [assign, hnew]
  cases slot <;> rfl

@[simp]
theorem target_assign (slot new : Value) : (slot.assign new).target = new.target := by
  cases hnew : new.isReference with
  | true => rw [assign_of_reference hnew]
  | false =>
    rw [assign_of_value hnew]
    induction slot using induct with
    | ref referent ih => rw [mapTarget, target, ih]
    | _ => rfl

/-- A change inside a slot does not matter once the slot is written, if it makes no
reference of what is none. -/
theorem assign_mapTarget {f : Value → Value}
    (hkept : slot.target = .nilRef → f slot.target = .nilRef)
    (hplain : slot.target ≠ .nilRef → (f slot.target).isReference = false) (new : Value) :
    (slot.mapTarget f).assign new = slot.assign new := by
  cases hnew : new.isReference with
  | true => rw [assign_of_reference hnew, assign_of_reference hnew]
  | false =>
    rw [assign_of_value hnew, assign_of_value hnew]
    have hend (target : Value) (hvalue : ∀ referent, target ≠ .ref referent)
        (hkept : target = .nilRef → f target = .nilRef)
        (hplain : target ≠ .nilRef → (f target).isReference = false) :
        (f target).mapTarget (written new) = written new target := by
      by_cases hnil : target = .nilRef
      · rw [hkept hnil, hnil]
        rfl
      · have hmade := hplain hnil
        have hwritten : written new target = new := by
          cases target <;> first | rfl | exact absurd rfl hnil
        rw [hwritten]
        cases hf : f target <;> first | rfl | simp [hf, isReference] at hmade
    induction slot using induct with
    | ref referent ih => rw [mapTarget, mapTarget, mapTarget, ih hkept hplain]
    | _ => exact hend _ (by simp) hkept hplain

theorem assign_assign (slot new : Value) : (slot.assign new).assign new = slot.assign new := by
  cases hnew : new.isReference with
  | true => rw [assign_of_reference hnew, assign_of_reference hnew]
  | false =>
    rw [assign_of_value hnew slot, assign_of_value hnew]
    induction slot using induct with
    | ref referent ih => rw [mapTarget, mapTarget, ih]
    | _ => cases new <;> first | rfl | cases hnew

/-! ## Changes that keep all children -/

/-- Two changes that keep all children are one. -/
theorem rebuild_keep_keep {first second : Step → Value → Value} :
    (value.rebuild fun step child => some (first step child)).rebuild
        (fun step child => some (second step child)) =
      value.rebuild fun step child => some (second step (first step child)) := by
  cases value with
  | map entries => simp [rebuild]
  | record aggregate =>
    simp only [rebuild, List.map_map, record.injEq, Record.mk.injEq, true_and]
    refine List.map_congr_left fun field _ => ?_
    cases hexported : field.exported <;> simp [hexported]
  | list sequence =>
    rcases sequence with ⟨extent, items⟩
    cases extent with
    | growable => simp [rebuild, Sequence.growable, zipIdx_map_zipIdx]
    | fixed => simp [rebuild, Sequence.fixed, zipIdx_map_zipIdx, Function.comp_def]
  | _ => rfl

/-- A change that keeps all children changes each of them. -/
theorem children_rebuild_keep {keep : Step → Value → Value} (value : Value) :
    (value.rebuild fun step child => some (keep step child)).children =
      value.children.map fun child => (child.1, keep child.1 child.2) := by
  cases value with
  | map entries => simp [rebuild_map, children, Function.comp_def]
  | record aggregate =>
    have hexported : Field.exported ∘ keepField keep = Field.exported := by
      funext field
      simp only [keepField, Function.comp_apply]
      split <;> rfl
    simp only [rebuild_record, children, Record.exportedFields, List.filter_map, hexported,
      List.map_map]
    refine List.map_congr_left fun field hfield => ?_
    have hshown : field.exported = true := by simpa using List.of_mem_filter hfield
    simp [keepField, hshown]
  | list sequence =>
    rw [rebuild_list, children, children, Array.toList_mapIdx, List.mapIdx_eq_zipIdx_map,
      zipIdx_map_zipIdx, List.map_map, List.map_map]
    rfl
  | _ => rfl

/-- The steps to the children of a container, in order. -/
def steps (value : Value) : List Step :=
  value.children.map Prod.fst

theorem steps_rebuild_keep {keep : Step → Value → Value} :
    (value.rebuild fun step child => some (keep step child)).steps = value.steps := by
  simp [steps, children_rebuild_keep, Function.comp_def]

/-! ## Overwriting -/

/-- What a value becomes when another one is written at the chosen places inside it; where
one chosen place lies below another, the outer one decides. -/
def overwrite (value new : Value) (chosen : Location → Bool) : Value :=
  match value with
  | .ref referent => .ref (referent.overwrite new chosen)
  | .map entries =>
    .map (entries.map fun entry =>
      (entry.1, if chosen [.key entry.1] then entry.2.assign new
        else entry.2.overwrite new fun rest => chosen (.key entry.1 :: rest)))
  | .record aggregate =>
    .record { aggregate with
      fields := aggregate.fields.map fun field =>
        if !field.exported then field
        else if chosen [.key field.name] then { field with value := field.value.assign new }
        else { field with
          value := field.value.overwrite new fun rest => chosen (.key field.name :: rest) } }
  | .list sequence =>
    .list { sequence with
      items := (sequence.items.toList.zipIdx.attach.map fun ⟨(item, index), _⟩ =>
        if chosen [.index index] then item.assign new
        else item.overwrite new fun rest => chosen (.index index :: rest)).toArray }
  | value => value
termination_by value
decreasing_by
  · decreasing_tactic
  · exact sizeOf_entry_lt ‹_›
  · exact sizeOf_field_lt ‹_›
  · exact sizeOf_item_lt (Array.mem_toList_iff.mp (List.fst_mem_of_mem_zipIdx ‹_›))

/-- What overwriting makes of a child. -/
def overwriteChild (new : Value) (chosen : Location → Bool) (step : Step) (child : Value) : Value :=
  if chosen [step] then child.assign new
  else child.overwrite new fun rest => chosen (step :: rest)

variable {chosen : Location → Bool}

/-- Overwriting inside a container is a change of its children. -/
theorem overwrite_eq_rebuild (hvalue : value.target = value) :
    value.overwrite new chosen =
      value.rebuild fun step child => some (overwriteChild new chosen step child) := by
  cases value with
  | ref referent => exact absurd hvalue (target_ne_ref _ _)
  | map entries => rw [overwrite, rebuild_map]; rfl
  | record aggregate =>
    rw [overwrite, rebuild_record]
    congr 3
    funext field
    unfold keepField overwriteChild
    cases field.exported <;> cases chosen [.key field.name] <;> rfl
  | list sequence =>
    rw [overwrite, rebuild_list]
    congr 2
    rw [List.map_subtype (g := fun slot => overwriteChild new chosen (.index slot.2) slot.1)
      (fun _ _ => rfl), List.unattach_attach, ← Array.toList_inj, Array.toList_mapIdx,
      List.mapIdx_eq_zipIdx_map]
  | _ => simp [overwrite, rebuild]

@[simp]
theorem overwrite_ref (referent : Value) :
    (Value.ref referent).overwrite new chosen = .ref (referent.overwrite new chosen) := by
  rw [overwrite]

theorem target_overwrite (value new : Value) (chosen : Location → Bool) :
    (value.overwrite new chosen).target = value.target.overwrite new chosen := by
  induction value using induct with
  | ref referent ih => rw [overwrite_ref, target, ih, target]
  | _ =>
    rw [overwrite_eq_rebuild rfl, target_rebuild rfl, target, overwrite_eq_rebuild rfl]
    all_goals simp

theorem overwrite_eq_mapTarget (value new : Value) (chosen : Location → Bool) :
    value.overwrite new chosen = value.mapTarget fun target => target.overwrite new chosen := by
  induction value using induct with
  | ref referent ih => rw [overwrite_ref, mapTarget, ih]
  | _ => rfl

/-- Only the chosen places inside a value matter. -/
theorem overwrite_congr {other : Location → Bool} (value : Value)
    (hsame : ∀ location, location ≠ [] → chosen location = other location) :
    value.overwrite new chosen = value.overwrite new other := by
  induction value using induct_children generalizing chosen other with
  | hstep value ih =>
    rw [overwrite_eq_mapTarget, overwrite_eq_mapTarget value _ other]
    apply mapTarget_congr
    rw [overwrite_eq_rebuild (target_target value), overwrite_eq_rebuild (target_target value)]
    refine rebuild_congr fun child hchild => ?_
    rw [overwriteChild, overwriteChild, hsame [child.1] (List.cons_ne_nil _ _),
      ih child hchild fun rest _ => hsame (child.1 :: rest) (List.cons_ne_nil _ _)]

/-- Where no place is chosen, nothing is overwritten. -/
theorem overwrite_nothing (value : Value)
    (hnothing : ∀ location, location ≠ [] → chosen location = false) :
    value.overwrite new chosen = value := by
  induction value using induct_children generalizing chosen with
  | hstep value ih =>
    have htarget : value.target.overwrite new chosen = value.target := by
      rw [overwrite_eq_rebuild (target_target value)]
      refine (rebuild_congr fun child hchild => ?_).trans (rebuild_id _)
      rw [overwriteChild, hnothing [child.1] (List.cons_ne_nil _ _),
        ih child hchild fun rest _ => hnothing (child.1 :: rest) (List.cons_ne_nil _ _)]
      rfl
    rw [overwrite_eq_mapTarget, mapTarget_eq_self htarget]

/-- What has been overwritten inside does not matter once the whole is written. -/
theorem assign_overwrite (value new : Value) (chosen : Location → Bool) :
    (value.overwrite new chosen).assign new = value.assign new := by
  rw [overwrite_eq_mapTarget]
  refine assign_mapTarget (fun hnil => ?_) (fun hvalue => ?_) new
  · rw [hnil]
    simp [overwrite]
  · rw [overwrite_eq_rebuild (target_target value)]
    have hplain := target_ne_ref value
    cases htarget : value.target with
    | ref referent => exact absurd htarget (hplain referent)
    | nilRef => exact absurd htarget hvalue
    | list sequence => rw [rebuild_list]; rfl
    | _ => rfl

/-- What has been overwritten at some places does not matter once these and others are. -/
theorem overwrite_overwrite {later : Location → Bool} (value : Value)
    (hchosen : ∀ location, chosen location = true → later location = true) :
    (value.overwrite new chosen).overwrite new later = value.overwrite new later := by
  induction value using induct_children generalizing chosen later with
  | hstep value ih =>
    have htarget : (value.target.overwrite new chosen).overwrite new later =
        value.target.overwrite new later := by
      have hvalue := target_target value
      rw [overwrite_eq_rebuild hvalue, overwrite_eq_rebuild (target_rebuild hvalue),
        overwrite_eq_rebuild hvalue, rebuild_keep_keep]
      refine rebuild_congr fun child hchild => congrArg some ?_
      cases hlater : later [child.1] with
      | true =>
        simp only [overwriteChild, hlater, if_true]
        split
        · exact assign_assign child.2 new
        · exact assign_overwrite child.2 new _
      | false =>
        have hfirst : chosen [child.1] = false := by
          by_contra hfirst
          have hboth := hchosen [child.1] (eq_true_of_ne_false hfirst)
          simp [hlater] at hboth
        simp only [overwriteChild, hlater, hfirst, Bool.false_eq_true, if_false]
        exact ih child hchild fun rest => hchosen (child.1 :: rest)
    clear ih
    induction value using induct with
    | ref referent ih => rw [overwrite_ref, overwrite_ref, ih htarget, overwrite_ref]
    | _ => exact htarget

/-- Writing a well-formed value into a slot leaves a well-formed one. -/
theorem WellFormed.assign (hnew : new.WellFormed) (slot : Value) :
    (slot.assign new).WellFormed := by
  cases hreference : new.isReference with
  | true => rwa [assign_of_reference hreference]
  | false =>
    rw [assign_of_value hreference]
    induction slot using induct with
    | ref referent ih => exact .ref ih
    | nilRef => exact .ref hnew
    | _ => exact hnew

/-- Overwriting places with a well-formed value leaves a well-formed one. -/
theorem WellFormed.overwrite (hvalue : value.WellFormed) (hnew : new.WellFormed)
    (chosen : Location → Bool) : (value.overwrite new chosen).WellFormed := by
  have hchild {step : Step} {child : Value} {chosen : Location → Bool}
      (ih : ∀ chosen, (child.overwrite new chosen).WellFormed) :
      (overwriteChild new chosen step child).WellFormed := by
    unfold overwriteChild
    split
    · exact hnew.assign child
    · exact ih _
  induction hvalue generalizing chosen with
  | ref hreferent ih =>
    rw [overwrite_ref]
    exact .ref (ih chosen)
  | @map entries hkeys hvalues ih =>
    rw [overwrite_eq_rebuild rfl, rebuild_map, wellFormed_map_iff]
    constructor
    · simpa [Entries.keys, Function.comp_def] using hkeys
    · intro entry hentry
      obtain ⟨old, hold, rfl⟩ := List.mem_map.mp hentry
      exact hchild (ih old hold)
  | @record aggregate hnames hvalues ih =>
    rw [overwrite_eq_rebuild rfl, rebuild_record, wellFormed_record_iff]
    constructor
    · simpa [Record.names, Function.comp_def] using hnames
    · intro field hfield
      obtain ⟨old, hold, rfl⟩ := List.mem_map.mp hfield
      unfold keepField
      split
      · exact hchild (ih old hold)
      · exact hvalues old hold
  | @list sequence hitems ih =>
    rw [overwrite_eq_rebuild rfl, rebuild_list, wellFormed_list_iff]
    intro item hitem
    obtain ⟨index, hindex, rfl⟩ := Array.mem_mapIdx.mp hitem
    exact hchild (ih _ (Array.getElem_mem hindex))
  | _ => simp [Value.overwrite]

/-! ## What is at a place afterwards -/

theorem child?_overwrite (value new : Value) (chosen : Location → Bool) (step : Step) :
    (value.overwrite new chosen).target.child? step =
      (value.target.child? step).map (overwriteChild new chosen step) := by
  rw [target_overwrite, overwrite_eq_rebuild (target_target value), child?_rebuild]

/-- A place that is neither chosen nor below a chosen place is still there, and what is at
it is overwritten at the places chosen inside it. -/
theorem valueAt?_overwrite_of_spared {location : Location}
    (hspared : ∀ other, other ≠ [] → other <+: location → chosen other = false) :
    (value.overwrite new chosen).valueAt? location =
      (value.valueAt? location).map
        fun found => found.overwrite new fun rest => chosen (location ++ rest) := by
  induction location generalizing value chosen with
  | nil => simp [valueAt?, target_overwrite]
  | cons step rest ih =>
    have hstep : chosen [step] = false :=
      hspared [step] (List.cons_ne_nil _ _) (by simp)
    simp only [valueAt?, child?_overwrite]
    cases value.target.child? step with
    | none => rfl
    | some child =>
      rw [Option.map_some, Option.bind_some, Option.bind_some, overwriteChild, hstep,
        if_neg Bool.false_ne_true, ih]
      · rfl
      · intro other _ hbegins
        exact hspared (step :: other) (List.cons_ne_nil _ _) (by simpa using hbegins)

/-- A place that neither is chosen nor lies below or above a chosen place holds what it
held. -/
theorem valueAt?_overwrite_of_apart {location : Location}
    (hspared : ∀ other, other ≠ [] → other <+: location → chosen other = false)
    (hinside : ∀ other, location <+: other → chosen other = false) :
    (value.overwrite new chosen).valueAt? location = value.valueAt? location := by
  rw [valueAt?_overwrite_of_spared hspared]
  cases value.valueAt? location with
  | none => rfl
  | some found =>
    rw [Option.map_some, overwrite_nothing found fun rest _ => hinside _ (List.prefix_append _ _)]

/-- An outermost chosen place holds what was written. -/
theorem valueAt?_overwrite_of_chosen {location : Location} (hlocation : location ≠ [])
    (hthere : (value.valueAt? location).isSome = true) (hchosen : chosen location = true)
    (houtermost : ∀ other, other ≠ [] → other <+: location → other ≠ location →
      chosen other = false) :
    (value.overwrite new chosen).valueAt? location = some new.target := by
  obtain ⟨above, step, rfl⟩ := (List.eq_nil_or_concat' location).resolve_left hlocation
  rw [valueAt?_append] at hthere
  rw [valueAt?_append, valueAt?_overwrite_of_spared]
  · cases habove : value.valueAt? above with
    | none => simp [habove] at hthere
    | some container =>
      rw [habove, Option.bind_some] at hthere
      rw [Option.map_some, Option.bind_some]
      cases hchild : container.target.child? step with
      | none => simp [valueAt?, hchild] at hthere
      | some child => simp [valueAt?, child?_overwrite, hchild, overwriteChild, hchosen]
  · intro other hother hbegins
    refine houtermost other hother (hbegins.trans (List.prefix_append _ _)) ?_
    rintro rfl
    have hlength := hbegins.length_le
    rw [List.length_append, List.length_singleton] at hlength
    omega

theorem steps_overwrite (hvalue : value.target = value) :
    (value.overwrite new chosen).steps = value.steps := by
  rw [overwrite_eq_rebuild hvalue, steps_rebuild_keep]

end Value

end NestedData
