import NestedData.Proofs.Access.Vacating

/-!
# Pruning a value

This module says what is left of a value when doomed places are deleted from it.  An
entry or an element of a growable list that is doomed is gone, and the others keep their
order; a doomed field or element of a list of fixed length is emptied where it stands.
Below a doomed place nothing is looked at.  Pruning is what deletion is measured by.

Main results:

- `prune_eq_rebuild`: pruning a container is a change of its children.
- `prune_congr`: only the doomed places below a value matter.
- `zeroed_prune`: pruning keeps what emptying would leave.
- `setChild_prune`: pruning one more child is replacing it by the pruned child.
-/

namespace NestedData

namespace Value

/-- What is left of a value when what stands at the doomed places is deleted; where one
doomed place lies below another, the outer one decides. -/
def prune (doomed : Location → Bool) : Value → Value
  | .ref referent => .ref (referent.prune doomed)
  | .map entries =>
    .map (entries.filterMap fun entry =>
      if doomed [.key entry.1] then none
      else some (entry.1, entry.2.prune fun rest => doomed (.key entry.1 :: rest)))
  | .record aggregate =>
    .record { aggregate with
      fields := aggregate.fields.map fun field =>
        if !field.exported then field
        else if doomed [.key field.name] then { field with value := field.value.zeroed }
        else { field with
          value := field.value.prune fun rest => doomed (.key field.name :: rest) } }
  | .list { extent := .growable, items } =>
    .list (.growable (items.toList.zipIdx.attach.filterMap fun ⟨(item, index), _⟩ =>
      if doomed [.index index] then none
      else some (item.prune fun rest => doomed (.index index :: rest))).toArray)
  | .list { extent := .fixed, items } =>
    .list (.fixed (items.toList.zipIdx.attach.map fun ⟨(item, index), _⟩ =>
      if doomed [.index index] then item.zeroed
      else item.prune fun rest => doomed (.index index :: rest)).toArray)
  | value => value
termination_by value => value
decreasing_by
  · decreasing_tactic
  · exact sizeOf_entry_lt ‹_›
  · exact sizeOf_field_lt ‹_›
  · exact sizeOf_item_lt (Array.mem_toList_iff.mp (List.fst_mem_of_mem_zipIdx ‹_›))
  · exact sizeOf_item_lt (Array.mem_toList_iff.mp (List.fst_mem_of_mem_zipIdx ‹_›))

/-- What pruning makes of a child. -/
def pruneChild (doomed : Location → Bool) (step : Step) (child : Value) : Option Value :=
  if doomed [step] then none else some (child.prune fun rest => doomed (step :: rest))

variable {value : Value} {doomed : Location → Bool}

/-- Pruning a container is a change of its children. -/
theorem prune_eq_rebuild (hvalue : value.target = value) :
    value.prune doomed = value.rebuild (pruneChild doomed) := by
  cases value with
  | ref referent => exact absurd hvalue (target_ne_ref _ _)
  | map entries =>
    rw [prune, rebuild]
    congr 2
    funext entry
    unfold pruneChild
    split <;> rfl
  | record aggregate =>
    rw [prune, rebuild]
    congr 3
    funext field
    unfold pruneChild
    cases field.exported <;> cases doomed [.key field.name] <;> rfl
  | list sequence =>
    rcases sequence with ⟨extent, items⟩
    cases extent with
    | growable =>
      rw [prune, rebuild]
      congr 3
      rw [List.filterMap_subtype (g := fun slot => pruneChild doomed (.index slot.2) slot.1)
        (fun _ _ => rfl), List.unattach_attach]
    | fixed =>
      rw [prune, rebuild]
      congr 3
      rw [List.map_subtype (g := fun slot =>
        (pruneChild doomed (.index slot.2) slot.1).getD slot.1.zeroed), List.unattach_attach]
      intro slot _
      cases hdoomed : doomed [.index slot.2] <;> simp [pruneChild, hdoomed]
  | _ => simp [prune, rebuild]

@[simp]
theorem prune_ref (referent : Value) :
    (Value.ref referent).prune doomed = .ref (referent.prune doomed) := by
  rw [prune]

theorem target_prune (value : Value) (doomed : Location → Bool) :
    (value.prune doomed).target = value.target.prune doomed := by
  induction value using induct with
  | ref referent ih => rw [prune_ref, target, ih, target]
  | _ =>
    rw [prune_eq_rebuild rfl, target_rebuild rfl, target, prune_eq_rebuild rfl]
    all_goals simp

theorem prune_eq_mapTarget (value : Value) (doomed : Location → Bool) :
    value.prune doomed = value.mapTarget fun target => target.prune doomed := by
  induction value using induct with
  | ref referent ih => rw [prune_ref, mapTarget, ih]
  | _ => rfl

theorem mapTarget_prune (value : Value) (doomed : Location → Bool) (new : Value) :
    (value.prune doomed).mapTarget (fun _ => new) = value.mapTarget fun _ => new := by
  induction value using induct with
  | ref referent ih => rw [prune_ref, mapTarget, ih, mapTarget]
  | _ => rw [mapTarget_of_target (by rw [target_prune]; rfl), mapTarget_of_target rfl]

/-- Only the doomed places below a value matter. -/
theorem prune_congr {other : Location → Bool} (value : Value)
    (hsame : ∀ location, location ≠ [] → doomed location = other location) :
    value.prune doomed = value.prune other := by
  induction value using induct_children generalizing doomed other with
  | hstep value ih =>
    rw [prune_eq_mapTarget, prune_eq_mapTarget value other]
    apply mapTarget_congr
    rw [prune_eq_rebuild (target_target value), prune_eq_rebuild (target_target value)]
    refine rebuild_congr fun child hchild => ?_
    rw [pruneChild, pruneChild, hsame [child.1] (List.cons_ne_nil _ _),
      ih child hchild fun rest _ => hsame (child.1 :: rest) (List.cons_ne_nil _ _)]

/-- Without doomed places nothing is deleted. -/
theorem prune_nothing (value : Value) : value.prune (fun _ => false) = value := by
  induction value using induct_children with
  | hstep value ih =>
    have htarget : value.target.prune (fun _ => false) = value.target := by
      rw [prune_eq_rebuild (target_target value)]
      refine (rebuild_congr fun child hchild => ?_).trans (rebuild_id _)
      rw [pruneChild, ih child hchild]
      rfl
    rw [prune_eq_mapTarget, mapTarget_eq_self htarget]

/-- Pruning keeps what emptying would leave. -/
@[simp]
theorem zeroed_prune (value : Value) (doomed : Location → Bool) :
    (value.prune doomed).zeroed = value.zeroed := by
  induction value using induct_children generalizing doomed with
  | hstep value ih =>
    by_cases hvalue : value.target = value
    · rw [prune_eq_rebuild hvalue]
      refine zeroed_rebuild fun child hchild remade hremade => ?_
      rw [← hvalue] at hchild
      unfold pruneChild at hremade
      split at hremade
      · cases hremade
      · rw [← Option.some.inj hremade, ih child hchild]
    · cases value with
      | ref referent => simp [zeroed]
      | _ => exact absurd rfl hvalue

/-! ## Pruning that keeps all children -/

/-- No child itself is doomed. -/
def SparesChildren (doomed : Location → Bool) : Prop :=
  ∀ step, doomed [step] = false

theorem prune_eq_rebuild_of_spares (hvalue : value.target = value)
    (hspares : SparesChildren doomed) :
    value.prune doomed =
      value.rebuild fun step child => some (child.prune fun rest => doomed (step :: rest)) := by
  rw [prune_eq_rebuild hvalue]
  refine rebuild_congr fun child _ => ?_
  simp [pruneChild, hspares child.1]

theorem child?_prune (hvalue : value.target = value) (hspares : SparesChildren doomed)
    (step : Step) :
    (value.prune doomed).child? step =
      (value.child? step).map fun child => child.prune fun rest => doomed (step :: rest) := by
  rw [prune_eq_rebuild_of_spares hvalue hspares, child?_rebuild]

theorem steps_prune (hvalue : value.target = value) (hspares : SparesChildren doomed)
    (segment : Segment) : segment.steps (value.prune doomed) = segment.steps value := by
  rw [prune_eq_rebuild_of_spares hvalue hspares, steps_rebuild]

/-- Pruning one more child is replacing it by the pruned child. -/
theorem setChild_prune {more : Location → Bool} {step : Step} {child : Value}
    (hdistinct : value.HasDistinctSteps) (htarget : value.target = value)
    (hchild : value.child? step = some child) (hspares : SparesChildren doomed)
    (hmore : SparesChildren more)
    (hothers : ∀ other, other ≠ step → ∀ rest, more (other :: rest) = doomed (other :: rest)) :
    (value.prune doomed).setChild step (child.prune fun rest => more (step :: rest)) =
      value.prune more := by
  rw [prune_eq_rebuild_of_spares htarget hspares, prune_eq_rebuild_of_spares htarget hmore]
  have hpresent : ((value.rebuild fun step child =>
      some (child.prune fun rest => doomed (step :: rest))).child? step).isSome = true := by
    rw [child?_rebuild, hchild]
    rfl
  rw [setChild_eq_rebuild hdistinct.rebuild hpresent,
    rebuild_rebuild fun _ _ => zeroed_prune _ _]
  refine rebuild_congr fun other hmem => ?_
  by_cases hsame : other.1 = step
  · have hother := (mem_children_iff hdistinct).mp hmem
    rw [hsame, hchild] at hother
    rw [if_pos hsame, Option.some.inj hother, hsame]
  · rw [if_neg hsame]
    congr 2
    funext rest
    exact (hothers other.1 hsame rest).symm

/-- Vacating children that are pruned already is pruning the children too. -/
theorem vacate_prune {gone : Step → Bool} {more : Location → Bool} (hvalue : value.target = value)
    (hspares : SparesChildren doomed) (hgone : ∀ step, more [step] = gone step)
    (hbelow : ∀ step rest, rest ≠ [] → more (step :: rest) = doomed (step :: rest)) :
    (value.prune doomed).vacate gone = value.prune more := by
  rw [prune_eq_rebuild_of_spares hvalue hspares, vacate,
    rebuild_rebuild fun _ _ => zeroed_prune _ _, prune_eq_rebuild hvalue]
  refine rebuild_congr fun child _ => ?_
  rw [pruneChild, hgone child.1,
    prune_congr child.2 fun rest hrest => (hbelow child.1 rest hrest).symm]

theorem HasDistinctSteps.prune (hdistinct : value.HasDistinctSteps) (hvalue : value.target = value)
    (hspares : SparesChildren doomed) : (value.prune doomed).HasDistinctSteps := by
  rw [prune_eq_rebuild_of_spares hvalue hspares]
  exact hdistinct.rebuild

theorem isReadOnly_prune (hvalue : value.target = value) (hspares : SparesChildren doomed)
    (step : Step) : (value.prune doomed).isReadOnly step = value.isReadOnly step := by
  rw [prune_eq_rebuild_of_spares hvalue hspares]
  exact isReadOnly_rebuild step

end Value

end NestedData
