import NestedData.Access.Erase
import NestedData.Proofs.Access.Editing
import NestedData.Proofs.Value.Rebuild

/-!
# Deleting children

This module says what deletion does to the children of one container: all of them are
vacated, whatever order they are named in, except for fields that may not be written.
In a growable list the elements are removed together, so no position shifts under
another one.

Main results:

- `Sequence.toList_without`: the elements that are left in a sequence.
- `Value.vacate_vacate`: where no position shifts, children may be vacated one by one.
- `Action.eraseMembers_vacates`: deletion vacates the children that may be written.
-/

namespace NestedData

/-! ## Elements that are left -/

namespace Sequence

variable {α : Type}

/-- A position is marked when it is listed. -/
theorem getElem?_marks (indices : List Nat) (marks : Array Bool) (index : Nat) :
    (indices.foldl (fun marks index => marks.setIfInBounds index true) marks)[index]? =
      (marks[index]?).map fun mark => mark || decide (index ∈ indices) := by
  induction indices generalizing marks with
  | nil => simp
  | cons first rest ih =>
    rw [List.foldl_cons, ih, Array.getElem?_setIfInBounds]
    by_cases hsame : first = index
    · subst hsame
      by_cases hinside : first < marks.size
      · simp [hinside]
      · simp [hinside]
    · simp [hsame, Ne.symm hsame]

/-- The elements that are left are those whose positions are not listed. -/
theorem toList_without (sequence : Sequence α) (indices : List Nat) :
    (sequence.without indices).toList =
      sequence.items.toList.zipIdx.filterMap fun slot =>
        if slot.2 ∈ indices then none else some slot.1 := by
  have hmarks : (indices.foldl (fun marks index => marks.setIfInBounds index true)
      (Array.replicate sequence.size false)).toList =
      (List.range sequence.size).map fun index => decide (index ∈ indices) := by
    refine List.ext_getElem? fun index => ?_
    rw [Array.getElem?_toList, getElem?_marks, List.getElem?_map, Array.getElem?_replicate]
    by_cases hinside : index < sequence.size
    · rw [if_pos hinside, List.getElem?_range hinside]
      simp
    · rw [if_neg hinside, List.getElem?_eq_none (by simpa using hinside)]
      rfl
  have hzip : sequence.items.toList.zip (List.range sequence.size) =
      sequence.items.toList.zipIdx := by
    rw [List.zipIdx_eq_zip_range', List.range_eq_range']
    rfl
  simp only [without, Array.toList_filterMap, Array.toList_zip, hmarks]
  rw [List.zip_map_right, hzip, List.filterMap_map]
  refine List.filterMap_congr fun slot _ => ?_
  simp

/-- As many elements are removed as there are positions listed. -/
theorem size_without {sequence : Sequence α} {indices : List Nat} (hnodup : indices.Nodup)
    (hinside : ∀ index ∈ indices, index < sequence.size) :
    sequence.size - (sequence.without indices).size = indices.length := by
  have hlisted : ((List.range sequence.size).filter fun index => decide (index ∈ indices)).length =
      indices.length := by
    refine ((List.perm_ext_iff_of_nodup (List.nodup_range.filter _) hnodup).mpr ?_).length_eq
    intro index
    simp only [List.mem_filter, List.mem_range, decide_eq_true_eq]
    exact ⟨And.right, fun hmem => ⟨hinside index hmem, hmem⟩⟩
  have hleft : (sequence.without indices).size =
      ((List.range sequence.size).filter fun index => !decide (index ∈ indices)).length := by
    rw [← Array.length_toList, toList_without, List.length_filterMap_eq_countP,
      ← List.countP_eq_length_filter]
    have hpositions : List.range sequence.size =
        sequence.items.toList.zipIdx.map Prod.snd := by
      rw [List.zipIdx_map_snd, List.range_eq_range']
      rfl
    rw [hpositions, List.countP_map]
    congr 1
    funext slot
    by_cases hmem : slot.2 ∈ indices <;> simp [hmem]
  have htotal := List.length_eq_length_filter_add (l := List.range sequence.size)
    fun index => decide (index ∈ indices)
  rw [List.length_range] at htotal
  omega

end Sequence

/-! ## Vacating children -/

namespace Value

/-- Vacates children of a container: entries and elements of growable lists are removed,
fields and elements of lists of fixed length emptied. -/
def vacate (gone : Step → Bool) (value : Value) : Value :=
  value.rebuild fun step child => if gone step then none else some child

variable {value : Value} {gone : Step → Bool}

theorem vacate_nothing (value : Value) : value.vacate (fun _ => false) = value :=
  rebuild_id value

theorem vacate_map (entries : Entries Value) :
    (Value.map entries).vacate gone = .map (entries.filter fun entry => !gone (.key entry.1)) := by
  rw [vacate, rebuild, ← List.filterMap_eq_filter]
  congr 2
  funext entry
  by_cases hgone : gone (.key entry.1) <;> simp [hgone, Option.guard]

/-- What is left of a field when children are vacated. -/
def vacateField (gone : Step → Bool) (field : Field Value) : Field Value :=
  if field.exported && gone (.key field.name) then { field with value := field.value.zeroed }
  else field

@[simp]
theorem name_vacateField (field : Field Value) : (vacateField gone field).name = field.name := by
  unfold vacateField
  split <;> rfl

theorem vacate_record (aggregate : Record Value) :
    (Value.record aggregate).vacate gone =
      .record { aggregate with fields := aggregate.fields.map (vacateField gone) } := by
  rw [vacate, rebuild]
  congr 3
  funext field
  rcases field with ⟨name, value, exported, mutable⟩
  by_cases hgone : gone (.key name) <;> cases exported <;> simp [vacateField, hgone]

/-- The elements that are vacated are emptied in a list of fixed length. -/
theorem vacate_fixed (items : Array Value) :
    (Value.list (.fixed items)).vacate gone =
      .list (.fixed (items.mapIdx fun index item =>
        if gone (.index index) then item.zeroed else item)) := by
  have hitems : (items.toList.zipIdx.map fun slot =>
      (if gone (.index slot.2) then none else some slot.1).getD slot.1.zeroed).toArray =
      items.mapIdx fun index item => if gone (.index index) then item.zeroed else item := by
    rw [← Array.toList_inj, Array.toList_mapIdx, List.mapIdx_eq_zipIdx_map]
    refine List.map_congr_left fun slot _ => ?_
    by_cases hgone : gone (.index slot.2) <;> simp [hgone]
  rw [vacate, Sequence.fixed, rebuild, hitems]

/-- Where no position shifts, children may be vacated one after the other. -/
theorem vacate_vacate (hfixed : value.isGrowable = false) (first second : Step → Bool) :
    (value.vacate first).vacate second =
      value.vacate fun step => first step || second step := by
  refine rebuild_rebuild_of_fixed hfixed (fun step child hnone => ?_)
    fun step child remade hsome => ?_
  · cases hfirst : first step with
    | false => simp [hfirst] at hnone
    | true => cases hsecond : second step <;> simp [hfirst, hsecond]
  · cases hfirst : first step with
    | true => simp [hfirst] at hsome
    | false =>
      obtain rfl : child = remade := by simpa [hfirst] using hsome
      cases hsecond : second step <;> simp [hfirst, hsecond]

theorem isGrowable_vacate : (value.vacate gone).isGrowable = value.isGrowable := by
  cases value with
  | list sequence =>
    rcases sequence with ⟨extent, items⟩
    cases extent <;> rfl
  | _ => rfl

/-- Whether a field may be written does not change when children are vacated. -/
theorem isReadOnly_vacate (step : Step) :
    (value.vacate gone).isReadOnly step = value.isReadOnly step := by
  cases value with
  | record aggregate =>
    cases step with
    | index position => rfl
    | key name =>
      rw [vacate_record, isReadOnly, Record.field?_map name_vacateField, Option.any_map, isReadOnly]
      congr 1
      funext field
      simp only [vacateField]
      split <;> rfl
  | list sequence =>
    rcases sequence with ⟨extent, items⟩
    cases extent <;> rfl
  | _ => rfl

/-- The value under a key that is not vacated is still found. -/
theorem get?_filter {name : String} (hstays : gone (.key name) = false) (entries : Entries Value) :
    Entries.get? (entries.filter fun entry => !gone (.key entry.1)) name =
      Entries.get? entries name := by
  induction entries with
  | nil => rfl
  | cons entry rest ih =>
    rcases entry with ⟨key, value⟩
    by_cases hsame : key = name
    · simp [hsame, hstays, Entries.get?]
    · by_cases hgone : gone (.key key) <;> simp [hgone, Entries.get?, hsame, ih]

/-- The others are still there when children are vacated, where no position shifts. -/
theorem child?_vacate (hfixed : value.isGrowable = false) {step : Step}
    (hstays : gone step = false) : (value.vacate gone).child? step = value.child? step := by
  cases value with
  | map entries =>
    cases step with
    | index position => rfl
    | key name =>
      rw [vacate_map]
      exact get?_filter hstays entries
  | record aggregate =>
    cases step with
    | index position => rfl
    | key name =>
      rw [vacate_record]
      simp only [child?, Record.get?, Record.field?_map name_vacateField]
      cases hfield : aggregate.field? name with
      | none => rfl
      | some field =>
        have hstays : gone (.key field.name) = false := by
          rw [(Record.mem_of_field? hfield).2, hstays]
        simp [vacateField, hstays]
  | list sequence =>
    rcases sequence with ⟨extent, items⟩
    cases extent with
    | growable => cases hfixed
    | fixed =>
      have hlist : Value.list { extent := .fixed, items } = .list (.fixed items) := rfl
      rw [hlist, vacate_fixed]
      cases step with
      | key name => rfl
      | index position => simp [child?, Sequence.get?, Sequence.fixed, hstays]
  | _ => rfl

/-- Distinct keys and names stay distinct when children are vacated. -/
theorem HasDistinctSteps.vacate (hvalue : value.HasDistinctSteps) :
    (value.vacate gone).HasDistinctSteps := by
  cases value with
  | map entries =>
    rw [vacate_map]
    exact hvalue.sublist (List.filter_sublist.map _)
  | record aggregate =>
    rw [vacate_record]
    simpa [HasDistinctSteps, Record.names, Function.comp_def] using hvalue
  | list sequence =>
    rcases sequence with ⟨extent, items⟩
    cases extent <;> trivial
  | _ => trivial

end Value

/-! ## Deleting children one by one -/

namespace Action

open Value

variable {container : Value} {location : Location} {strict : Bool} {step : Step} {tally : Tally}

/-- Without a key, the others are left. -/
theorem erase_eq_filter {entries : Entries Value} (hkeys : (Entries.keys entries).Nodup)
    (name : String) :
    Entries.erase entries name = entries.filter fun entry => !decide (entry.1 = name) := by
  induction entries with
  | nil => rfl
  | cons entry rest ih =>
    rcases entry with ⟨key, value⟩
    rw [Entries.keys, List.map_cons, List.nodup_cons] at hkeys
    by_cases hsame : key = name
    · have hothers : rest.filter (fun entry => !decide (entry.1 = name)) = rest := by
        rw [List.filter_eq_self]
        intro entry hentry
        have hother : entry.1 ≠ name := by
          intro hother
          exact hkeys.1 (List.mem_map.mpr ⟨entry, hentry, hother.trans hsame.symm⟩)
        simpa using hother
      simp [Entries.erase, hsame, hothers]
    · simp [Entries.erase, hsame, ih hkeys.2]

/-- Where nothing can be removed, vacating a child is emptying it. -/
theorem setChild_zeroed_eq_vacate (hdistinct : container.HasDistinctSteps)
    (hmap : ∀ entries, container ≠ .map entries) (hfixed : container.isGrowable = false)
    {child : Value} (hchild : container.child? step = some child) :
    container.setChild step child.zeroed =
      container.vacate fun other => decide (other = step) := by
  have hvacate := rebuild_getD (f := fun other child =>
    if decide (other = step) then none else some child) hmap hfixed
  rw [setChild_eq_rebuild hdistinct (by rw [hchild]; rfl), vacate, hvacate]
  refine rebuild_congr fun other hother => ?_
  by_cases hsame : other.1 = step
  · have hfound := (mem_children_iff hdistinct).mp hother
    rw [hsame, hchild] at hfound
    rcases Option.some.inj hfound with rfl
    simp [hsame]
  · simp [hsame]

/-- What is gone after the deletion of a child is the child, or nothing if it may not be
written. -/
theorem gone_eq_ite (container : Value) (step : Step) :
    (fun other => decide (other = step) && !container.isReadOnly other) =
      if container.isReadOnly step then fun _ => false else fun other => decide (other = step) := by
  by_cases hreadOnly : container.isReadOnly step
  · rw [if_pos hreadOnly]
    funext other
    by_cases hsame : other = step <;> simp [hsame, hreadOnly]
  · rw [if_neg hreadOnly]
    funext other
    by_cases hsame : other = step <;> simp [hsame, hreadOnly]

/-- The deletion of a field vacates it, unless it may not be written. -/
theorem eraseMember_vacates_field {aggregate : Record Value} {name : String}
    (hdistinct : (Value.record aggregate).HasDistinctSteps)
    (hpresent : ((Value.record aggregate).child? (.key name)).isSome = true)
    (hok : (eraseMember location strict (.key name) (.record aggregate)).result = .ok tally) :
    (eraseMember location strict (.key name) (.record aggregate)).value =
        vacate (if isReadOnly (.record aggregate) (.key name) then fun _ => false
          else fun other => decide (other = .key name)) (.record aggregate) ∧
      tally.count = if isReadOnly (.record aggregate) (.key name) then 0 else 1 := by
  rcases Option.isSome_iff_exists.mp hpresent with ⟨child, hchild⟩
  rcases Record.get?_eq_some_iff.mp hchild with ⟨field, hfield, _, rfl⟩
  simp only [eraseMember, hfield] at hok ⊢
  cases hmutable : field.mutable with
  | true =>
    rw [hmutable] at hok
    rcases Except.ok.inj hok with rfl
    have hreadOnly : isReadOnly (.record aggregate) (.key name) = false := by
      simp [isReadOnly, hfield, hmutable]
    rw [hreadOnly]
    refine ⟨?_, rfl⟩
    exact setChild_zeroed_eq_vacate hdistinct (by simp) rfl hchild
  | false =>
    have hreadOnly : isReadOnly (.record aggregate) (.key name) = true := by
      simp [isReadOnly, hfield, hmutable]
    rw [hmutable] at hok
    cases strict with
    | true => cases hok
    | false =>
      rcases Except.ok.inj hok with rfl
      rw [hreadOnly]
      exact ⟨(vacate_nothing _).symm, rfl⟩

/-- The deletion of a child vacates it, unless it is a field that may not be written. -/
theorem eraseMember_vacates (hdistinct : container.HasDistinctSteps)
    (hfixed : container.isGrowable = false) (hpresent : (container.child? step).isSome = true)
    (hok : (eraseMember location strict step container).result = .ok tally) :
    (eraseMember location strict step container).value =
        container.vacate (fun other => decide (other = step) && !container.isReadOnly other) ∧
      tally.count = if container.isReadOnly step then 0 else 1 := by
  rw [gone_eq_ite]
  cases container with
  | map entries =>
    cases step with
    | index position => simp [child?] at hpresent
    | key name =>
      have hpresent : Entries.contains entries name = true := hpresent
      simp only [eraseMember, hpresent, if_true] at hok ⊢
      rcases Except.ok.inj hok with rfl
      refine ⟨?_, rfl⟩
      have hreadOnly : isReadOnly (.map entries) (.key name) = false := rfl
      rw [erase_eq_filter hdistinct, hreadOnly, if_neg Bool.false_ne_true, vacate_map]
      simp
  | record aggregate =>
    cases step with
    | index position => simp [child?] at hpresent
    | key name => exact eraseMember_vacates_field hdistinct hpresent hok
  | list sequence =>
    cases step with
    | key name => simp [child?] at hpresent
    | index position =>
      rcases Option.isSome_iff_exists.mp hpresent with ⟨item, hitem⟩
      have hget : sequence.get? position = some item := hitem
      simp only [eraseMember, hget] at hok ⊢
      rcases Except.ok.inj hok with rfl
      refine ⟨?_, rfl⟩
      exact setChild_zeroed_eq_vacate hdistinct (by simp) hfixed hitem
  | _ => simp [child?] at hpresent

/-- The deletion of children one by one vacates them, unless they are fields that may not
be written. -/
theorem sequence_eraseMember {steps : List Step} {before : Tally} {gone : Step → Bool}
    (hdistinct : container.HasDistinctSteps) (hfixed : container.isGrowable = false)
    (hsteps : steps.Nodup) (hpresent : ∀ step ∈ steps, (container.child? step).isSome = true)
    (hstays : ∀ step ∈ steps, gone step = false)
    (hok : (Edit.sequence steps (eraseMember location strict) before
      (container.vacate gone)).result = .ok tally) :
    (Edit.sequence steps (eraseMember location strict) before (container.vacate gone)).value =
        container.vacate (fun other =>
          gone other || (decide (other ∈ steps) && !container.isReadOnly other)) ∧
      tally.count =
        before.count + (steps.filter fun step => !container.isReadOnly step).length := by
  induction steps generalizing before gone with
  | nil =>
    rcases Except.ok.inj hok with rfl
    simp
  | cons step rest ih =>
    rcases List.nodup_cons.mp hsteps with ⟨hnotin, hrest⟩
    rcases Edit.sequence_cons_ok hok with ⟨done, hdone, hsequence⟩
    have hgrow : (container.vacate gone).isGrowable = false := by
      rw [isGrowable_vacate, hfixed]
    have hthere : ((container.vacate gone).child? step).isSome = true := by
      rw [child?_vacate hfixed (hstays step List.mem_cons_self)]
      exact hpresent step List.mem_cons_self
    rcases eraseMember_vacates hdistinct.vacate hgrow hthere hdone with ⟨hvalue, hcount⟩
    rw [vacate_vacate hfixed] at hvalue
    rw [hsequence, hvalue] at hok ⊢
    simp only [isReadOnly_vacate] at hok hcount ⊢
    have hpresentRest (other : Step) (hother : other ∈ rest) :
        (container.child? other).isSome = true :=
      hpresent other (List.mem_cons_of_mem _ hother)
    have hstaysRest (other : Step) (hother : other ∈ rest) :
        (gone other || (decide (other = step) && !container.isReadOnly other)) = false := by
      have hne : other ≠ step := by
        rintro rfl
        exact hnotin hother
      simp [hne, hstays other (List.mem_cons_of_mem _ hother)]
    rcases ih hrest hpresentRest hstaysRest hok with ⟨hafter, htally⟩
    constructor
    · rw [hafter]
      congr 1
      funext other
      cases gone other <;> cases container.isReadOnly other <;>
        by_cases hsame : other = step <;> simp [hsame]
    · rw [htally, Tally.add, hcount]
      cases hreadOnly : container.isReadOnly step <;> simp [hreadOnly]
      omega

/-- Steps to elements are positions. -/
theorem map_positionOf? {sequence : Sequence Value} {steps : List Step}
    (hpresent : ∀ step ∈ steps, (Value.child? (.list sequence) step).isSome = true) :
    (steps.filterMap positionOf?).map Step.index = steps := by
  induction steps with
  | nil => rfl
  | cons step rest ih =>
    have hrest := ih fun other hother => hpresent other (List.mem_cons_of_mem _ hother)
    cases step with
    | key name => simp [child?] at hpresent
    | index position => simp [positionOf?, hrest]

/-- Without the positions that steps lead to, the other elements are left. -/
theorem without_positionOf? {items : Array Value} {steps : List Step}
    (hpresent : ∀ step ∈ steps, (Value.child? (.list (.growable items)) step).isSome = true) :
    (Sequence.growable items).without (steps.filterMap positionOf?) =
      (items.toList.zipIdx.filterMap fun slot =>
        if decide (.index slot.2 ∈ steps) then none else some slot.1).toArray := by
  rw [← Array.toList_inj, Sequence.toList_without]
  refine List.filterMap_congr fun slot _ => ?_
  have hmem : slot.2 ∈ steps.filterMap positionOf? ↔ Step.index slot.2 ∈ steps := by
    rw [← List.mem_map_of_injective fun _ _ => Step.index.inj, map_positionOf? hpresent]
  simp [hmem]

/-- The deletion of elements of a growable list removes them all at once. -/
theorem eraseMembers_growable (location : Location) (strict : Bool) {items : Array Value}
    {steps : List Step} (hsteps : steps.Nodup)
    (hpresent : ∀ step ∈ steps, (Value.child? (.list (.growable items)) step).isSome = true) :
    eraseMembers location strict steps (.list (.growable items)) =
      { value := Value.vacate (fun other => decide (other ∈ steps)) (.list (.growable items))
        result := .ok { count := steps.length, matched := !steps.isEmpty } } := by
  have hmap := map_positionOf? hpresent
  have hcount : (Sequence.growable items).size -
      ((Sequence.growable items).without (steps.filterMap positionOf?)).size = steps.length := by
    rw [← congrArg List.length hmap, List.length_map]
    have hdistinct := List.Nodup.of_map Step.index (hmap ▸ hsteps)
    refine Sequence.size_without hdistinct fun position hmem => ?_
    have hthere := hpresent (.index position) (hmap ▸ List.mem_map_of_mem hmem)
    simpa [child?, Sequence.get?, Sequence.size] using hthere
  have hleft := without_positionOf? hpresent
  rw [hleft] at hcount
  simp only [eraseMembers, hleft, hcount]
  rfl

/-- The deletion of children vacates them, unless they are fields that may not be
written. -/
theorem eraseMembers_vacates {steps : List Step} (hdistinct : container.HasDistinctSteps)
    (hsteps : steps.Nodup) (hpresent : ∀ step ∈ steps, (container.child? step).isSome = true)
    (hok : (eraseMembers location strict steps container).result = .ok tally) :
    (eraseMembers location strict steps container).value =
        container.vacate (fun other => decide (other ∈ steps) && !container.isReadOnly other) ∧
      tally.count = (steps.filter fun step => !container.isReadOnly step).length := by
  have hone (hfixed : container.isGrowable = false)
      (hmembers : eraseMembers location strict steps container =
        Edit.sequence steps (eraseMember location strict) {} container) :
      (eraseMembers location strict steps container).value =
          container.vacate (fun other => decide (other ∈ steps) && !container.isReadOnly other) ∧
        tally.count = (steps.filter fun step => !container.isReadOnly step).length := by
    have hnothing := vacate_nothing container
    rw [hmembers, ← hnothing] at hok
    obtain ⟨hvalue, hcount⟩ := sequence_eraseMember hdistinct hfixed hsteps hpresent
      (fun _ _ => rfl) hok
    rw [hnothing] at hvalue
    rw [hmembers, hvalue, hcount]
    simp
  cases container with
  | list sequence =>
    rcases sequence with ⟨extent, items⟩
    cases extent with
    | fixed => exact hone rfl rfl
    | growable =>
      have hmembers := eraseMembers_growable location strict hsteps hpresent
      rw [Sequence.growable] at hmembers
      rw [hmembers] at hok ⊢
      rcases Except.ok.inj hok with rfl
      simp [isReadOnly]
  | _ => exact hone rfl rfl

/-! ## Following a path to delete -/

/-- A segment other than the root mark selects children, to delete them or to go on
from there. -/
theorem descend_erase_segment {segment : Segment} {rest : List Segment}
    (hsegment : segment ≠ .root)
    (arrive : Option (Location → Value → Edit)) (searching strict creating : Bool)
    (location : Location) (value : Value) :
    descend erase arrive searching strict creating (segment :: rest) location value =
      Edit.atTarget (fun target =>
        match Selection.select
            { operation := .delete, location, strict, create := false, searching }
            target segment with
        | .error error => .fail target error
        | .ok steps =>
          if arrive.isNone && rest.isEmpty then
            eraseMembers location (strict && !segment.isMultiValued) steps target
          else
            Edit.sequence steps (editChild none location
              (descend erase arrive false (strict && !segment.isMultiValued) true rest)) {} target)
        value := by
  cases segment with
  | root => exact absurd rfl hsegment
  | _ => cases creating <;> rfl

end Action

end NestedData
