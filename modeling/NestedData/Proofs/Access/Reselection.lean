import NestedData.Proofs.Access.Growing

/-!
# Selecting from what has grown

This module compares what an assignment selects from a container with what is selected
from the container once room has been made for it.  The two agree, unless a slice counts
its start from the end of a list that its own stop extends, or a list is longer than it
could have grown.

Main results:

- `mem_sliceIndices_of_steady`: a slice whose start stays where it is selects the same
  positions of a list as of a longer one, as far as its stop lies beyond both.
- `Selection.mem_steps_of_grown`: the children of a container that has grown are picked
  when they were selected.
- `Selection.steadyOn_of_grown`: a slice stays steady on a container that grows by what it takes.
- `Selection.select_of_reworked`: a visit of a container that has been reworked picks what was
  selected, without a fault.
-/

namespace NestedData

/-! ## Slices of lists that grow -/

/-- A slice picks the same of a list, however far it has extended the list: it does not
extend the list, or the list is no longer than it could have grown and a start that is counted
from the end comes before the beginning even if the end is moved as far as it can be. -/
def Segment.SteadyOn : Segment → Value → Prop
  | .slice start (some stop) _, .list sequence =>
    sequence.canGrow = true → (sequence.size : Int) < stop.toInt →
      sequence.size ≤ growthLimit ∧ ∀ first, start = some first → first.toInt < 0 →
        first.toInt + min stop.toInt growthLimit ≤ 0
  | _, _ => True

theorem Segment.steadyOn_of_single {segment : Segment} (hsingle : segment.isMultiValued = false)
    (container : Value) : segment.SteadyOn container := by
  cases segment with
  | slice start stop width => cases hsingle
  | _ => trivial

/-- A slice whose start is not counted from the end, or from before the beginning, selects
the same positions of a list as it does of a longer one, as far as its stop lies beyond
both. -/
theorem mem_sliceIndices_of_steady {start width : Option Int64} {stop : Int64}
    {short long position : Nat}
    (hsteady : ∀ first, start = some first → first.toInt < 0 → first.toInt + long ≤ 0)
    (hposition : position < short) (hlength : short ≤ long) (hstop : (long : Int) ≤ stop.toInt) :
    position ∈ sliceIndices start (some stop) width short ↔
      position ∈ sliceIndices start (some stop) width long := by
  have hmost := Int64.toInt_lt stop
  have hcounted (length : Nat) (hle : length ≤ long) : countedLength length = length := by
    rw [countedLength]
    omega
  have hend (length : Nat) (hle : length ≤ long) : sliceStop (some stop) length = length := by
    simp only [sliceStop, resolveBound, Option.map_some, Option.getD_some]
    split <;> omega
  rw [mem_sliceIndices_iff, mem_sliceIndices_iff, hcounted short hlength,
    hcounted long (Nat.le_refl _),
    hend short hlength, hend long (Nat.le_refl _)]
  cases start with
  | none =>
    simp only [sliceStart, Option.map_none, Option.getD_none]
    omega
  | some start =>
    simp only [sliceStart, resolveBound, Option.map_some, Option.getD_some]
    by_cases hnegative : start.toInt < 0
    · have hbound := hsteady start rfl hnegative
      have hshort : max ((short : Int) + start.toInt) 0 = 0 := by omega
      have hlong : max ((long : Int) + start.toInt) 0 = 0 := by omega
      rw [if_pos hnegative, if_pos hnegative, hshort, hlong]
      omega
    · rw [if_neg hnegative, if_neg hnegative]
      by_cases hinside : start.toInt < short
      · have hshort : min start.toInt (short : Int) = start.toInt := by omega
        have hlong : min start.toInt (long : Int) = start.toInt := by omega
        rw [hshort, hlong]
        omega
      · omega

namespace Selection

open Value

variable {selection : Selection} {segment : Segment} {container after : Value}
  {steps : List Step} {step : Step}

/-! ## There is room for what is selected -/

/-- An entry that is selected can be added. -/
theorem takes_of_select_map {entries : Entries Value}
    (hselect : selection.select (.map entries) segment = .ok steps) (hstep : step ∈ steps) :
    (Value.map entries).Takes step := by
  have hkey (hone : ∃ name, step = .key name) : (Value.map entries).Takes step := by
    obtain ⟨name, rfl⟩ := hone
    trivial
  have hentry (name : String) (hone : selection.selectEntry entries name = .ok steps) :
      (Value.map entries).Takes step := by
    unfold selectEntry at hone
    split at hone
    · rw [← Except.ok.inj hone, List.mem_singleton] at hstep
      exact hkey ⟨name, hstep⟩
    · rw [eq_nil_of_miss hone] at hstep
      cases hstep
  cases segment with
  | key name => exact hentry name hselect
  | index position => exact hentry _ hselect
  | wildcard =>
    rw [← Except.ok.inj hselect] at hstep
    obtain ⟨name, _, rfl⟩ := List.mem_map.mp hstep
    trivial
  | union selectors =>
    rw [← Except.ok.inj hselect] at hstep
    obtain ⟨name, _, rfl⟩ := List.mem_map.mp hstep
    trivial
  | _ =>
    rw [eq_nil_of_miss hselect] at hstep
    cases hstep

/-- A field that is selected has a value, if no two fields share a name or the fields are
not selected all at once. -/
theorem takes_of_select_record {aggregate : Record Value}
    (hdistinct : segment = .wildcard → aggregate.names.Nodup)
    (hselect : selection.select (.record aggregate) segment = .ok steps) (hstep : step ∈ steps) :
    (Value.record aggregate).Takes step := by
  rw [← steps_of_select_record hselect, Segment.steps_record] at hstep
  cases segment with
  | key name =>
    simp only [List.mem_ite_nil_right, List.mem_singleton] at hstep
    rw [hstep.2]
    exact hstep.1
  | wildcard =>
    obtain ⟨field, hfield, rfl⟩ := List.mem_map.mp hstep
    obtain ⟨hmem, hexported⟩ := List.mem_filter.mp hfield
    have hget := Record.get?_eq_some_iff.mpr
      ⟨field, Record.field?_of_mem (hdistinct rfl) hmem, hexported, rfl⟩
    exact Option.isSome_iff_exists.mpr ⟨_, hget⟩
  | union selectors =>
    obtain ⟨selector, _, hfield⟩ := List.mem_filterMap.mp hstep
    cases selector with
    | index position => cases hfield
    | key name =>
      obtain ⟨value, hvalue, rfl⟩ := Option.map_eq_some_iff.mp hfield
      exact Option.isSome_iff_exists.mpr ⟨value, hvalue⟩
  | _ => cases hstep

/-- A position that is selected can be reached. -/
theorem takes_of_select_list {sequence : Sequence Value}
    (hselect : selection.select (.list sequence) segment = .ok steps) (hstep : step ∈ steps) :
    (Value.list sequence).Takes step := by
  have hreached {position : Nat} (hreaches : selection.reaches sequence position = true) :
      (Value.list sequence).Takes (.index position) := by
    simp only [reaches, mayGrow, Bool.or_eq_true, Bool.and_eq_true, decide_eq_true_eq] at hreaches
    exact hreaches.imp_right fun hgrows => ⟨hgrows.1.2, hgrows.2⟩
  cases segment with
  | index position =>
    simp only [select, selectInList] at hselect
    split at hselect
    · rw [← Except.ok.inj hselect, List.mem_singleton] at hstep
      exact hstep ▸ hreached ‹_›
    · have hnothing : steps = [] := by
        split at hselect <;> exact eq_nil_of_miss hselect
      rw [hnothing] at hstep
      cases hstep
  | wildcard =>
    rw [← Except.ok.inj hselect] at hstep
    obtain ⟨position, hposition, rfl⟩ := List.mem_map.mp hstep
    exact .inl (List.mem_range.mp hposition)
  | union selectors =>
    rw [← Except.ok.inj hselect] at hstep
    obtain ⟨selector, _, hposition⟩ := List.mem_filterMap.mp hstep
    cases selector with
    | key name => cases hposition
    | index position =>
      simp only [positionOf?, Option.ite_none_right_eq_some] at hposition
      exact Option.some.inj hposition.2 ▸ hreached hposition.1
  | slice start stop width =>
    rw [← Except.ok.inj hselect] at hstep
    obtain ⟨position, hposition, rfl⟩ := List.mem_map.mp hstep
    exact hreached (List.mem_filter.mp hposition).2
  | key name =>
    rw [eq_nil_of_miss hselect] at hstep
    cases hstep
  | root =>
    rw [← Except.ok.inj hselect] at hstep
    cases hstep

/-- There is a child where a selected step leads, or room can be made for one. -/
theorem takes_of_select (hdistinct : segment = .wildcard → container.HasDistinctSteps)
    (hselect : selection.select container segment = .ok steps) (hstep : step ∈ steps) :
    container.Takes step := by
  cases container with
  | map entries => exact takes_of_select_map hselect hstep
  | record aggregate => exact takes_of_select_record hdistinct hselect hstep
  | list sequence => exact takes_of_select_list hselect hstep
  | _ =>
    rw [eq_nil_of_miss hselect] at hstep
    cases hstep

/-- On its only way a segment for one child selects one, which is there or has room. -/
theorem exists_takes_of_single (hstrict : selection.strict = true)
    (hsearching : selection.searching = false) (hsegment : segment ≠ .root)
    (hsingle : segment.isMultiValued = false)
    (hselect : selection.select container segment = .ok steps) :
    ∃ step, steps = [step] ∧ container.Takes step := by
  obtain ⟨step, rfl, _⟩ :=
    Visit.exists_step_of_single hstrict hsearching hsegment hsingle hselect
  refine ⟨step, rfl, takes_of_select (fun hwildcard => ?_) hselect List.mem_cons_self⟩
  rw [hwildcard] at hsingle
  cases hsingle

/-! ## What is picked was selected -/

/-- The entries of a map that has grown are picked when they were selected. -/
theorem mem_steps_of_grown_map {entries grown : Entries Value} (hcreate : selection.create = true)
    (hselect : selection.select (.map entries) segment = .ok steps)
    (hgrown : GrownBy steps (.map entries) (.map grown))
    (hpresent : ((Value.map grown).child? step).isSome = true) :
    step ∈ segment.steps (.map grown) ↔ step ∈ steps := by
  have hentry (name : String) (hone : selection.selectEntry entries name = .ok steps) :
      steps = [.key name] := by
    rw [selectEntry, hcreate, Bool.true_or, if_pos rfl] at hone
    exact (Except.ok.inj hone).symm
  rw [Segment.mem_steps_map_iff]
  unfold Segment.Selects
  rw [and_iff_right hpresent]
  cases segment with
  | key name =>
    rw [hentry name hselect, List.mem_singleton]
    exact Segment.names_map_iff
  | index position =>
    rw [hentry _ hselect, List.mem_singleton]
    exact Segment.names_map_iff
  | wildcard =>
    refine iff_of_true trivial ?_
    cases step with
    | index position => simp [child?] at hpresent
    | key name =>
      rcases hgrown name hpresent with hbefore | hmem
      · rw [← Except.ok.inj hselect]
        exact List.mem_map_of_mem ((Entries.contains_iff_mem_keys _ _).mp hbefore)
      · exact hmem
  | union selectors =>
    simp only [select, selectInMap, hcreate, Bool.true_or, List.filter_true] at hselect
    simp only [← Except.ok.inj hselect, Segment.names_map_iff, List.mem_map,
      exists_exists_and_eq_and]
    exact exists_congr fun _ => and_congr_right fun _ => eq_comm
  | _ =>
    rw [eq_nil_of_miss hselect]
    simp

theorem steps_of_grown_record {aggregate grown : Record Value}
    (hselect : selection.select (.record aggregate) segment = .ok steps)
    (hgrown : GrownBy steps (.record aggregate) (.record grown)) :
    segment.steps (.record grown) = steps := by
  rw [steps_of_declarations hgrown.2, steps_of_select_record hselect]

/-- A list that has grown ends no later than with a position that was reached, if those
selected were. -/
theorem reaches_of_grown (selection : Selection) (position : Nat)
    {sequence grown : Sequence Value}
    (hgrown : GrownBy steps (.list sequence) (.list grown))
    (hreached : ∀ other, .index other ∈ steps → selection.reaches sequence other = true)
    (hposition : position < grown.size) : selection.reaches sequence position = true := by
  obtain ⟨_, _, hlast⟩ := hgrown
  simp only [reaches, Bool.or_eq_true, decide_eq_true_eq, Bool.and_eq_true] at hreached ⊢
  rcases hlast with hsame | ⟨last, hmem, hsame⟩
  · omega
  · rcases hreached last hmem with hinside | ⟨hgrows, hlimit⟩
    · omega
    · exact .inr ⟨hgrows, by omega⟩

/-- Against the length that a slice is resolved against, it selects the same positions as
against the length that the list has grown to. -/
theorem mem_sliceIndices_of_grown {sequence grown : Sequence Value}
    {start stop width : Option Int64}
    {position : Nat} (hsteady : (Segment.slice start stop width).SteadyOn (.list sequence))
    (hsize : sequence.size ≤ grown.size)
    (hspan : grown.size = sequence.size ∨ grown.size ≤ selection.sliceLength sequence stop)
    (hposition : position < grown.size) :
    position ∈ sliceIndices start stop width grown.size ↔
      position ∈ sliceIndices start stop width (selection.sliceLength sequence stop) := by
  have hsame (hlength : selection.sliceLength sequence stop = sequence.size) :
      position ∈ sliceIndices start stop width grown.size ↔
        position ∈ sliceIndices start stop width (selection.sliceLength sequence stop) := by
    have hgrown : grown.size = sequence.size := by omega
    rw [hlength, hgrown]
  cases stop with
  | none => exact hsame rfl
  | some stop =>
    unfold sliceLength at hsame hspan ⊢
    by_cases hextends : (selection.mayGrow sequence && decide (sequence.size < stop.toInt)) = true
    · simp only [hextends, if_true] at hspan ⊢
      rw [Bool.and_eq_true, mayGrow, Bool.and_eq_true, decide_eq_true_eq] at hextends
      obtain ⟨hlimit, hstart⟩ := hsteady hextends.1.2 hextends.2
      refine mem_sliceIndices_of_steady (fun first hfirst hnegative => ?_) hposition ?_ ?_
      · have := hstart first hfirst hnegative
        omega
      · omega
      · omega
    · exact hsame (by simp only [hextends]; rfl)

/-- The elements of a list that has grown are picked when they were selected. -/
theorem mem_steps_of_grown_list {sequence grown : Sequence Value}
    (hsteady : segment.SteadyOn (.list sequence))
    (hselect : selection.select (.list sequence) segment = .ok steps)
    (hgrown : GrownBy steps (.list sequence) (.list grown))
    (hpresent : ((Value.list grown).child? step).isSome = true) :
    step ∈ segment.steps (.list grown) ↔ step ∈ steps := by
  rw [Segment.mem_steps_list_iff]
  unfold Segment.Selects
  rw [and_iff_right hpresent]
  cases step with
  | key name => simp [child?] at hpresent
  | index place =>
    have hinside := isSome_child?_index.mp hpresent
    have hreaches := reaches_of_grown selection place hgrown
    obtain ⟨_, hsize, hlast⟩ := hgrown
    cases segment with
    | index position =>
      refine Segment.names_list_iff.trans ?_
      simp only [select, selectInList] at hselect
      split at hselect
      · rw [← Except.ok.inj hselect, List.mem_singleton]
      · rename_i hmissing
        obtain rfl : steps = [] := by
          split at hselect <;> exact eq_nil_of_miss hselect
        have hsame : grown.size = sequence.size := by simpa using hlast
        simp only [List.not_mem_nil, iff_false, Step.index.injEq]
        rintro rfl
        exact hmissing (by simp [reaches, ← hsame, hinside])
    | wildcard =>
      obtain rfl : (List.range sequence.size).map Step.index = steps := Except.ok.inj hselect
      refine iff_of_true trivial ?_
      simp only [List.mem_map, List.mem_range, Step.index.injEq, exists_eq_right] at hlast ⊢
      rcases hlast with hsame | ⟨last, hinside, hsame⟩ <;> omega
    | union selectors =>
      obtain rfl : selectors.filterMap (selection.positionOf? sequence) = steps :=
        Except.ok.inj hselect
      have hnamed (selector : Selector) (position : Nat) :
          selection.positionOf? sequence selector = some (.index position) ↔
            selection.reaches sequence position = true ∧
              selector.Names (.list grown) (.index position) := by
        cases selector with
        | key name => simp [positionOf?, Selector.Names]
        | index other =>
          simp only [positionOf?, Selector.Names]
          by_cases hsame : position = other
          · simp [hsame]
          · simp [hsame, Ne.symm hsame]
      simp only [List.mem_filterMap, hnamed] at hreaches ⊢
      have hreached := hreaches (by rintro other ⟨_, _, hother, _⟩; exact hother) hinside
      simp only [hreached, true_and]
    | slice start stop width =>
      obtain rfl : ((sliceIndices start stop width (selection.sliceLength sequence stop)).filter
          (selection.reaches sequence)).map Step.index = steps := Except.ok.inj hselect
      simp only [List.mem_map, List.mem_filter, Step.index.injEq, exists_eq_right]
        at hlast hreaches ⊢
      have hreached := hreaches (fun other hother => hother.2) hinside
      rw [and_iff_left hreached]
      refine mem_sliceIndices_of_grown hsteady hsize ?_ hinside
      rcases hlast with hsame | ⟨last, ⟨hlast, _⟩, hsame⟩
      · exact .inl hsame
      · have hbelow := sliceIndices_lt_length hlast
        exact .inr (by omega)
    | key name =>
      rw [eq_nil_of_miss hselect]
      simp [Selector.Names]
    | root =>
      obtain rfl : [] = steps := Except.ok.inj hselect
      simp

/-- The children of a container that has grown are picked when they were selected. -/
theorem mem_steps_of_grown (hcreate : selection.create = true)
    (hsteady : segment.SteadyOn container)
    (hselect : selection.select container segment = .ok steps)
    (hgrown : GrownBy steps container after) (hpresent : (after.child? step).isSome = true) :
    step ∈ segment.steps after ↔ step ∈ steps := by
  cases container with
  | map entries =>
    cases after with
    | map grown => exact mem_steps_of_grown_map hcreate hselect hgrown hpresent
    | _ => cases hgrown
  | record aggregate =>
    cases after with
    | record grown => rw [steps_of_grown_record hselect hgrown]
    | _ => cases hgrown
  | list sequence =>
    cases after with
    | list grown => exact mem_steps_of_grown_list hsteady hselect hgrown hpresent
    | _ => cases hgrown
  | _ =>
    obtain rfl : after = _ := hgrown
    simp [child?] at hpresent

/-! ## Slices stay steady -/

/-- A slice that is steady on a container stays so when the container grows by what can be taken. -/
theorem steadyOn_of_grown (hsteady : segment.SteadyOn container)
    (htakes : ∀ step ∈ steps, container.Takes step) (hgrown : GrownBy steps container after) :
    segment.SteadyOn after := by
  cases segment with
  | slice start stop width =>
    cases stop with
    | none => trivial
    | some stop =>
      cases container with
      | list sequence =>
        cases after with
        | list grown =>
          intro hgrows hextends
          rw [hgrown.canGrow] at hgrows
          obtain ⟨_, hsize, hlast⟩ := hgrown
          obtain ⟨hlimit, hstart⟩ := hsteady hgrows (by omega)
          refine ⟨?_, hstart⟩
          rcases hlast with hsame | ⟨last, hmem, hsame⟩
          · omega
          · rcases htakes _ hmem with hinside | ⟨_, hbelow⟩ <;> omega
        | _ => cases hgrown
      | _ => cases after <;> trivial
  | _ => trivial

/-! ## Picking again -/

variable {change : Value → Value → Prop}

/-- From a container that has been reworked, the steps that were selected are picked. -/
theorem mem_steps_of_reworked (hcreate : selection.create = true)
    (hsteady : segment.SteadyOn container)
    (hselect : selection.select container segment = .ok steps)
    (hreworked : Reworked change steps container after) :
    step ∈ segment.steps after ↔ step ∈ steps := by
  have hgrown := hreworked.grown
  have hpicked (hpresent : (after.child? step).isSome = true) :
      step ∈ segment.steps after ↔ step ∈ steps :=
    mem_steps_of_grown hcreate hsteady hselect hgrown hpresent
  constructor
  · intro hstep
    cases container with
    | map entries =>
      cases after with
      | map grown => exact (hpicked (Segment.mem_steps_map_iff.mp hstep).1).mp hstep
      | _ => cases hgrown
    | record aggregate =>
      cases after with
      | record grown => rwa [steps_of_grown_record hselect hgrown] at hstep
      | _ => cases hgrown
    | list sequence =>
      cases after with
      | list grown => exact (hpicked (Segment.mem_steps_list_iff.mp hstep).1).mp hstep
      | _ => cases hgrown
    | _ =>
      obtain rfl : after = _ := hgrown
      cases hstep
  · intro hstep
    obtain ⟨_, child, hchild, _⟩ := hreworked.changed step hstep
    exact (hpicked (by rw [hchild]; rfl)).mpr hstep

theorem miss_again {reader : Selection} (hstrict : reader.strict = selection.strict)
    {value : Value} {obstacle : Obstacle} (hmiss : selection.miss value obstacle = .ok steps)
    (other : Value) (next : Obstacle) : reader.miss other next = .ok [] := by
  apply miss_of_lenient
  rw [hstrict]
  cases hfault : selection.strict with
  | false => rfl
  | true => simp [miss, hfault] at hmiss

/-- A visit of a map whose selected entries are there meets no fault. -/
theorem exists_select_map {reader : Selection} {entries grown : Entries Value}
    (hstrict : reader.strict = selection.strict)
    (hselect : selection.select (.map entries) segment = .ok steps)
    (hpresent : ∀ step ∈ steps, ((Value.map grown).child? step).isSome = true) :
    ∃ picked, reader.select (.map grown) segment = .ok picked := by
  have hentry (name : String) (hone : selection.selectEntry entries name = .ok steps) :
      ∃ picked, reader.selectEntry grown name = .ok picked := by
    unfold selectEntry at hone ⊢
    split at hone
    · have hthere := hpresent (.key name) (by simp [← Except.ok.inj hone])
      exact ⟨_, if_pos (Bool.or_eq_true _ _ ▸ .inr hthere)⟩
    · split
      · exact ⟨_, rfl⟩
      · exact ⟨[], miss_again hstrict hone _ _⟩
  cases segment with
  | key name => exact hentry name hselect
  | index position => exact hentry _ hselect
  | wildcard => exact ⟨_, rfl⟩
  | union selectors => exact ⟨_, rfl⟩
  | _ => exact ⟨[], miss_again hstrict hselect _ _⟩

/-- A visit of a record of the same declarations meets no fault. -/
theorem exists_select_record {reader : Selection} {aggregate grown : Record Value}
    (hstrict : reader.strict = selection.strict)
    (hsearching : selection.searching = true → reader.searching = true)
    (hselect : selection.select (.record aggregate) segment = .ok steps)
    (hdeclared : grown.declarations = aggregate.declarations) :
    ∃ picked, reader.select (.record grown) segment = .ok picked := by
  cases segment with
  | key name =>
    have hfields := Record.find?_declarations grown name
    rw [hdeclared, Record.find?_declarations] at hfields
    simp only [select, selectInRecord] at hselect ⊢
    cases hafter : grown.field? name with
    | none =>
      rw [hafter, Option.map_none, Option.map_eq_none_iff] at hfields
      rw [hfields] at hselect
      exact ⟨[], miss_again hstrict hselect _ _⟩
    | some field =>
      rw [hafter, Option.map_some] at hfields
      obtain ⟨old, hold, hsame⟩ := Option.map_eq_some_iff.mp hfields
      have hexported : old.exported = field.exported := (Prod.mk.inj (Prod.mk.inj hsame).2).1
      rw [hold] at hselect
      simp only [hexported] at hselect
      cases hseen : field.exported with
      | true => exact ⟨_, if_pos hseen⟩
      | false =>
        cases hfound : selection.searching with
        | true => exact ⟨[], by simp [hseen, hsearching hfound]⟩
        | false => simp [hseen, hfound] at hselect
  | wildcard => exact ⟨_, rfl⟩
  | union selectors => exact ⟨_, rfl⟩
  | _ => exact ⟨[], miss_again hstrict hselect _ _⟩

/-- A visit of a list whose selected elements are there meets no fault. -/
theorem exists_select_list {reader : Selection} {sequence grown : Sequence Value}
    (hstrict : reader.strict = selection.strict)
    (hselect : selection.select (.list sequence) segment = .ok steps)
    (hpresent : ∀ step ∈ steps, ((Value.list grown).child? step).isSome = true) :
    ∃ picked, reader.select (.list grown) segment = .ok picked := by
  cases segment with
  | index position =>
    simp only [select, selectInList] at hselect ⊢
    split at hselect
    · have hthere := isSome_child?_index.mp
        (hpresent (.index position) (by simp [← Except.ok.inj hselect]))
      exact ⟨_, if_pos (by simp [reaches, hthere])⟩
    · have hmiss : ∃ obstacle, selection.miss (.list sequence) obstacle = .ok steps := by
        split at hselect <;> exact ⟨_, hselect⟩
      obtain ⟨obstacle, hmiss⟩ := hmiss
      have hagain := miss_again hstrict hmiss
      split
      · exact ⟨_, rfl⟩
      · split <;> exact ⟨[], hagain _ _⟩
  | key name => exact ⟨[], miss_again hstrict hselect _ _⟩
  | _ => exact ⟨_, rfl⟩

/-- A visit of a container that has been reworked picks what was selected, without a
fault. -/
theorem select_of_reworked {reader : Selection} (hstrict : reader.strict = selection.strict)
    (hcreate : reader.create = false) (hsearching : selection.searching = false)
    (hselect : selection.select container segment = .ok steps)
    (hreworked : Reworked change steps container after) :
    reader.select after segment = .ok (segment.steps after) := by
  have hgrown := hreworked.grown
  have hpresent (step : Step) (hmem : step ∈ steps) : (after.child? step).isSome = true := by
    obtain ⟨_, child, hchild, _⟩ := hreworked.changed step hmem
    rw [hchild]
    rfl
  have hok : ∃ picked, reader.select after segment = .ok picked := by
    cases container with
    | map entries =>
      cases after with
      | map grown => exact exists_select_map hstrict hselect hpresent
      | _ => cases hgrown
    | record aggregate =>
      cases after with
      | record grown => exact exists_select_record hstrict (by simp [hsearching]) hselect hgrown.2
      | _ => cases hgrown
    | list sequence =>
      cases after with
      | list grown => exact exists_select_list hstrict hselect hpresent
      | _ => cases hgrown
    | _ =>
      obtain rfl : after = _ := hgrown
      exact ⟨[], miss_again hstrict hselect _ _⟩
  obtain ⟨picked, hpicked⟩ := hok
  rw [hpicked, steps_of_select hcreate hpicked]

end Selection

end NestedData
