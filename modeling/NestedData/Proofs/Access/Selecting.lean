import NestedData.Proofs.Access.Reselection
import NestedData.Proofs.Access.Surviving

/-!
# Selecting again

A selection that may create what is missing selects the same steps again, in the same order, from
the container that has grown by them: entries that were added for a union are in it, positions
that a slice has extended a list to are in the slice, and a wildcard has added nothing.

Main results:

- `Selection.select_again_map`, `Selection.select_again_record`, `Selection.select_again_list`: the
  same steps are selected from each kind of container.
- `Selection.select_again`: from what has grown by the steps selected, the same steps are selected.
- `Selection.mem_of_select_again`: nothing else is selected by another selection that may create what
  is missing.
-/

namespace NestedData

namespace Value

variable {steps more : List Step} {before after : Value}

/-- A container that has grown by some steps has grown by more of them. -/
theorem GrownBy.mono (hmore : steps ⊆ more) (hgrown : GrownBy steps before after) :
    GrownBy more before after := by
  cases before with
  | map entries =>
    cases after with
    | map grown => exact fun name hname => (hgrown name hname).imp_right fun hstep => hmore hstep
    | _ => cases hgrown
  | list sequence =>
    cases after with
    | list grown =>
      exact ⟨hgrown.1, hgrown.2.1, hgrown.2.2.imp_right fun hend =>
        hend.imp fun _ hlast => hlast.imp_left fun hstep => hmore hstep⟩
    | _ => cases hgrown
  | _ => cases after <;> exact hgrown

end Value

namespace Selection

open Value

variable {selection : Selection} {segment : Segment} {steps : List Step}

/-! ## Selecting again -/

/-- From a map that has grown by the steps selected, the same steps are selected. -/
theorem select_again_map {entries grown : Entries Value} (hcreate : selection.create = true)
    (hselect : selection.select (.map entries) segment = .ok steps)
    (hgrown : GrownBy steps (.map entries) (.map grown))
    (hkeys : Entries.keys entries <+: Entries.keys grown) (hnodup : (Entries.keys grown).Nodup) :
    selection.select (.map grown) segment = .ok steps := by
  cases segment with
  | key name =>
    simpa only [select, selectInMap, selectEntry, hcreate, Bool.true_or, if_true] using hselect
  | index position =>
    simpa only [select, selectInMap, selectEntry, hcreate, Bool.true_or, if_true] using hselect
  | union selectors =>
    simpa only [select, selectInMap, hcreate, Bool.true_or, List.filter_true] using hselect
  | wildcard =>
    have hsteps : (Entries.keys entries).map Step.key = steps := Except.ok.inj hselect
    obtain ⟨more, hmore⟩ := hkeys
    have hnone : more = [] := by
      refine List.eq_nil_iff_forall_not_mem.mpr fun name hname => ?_
      have hthere : name ∈ Entries.keys grown := hmore ▸ List.mem_append_right _ hname
      have hbefore : name ∈ Entries.keys entries := by
        rcases hgrown name ((Entries.contains_iff_mem_keys _ _).mpr hthere) with hin | hstep
        · exact (Entries.contains_iff_mem_keys _ _).mp hin
        · rw [← hsteps] at hstep
          obtain ⟨key, hkey, hsame⟩ := List.mem_map.mp hstep
          exact Step.key.inj hsame ▸ hkey
      rw [← hmore] at hnodup
      exact List.disjoint_of_nodup_append hnodup hbefore hname
    rw [hnone, List.append_nil] at hmore
    rw [select, selectInMap, ← hmore, hsteps]
  | slice start stop width =>
    rw [eq_nil_of_miss hselect]
    exact miss_again rfl hselect _ _
  | root =>
    rw [eq_nil_of_miss hselect]
    exact miss_again rfl hselect _ _

/-- From a record of the same declarations, the same steps are selected. -/
theorem select_again_record {aggregate grown : Record Value}
    (hselect : selection.select (.record aggregate) segment = .ok steps)
    (hdeclared : grown.declarations = aggregate.declarations) :
    selection.select (.record grown) segment = .ok steps := by
  obtain ⟨picked, hpicked⟩ : ∃ picked, selection.select (.record grown) segment = .ok picked :=
    exists_select_record rfl id hselect hdeclared
  rw [hpicked, ← steps_of_select_record hpicked, steps_of_declarations hdeclared,
    steps_of_select_record hselect]

theorem reaches_of_select {sequence : Sequence Value}
    (hcreate : selection.create = true)
    (hselect : selection.select (.list sequence) segment = .ok steps) {position : Nat}
    (hstep : .index position ∈ steps) : selection.reaches sequence position = true := by
  have htakes : (Value.list sequence).Takes (.index position) := takes_of_select_list hselect hstep
  simpa [reaches, mayGrow, hcreate, Takes] using htakes

theorem mayGrow_again (selection : Selection) {sequence grown : Sequence Value}
    (hgrown : GrownBy steps (.list sequence) (.list grown)) :
    selection.mayGrow grown = selection.mayGrow sequence := by
  rw [mayGrow, mayGrow, hgrown.canGrow]

/-- What can be reached in a list that has grown by the steps selected could be reached before. -/
theorem reaches_again {sequence grown : Sequence Value}
    (hgrown : GrownBy steps (.list sequence) (.list grown))
    (hreached : ∀ other, .index other ∈ steps → selection.reaches sequence other = true)
    (position : Nat) : selection.reaches grown position = selection.reaches sequence position := by
  have hsame := selection.mayGrow_again hgrown
  rw [Bool.eq_iff_iff]
  constructor
  · intro hafter
    by_cases hinside : position < grown.size
    · exact reaches_of_grown selection position hgrown hreached hinside
    · simpa [reaches, hinside, hsame] using .inr (by simpa [reaches, hinside, hsame] using hafter)
  · intro hbefore
    have hsize := hgrown.2.1
    simp only [reaches, Bool.or_eq_true, decide_eq_true_eq, hsame] at hbefore ⊢
    exact hbefore.imp_left fun hinside => by omega

/-- A list that has grown by the positions of a slice is as long for the slice as it was. -/
theorem sliceLength_again {sequence grown : Sequence Value} {start stop width : Option Int64}
    (hselect : selection.select (.list sequence) (.slice start stop width) = .ok steps)
    (hgrown : GrownBy steps (.list sequence) (.list grown)) :
    selection.sliceLength grown stop = selection.sliceLength sequence stop := by
  have hsame := selection.mayGrow_again hgrown
  have hspan : grown.size = sequence.size ∨
      sequence.size ≤ grown.size ∧ grown.size ≤ selection.sliceLength sequence stop := by
    obtain ⟨_, hsize, hequal | ⟨last, hlast, hend⟩⟩ := hgrown
    · exact .inl hequal
    · rw [← Except.ok.inj hselect] at hlast
      obtain ⟨position, hposition, hindex⟩ := List.mem_map.mp hlast
      obtain rfl := Step.index.inj hindex
      have hless := sliceIndices_lt_length (List.mem_filter.mp hposition).1
      exact .inr ⟨hsize, by omega⟩
  cases stop with
  | none =>
    simp only [sliceLength] at hspan ⊢
    omega
  | some stop =>
    simp only [sliceLength, hsame, Bool.and_eq_true, decide_eq_true_eq] at hspan ⊢
    by_cases hgrows : selection.mayGrow sequence = true
    · simp only [hgrows, true_and] at hspan ⊢
      split at hspan <;> split <;> omega
    · simp only [hgrows, Bool.false_eq_true, false_and, if_false] at hspan ⊢
      omega

/-- From a list that has grown by the steps selected, the same steps are selected. -/
theorem select_again_list {sequence grown : Sequence Value} (hcreate : selection.create = true)
    (hselect : selection.select (.list sequence) segment = .ok steps)
    (hgrown : GrownBy steps (.list sequence) (.list grown)) :
    selection.select (.list grown) segment = .ok steps := by
  have hreaches := reaches_again hgrown fun _ hstep => reaches_of_select hcreate hselect hstep
  cases segment with
  | index position =>
    simp only [select, selectInList, hreaches] at hselect ⊢
    by_cases hreached : selection.reaches sequence position = true
    · rwa [if_pos hreached] at hselect ⊢
    · rw [if_neg hreached] at hselect ⊢
      have hmiss : ∃ obstacle, selection.miss (.list sequence) obstacle = .ok steps := by
        split at hselect <;> exact ⟨_, hselect⟩
      obtain ⟨obstacle, hmiss⟩ := hmiss
      rw [eq_nil_of_miss hmiss]
      split <;> exact miss_again rfl hmiss _ _
  | wildcard =>
    have hsteps : (List.range sequence.size).map Step.index = steps := Except.ok.inj hselect
    have hsize : grown.size = sequence.size := by
      obtain ⟨_, hsize, hequal | ⟨last, hlast, hend⟩⟩ := hgrown
      · exact hequal
      · rw [← hsteps] at hlast
        obtain ⟨position, hposition, hindex⟩ := List.mem_map.mp hlast
        obtain rfl := Step.index.inj hindex
        have hless := List.mem_range.mp hposition
        omega
    rw [select, selectInList, hsize, hsteps]
  | union selectors =>
    have hsame : selection.positionOf? grown = selection.positionOf? sequence := by
      funext selector
      cases selector with
      | key name => rfl
      | index position => rw [positionOf?, positionOf?, hreaches]
    simpa only [select, selectInList, hsame] using hselect
  | slice start stop width =>
    have hsame : selection.reaches grown = selection.reaches sequence := funext hreaches
    simpa only [select, selectInList, hsame, sliceLength_again hselect hgrown] using hselect
  | key name =>
    rw [eq_nil_of_miss hselect]
    exact miss_again rfl hselect _ _
  | root => exact hselect

/-- From what has grown by the steps selected, the same steps are selected. -/
theorem select_again {container after : Value} (hcreate : selection.create = true)
    (hselect : selection.select container segment = .ok steps)
    (hgrown : GrownBy steps container after) (hsurvives : container.Survives after)
    (hafter : after.WellFormed) : selection.select after segment = .ok steps := by
  cases container with
  | map entries =>
    cases after with
    | map grown =>
      refine select_again_map hcreate hselect hgrown ?_ hafter.hasDistinctSteps
      cases hsurvives with
      | same => exact List.prefix_refl _
      | map hkeys => exact hkeys
      | appeared habsent _ => cases habsent
    | _ => cases hgrown
  | record aggregate =>
    cases after with
    | record grown => exact select_again_record hselect hgrown.2
    | _ => cases hgrown
  | list sequence =>
    cases after with
    | list grown => exact select_again_list hcreate hselect hgrown
    | _ => cases hgrown
  | _ =>
    obtain rfl : after = _ := hgrown
    exact hselect

/-! ## Selecting elsewhere -/

variable {again : Selection} {picked : List Step}

/-- What is selected from a list depends neither on the place nor on what a miss is taken for. -/
theorem eq_of_select_list {sequence : Sequence Value} (hcreate : again.create = selection.create)
    (hselect : selection.select (.list sequence) segment = .ok steps)
    (hpicked : again.select (.list sequence) segment = .ok picked) : picked = steps := by
  have hgrows : again.mayGrow sequence = selection.mayGrow sequence := by
    rw [mayGrow, mayGrow, hcreate]
  have hreaches (position : Nat) :
      again.reaches sequence position = selection.reaches sequence position := by
    rw [reaches, reaches, hgrows]
  cases segment with
  | index position =>
    simp only [select, selectInList, hreaches] at hselect hpicked
    by_cases hreached : selection.reaches sequence position = true
    · rw [if_pos hreached] at hselect hpicked
      exact Except.ok.inj (hpicked.symm.trans hselect)
    · rw [if_neg hreached] at hselect hpicked
      have hnothing : steps = [] := by split at hselect <;> exact eq_nil_of_miss hselect
      have hnone : picked = [] := by split at hpicked <;> exact eq_nil_of_miss hpicked
      rw [hnothing, hnone]
  | union selectors =>
    have hsame : again.positionOf? sequence = selection.positionOf? sequence := by
      funext selector
      cases selector with
      | key name => rfl
      | index position => rw [positionOf?, positionOf?, hreaches]
    simp only [select, selectInList, hsame] at hselect hpicked
    exact Except.ok.inj (hpicked.symm.trans hselect)
  | slice start stop width =>
    have hsame : again.sliceLength sequence stop = selection.sliceLength sequence stop := by
      simp only [sliceLength, hgrows]
    simp only [select, selectInList, hsame, funext hreaches] at hselect hpicked
    exact Except.ok.inj (hpicked.symm.trans hselect)
  | key name => rw [eq_nil_of_miss hselect, eq_nil_of_miss hpicked]
  | wildcard | root => exact Except.ok.inj (hpicked.symm.trans hselect)

theorem mem_of_select_map {entries grown : Entries Value} (hcreate : selection.create = true)
    (hagain : again.create = true) (hselect : selection.select (.map entries) segment = .ok steps)
    (hgrown : GrownBy steps (.map entries) (.map grown))
    (hpicked : again.select (.map grown) segment = .ok picked) (hstep : step ∈ picked) :
    step ∈ steps := by
  have hentry (name : String) (hone : selection.selectEntry entries name = .ok steps)
      (hnext : again.selectEntry grown name = .ok picked) : picked = steps := by
    rw [selectEntry, hcreate, Bool.true_or, if_pos rfl] at hone
    rw [selectEntry, hagain, Bool.true_or, if_pos rfl] at hnext
    exact Except.ok.inj (hnext.symm.trans hone)
  cases segment with
  | key name => exact hentry name hselect hpicked ▸ hstep
  | index position => exact hentry _ hselect hpicked ▸ hstep
  | wildcard =>
    rw [← Except.ok.inj hpicked] at hstep
    obtain ⟨name, hname, rfl⟩ := List.mem_map.mp hstep
    rcases hgrown name ((Entries.contains_iff_mem_keys _ _).mpr hname) with hbefore | hmem
    · rw [← Except.ok.inj hselect]
      exact List.mem_map_of_mem ((Entries.contains_iff_mem_keys _ _).mp hbefore)
    · exact hmem
  | union selectors =>
    simp only [select, selectInMap, hcreate, hagain, Bool.true_or, List.filter_true]
      at hselect hpicked
    exact Except.ok.inj (hpicked.symm.trans hselect) ▸ hstep
  | _ =>
    rw [eq_nil_of_miss hpicked] at hstep
    cases hstep

/-- From what has grown by the steps selected, nothing else is selected, whatever the place is and
whatever a miss is taken for. -/
theorem mem_of_select_again {container after : Value} {step : Step}
    (hcreate : selection.create = true) (hagain : again.create = true)
    (hselect : selection.select container segment = .ok steps)
    (hgrown : GrownBy steps container after)
    (hpicked : again.select after segment = .ok picked) (hstep : step ∈ picked) :
    step ∈ steps := by
  cases container with
  | map entries =>
    cases after with
    | map grown => exact mem_of_select_map hcreate hagain hselect hgrown hpicked hstep
    | _ => cases hgrown
  | record aggregate =>
    cases after with
    | record grown =>
      rwa [← steps_of_select_record hpicked, steps_of_declarations hgrown.2,
        steps_of_select_record hselect] at hstep
    | _ => cases hgrown
  | list sequence =>
    cases after with
    | list grown =>
      have hsame : selection.select (.list grown) segment = .ok steps :=
        select_again_list hcreate hselect hgrown
      exact eq_of_select_list (hagain.trans hcreate.symm) hsame hpicked ▸ hstep
    | _ => cases hgrown
  | _ =>
    obtain rfl : after = _ := hgrown
    rw [eq_nil_of_miss hpicked] at hstep
    cases hstep

end Selection

end NestedData
