import NestedData.Proofs.Access.Matching
import NestedData.Proofs.Access.Vacating

/-!
# Deletions that fail

This module shows that a deletion which is on its only way, because no segment may
select several children and nothing is searched for, leaves the value as it is when it
fails or finds nothing.

Main results:

- `Value.setChild_self`: putting a child back changes nothing.
- `Action.descend_erase_settles`: a deletion on its only way either succeeds or
  changes nothing.
-/

namespace NestedData

/-! ## Putting a child back -/

namespace Value

/-- Putting the value of an entry back changes nothing. -/
theorem insert_get? {entries : Entries Value} {name : String} {value : Value}
    (hvalue : Entries.get? entries name = some value) :
    Entries.insert entries name value = entries := by
  induction entries with
  | nil => cases hvalue
  | cons entry rest ih =>
    rcases entry with ⟨key, old⟩
    by_cases hsame : key = name
    · rw [Entries.get?, if_pos hsame] at hvalue
      rw [Entries.insert, if_pos hsame, Option.some.inj hvalue]
    · rw [Entries.get?, if_neg hsame] at hvalue
      rw [Entries.insert, if_neg hsame, ih hvalue]

/-- Putting the value of the first field of a name back changes nothing. -/
theorem modifyField_find? {fields : List (Field Value)} {name : String} {field : Field Value}
    (hfield : fields.find? (fun field => field.name == name) = some field) :
    Record.modifyField.go name (fun other => { other with value := field.value }) fields =
      fields := by
  induction fields with
  | nil => cases hfield
  | cons first rest ih =>
    by_cases hsame : first.name = name
    · rw [List.find?_cons_of_pos (by simpa using hsame)] at hfield
      rw [Record.modifyField.go, if_pos hsame, Option.some.inj hfield]
    · rw [List.find?_cons_of_neg (by simpa using hsame)] at hfield
      rw [Record.modifyField.go, if_neg hsame, ih hfield]

/-- Putting a child back changes nothing. -/
theorem setChild_self {value child : Value} {step : Step}
    (hchild : value.child? step = some child) : value.setChild step child = value := by
  cases value with
  | map entries =>
    cases step with
    | index position => rfl
    | key name =>
      rw [setChild]
      split
      · rw [insert_get? hchild]
      · rfl
  | record aggregate =>
    cases step with
    | index position => rfl
    | key name =>
      rcases Record.get?_eq_some_iff.mp hchild with ⟨field, hfield, _, rfl⟩
      rw [setChild, Record.setValue, Record.modifyField, modifyField_find? hfield]
  | list sequence =>
    cases step with
    | key name => rfl
    | index position =>
      have hitem : sequence.items[position]? = some child := hchild
      have hsame : sequence.items.setIfInBounds position child = sequence.items := by
        refine Array.ext_getElem? fun index => ?_
        rw [Array.getElem?_setIfInBounds]
        split
        · rename_i hindex
          rcases Array.getElem?_eq_some_iff.mp hitem with ⟨hinside, hvalue⟩
          rw [if_pos hinside, ← hindex, hitem]
        · rfl
      rw [setChild, Sequence.set, hsame]
  | _ => simp [child?] at hchild

end Value

/-! ## Deleting on the only way -/

namespace Action

/-- An edit either succeeds, having found something, or changes nothing. -/
def Settles (edit : Edit) (value : Value) : Prop :=
  (∃ tally, edit.result = .ok tally ∧ tally.matched = true) ∨ edit.value = value

/-- An edit at the end of references settles if it does there. -/
theorem Settles.atTarget {edit : Value → Edit} {value : Value}
    (hedit : Settles (edit value.target) value.target) :
    Settles (Edit.atTarget edit value) value := by
  rw [Edit.atTarget_eq]
  rcases hedit with hfound | hsame
  · exact .inl hfound
  · right
    simp only [hsame]
    exact Value.mapTarget_eq_self rfl

/-- One edit after the other settles if there is one at most. -/
theorem Settles.sequence {α : Type} {things : List α} {edit : α → Value → Edit} {value : Value}
    (hlength : things.length ≤ 1) (hedit : ∀ thing ∈ things, Settles (edit thing value) value) :
    Settles (Edit.sequence things edit {} value) value := by
  rcases things with _ | ⟨thing, _ | ⟨next, rest⟩⟩
  · exact .inr rfl
  · rw [Edit.sequence_cons]
    rcases hedit thing List.mem_cons_self with ⟨tally, hresult, hmatched⟩ | hsame
    · left
      rw [hresult]
      exact ⟨_, rfl, by simp [Tally.add, hmatched]⟩
    · right
      cases (edit thing value).result <;> exact hsame
  · simp at hlength

/-- The deletion of one child succeeds or changes nothing. -/
theorem eraseMember_settles (location : Location) (strict : Bool) (step : Step)
    (container : Value) : Settles (eraseMember location strict step container) container := by
  unfold eraseMember
  split
  · split
    · exact .inl ⟨_, rfl, rfl⟩
    · exact .inr rfl
  · split
    · exact .inr rfl
    · split
      · exact .inl ⟨_, rfl, rfl⟩
      · split <;> exact .inr rfl
  · split
    · exact .inl ⟨_, rfl, rfl⟩
    · exact .inr rfl
  · exact .inr rfl

/-- The deletion of one child at most succeeds or changes nothing. -/
theorem eraseMembers_settles {steps : List Step} (hlength : steps.length ≤ 1) (location : Location)
    (strict : Bool) (container : Value) :
    Settles (eraseMembers location strict steps container) container := by
  have hone (hmembers : eraseMembers location strict steps container =
      Edit.sequence steps (eraseMember location strict) {} container) :
      Settles (eraseMembers location strict steps container) container := by
    rw [hmembers]
    exact Settles.sequence hlength fun step _ => eraseMember_settles location strict step container
  cases container with
  | list sequence =>
    rcases sequence with ⟨extent, items⟩
    cases extent with
    | fixed => exact hone rfl
    | growable =>
      cases steps with
      | cons step rest => exact .inl ⟨_, rfl, rfl⟩
      | nil =>
        right
        have hall : Sequence.without ⟨.growable, items⟩ [] = items := by
          rw [← Array.toList_inj, Sequence.toList_without, ← List.zipIdx_map_fst 0 items.toList,
            ← List.filterMap_eq_map]
          simp
        simp only [eraseMembers, List.filterMap_nil, hall]
        rfl
  | _ => exact hone rfl

/-- A deletion on its only way succeeds or changes nothing. -/
theorem descend_erase_settles {segments : List Segment}
    (hsingle : ∀ segment ∈ segments, segment.isMultiValued = false)
    (searching strict creating : Bool) (location : Location) (value : Value) :
    Settles (descend erase none searching strict creating segments location value) value := by
  induction segments generalizing searching strict creating location value with
  | nil => exact .inl ⟨_, rfl, rfl⟩
  | cons segment rest ih =>
    have hrest := ih fun other hmem => hsingle other (List.mem_cons_of_mem _ hmem)
    by_cases hsegment : segment = .root
    · subst hsegment
      exact hrest false strict creating location value
    · rw [descend_erase_segment hsegment]
      apply Settles.atTarget
      cases hselect : Selection.select
          { operation := .delete, location, strict, create := false, searching }
          value.target segment with
      | error error => exact .inr rfl
      | ok steps =>
        rcases Selection.steps_of_select rfl hselect with rfl
        have hlength := Segment.length_steps_le (hsingle segment List.mem_cons_self) value.target
        dsimp only
        split
        · exact eraseMembers_settles hlength _ _ _
        · refine Settles.sequence hlength fun step _ => ?_
          simp only [editChild]
          cases hchild : value.target.child? step with
          | none => exact .inr rfl
          | some child =>
            rcases hrest false (strict && !segment.isMultiValued) true (location.child step) child
              with hfound | hsame
            · exact .inl hfound
            · right
              simp only [hsame]
              exact Value.setChild_self hchild

end Action

end NestedData
