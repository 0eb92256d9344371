import NestedData.Proofs.Path.Canonical
import NestedData.Proofs.Views.Editing

/-!
# References are transparent

Whether a value is stored in place or behind references does not matter to whoever follows a path: the
same is read, visited and assigned, and the same faults are met.  The one place where an assignment
could tell a reference to nothing from null is an entry that was added on the way and is taken back if
nothing is put into it; this module shows that along a path that some text spells, no reference is ever
left there.

Main results:

- `Action.leavesNoReference`: where an entry has been added, an action that goes on leaves no reference.
- `Value.references_transparent`: reading, visiting and assigning look through references.
-/

namespace NestedData

open Outcome

namespace Action

variable {action : Action} {arrive : Option (Location → Value → Edit)} {container : Value}

/-! ## Containers stay containers -/

theorem isReference_setChild (container : Value) (step : Step) (child : Value) :
    (container.setChild step child).isReference = container.isReference := by
  rw [Bool.eq_iff_iff, Value.isReference_iff, Value.isReference_iff, Value.kind_setChild]

/-- Nor is it when room has been made for one. -/
theorem isReference_makeRoom (shaping : Shaping) (location : Location) (step : Step)
    (container : Value) :
    (makeRoom shaping location step container).isReference = container.isReference := by
  cases container with
  | map entries =>
    cases step with
    | index position => rfl
    | key name =>
      rw [makeRoom]
      split <;> rfl
  | list sequence => cases step <;> rfl
  | _ => rfl

/-- An edit of a child makes no reference of a container. -/
theorem isReference_editChild (hcontainer : container.isReference = false)
    (shaping? : Option Shaping) (location : Location) (edit : Location → Value → Edit) (step : Step) :
    (editChild shaping? location edit step container).value.isReference = false := by
  cases shaping? with
  | none =>
    simp only [editChild, Option.isSome_none, Bool.false_and, Bool.false_eq_true, if_false]
    split
    · exact hcontainer
    · rwa [isReference_setChild]
  | some shaping =>
    cases hchild : (makeRoom shaping location step container).child? step with
    | none =>
      simp only [editChild, hchild]
      rwa [Edit.keep, isReference_makeRoom]
    | some child =>
      rw [editChild_creating hchild]
      dsimp only
      split
      · exact hcontainer
      · rwa [put, isReference_setChild, isReference_makeRoom]

/-- A sequence of edits that make no reference of a container makes none of it. -/
theorem isReference_sequence {α : Type} {things : List α} {edit : α → Value → Edit}
    (hedit : ∀ thing ∈ things, ∀ current, current.isReference = false →
      (edit thing current).value.isReference = false)
    (hcontainer : container.isReference = false) (before : Tally) :
    (Edit.sequence things edit before container).value.isReference = false :=
  @Edit.sequence_preserves _ edit container (fun value => value.isReference = false) things hedit
    hcontainer before

/-- An action that puts no reference in place of nothing on its way, and makes none of a container when
it comes to the children. -/
structure MakesNoReferences (action : Action) : Prop where
  /-- The containers made on the way are no references. -/
  shaping : ∀ shaping, action.shaping? = some shaping → ∀ location segment,
    (shaping.containerAt location segment).isReference = false
  /-- A container whose children are changed is no reference afterwards. -/
  member : ∀ location strict steps container, container.isReference = false →
    (action.member location strict steps container).value.isReference = false

/-- What becomes of a container from which a segment selects is no reference. -/
theorem isReference_onward (haction : action.MakesNoReferences)
    (hcontainer : container.isReference = false) {searching strict : Bool}
    {shaping? : Option Shaping} {segment : Segment} {rest : List Segment} {location : Location} :
    (onward action arrive searching strict shaping? segment rest location
      container).value.isReference = false := by
  rcases onward_cases with
    ⟨error, _, hfail⟩ | ⟨steps, _, ⟨_, _, hmember⟩ | ⟨_, hsequence⟩⟩
  · rwa [hfail, Edit.fail]
  · rw [hmember]
    exact haction.member _ _ _ _ hcontainer
  · rw [hsequence]
    exact isReference_sequence
      (fun step _ current hcurrent => isReference_editChild hcurrent _ _ _ step) hcontainer {}

/-! ## Entries that were added -/

/-- What becomes of null when a segment selects from it is no reference. -/
theorem isReference_descend_null (haction : action.MakesNoReferences) {segment : Segment}
    (hsegment : segment ≠ .root) (searching strict creating : Bool) (rest : List Segment)
    (location : Location) :
    (descend action arrive searching strict creating (segment :: rest) location
      .null).value.isReference = false := by
  have hentered : (entered (if creating then action.shaping? else none) location segment
      .null).isReference = false := by
    unfold entered
    split
    · rename_i shaping hsome
      refine haction.shaping shaping ?_ location segment
      split at hsome
      · exact hsome
      · cases hsome
    · rfl
  rw [descend_segment hsegment, Edit.atTarget_eq,
    Value.mapTarget_of_target (View.target_of_isReference hentered),
    View.target_of_isReference hentered]
  exact isReference_onward haction hentered

/-- What becomes of null in a search is no reference. -/
theorem isReference_search_null (haction : action.MakesNoReferences) {searches : List (List Segment)}
    (hgroups : ∀ group ∈ searches, group ≠ []) (hroot : ∀ group ∈ searches, .root ∉ group)
    {edit : Location → Value → Edit} (hedit : search action searches = some edit)
    (location : Location) : (edit location .null).value.isReference = false := by
  cases searches with
  | nil => cases hedit
  | cons group rest =>
    obtain rfl := Option.some.inj hedit
    have hroot := hroot group List.mem_cons_self
    cases group with
    | nil => exact absurd rfl (hgroups [] List.mem_cons_self)
    | cons segment more =>
      have hsegment : segment ≠ .root := fun hsame => hroot (by simp [hsame])
      rw [throughout_eq]
      exact isReference_descend_null haction hsegment true false false more location

/-- Where an entry has been added along the path that some text spells, no reference is left. -/
theorem leavesNoReference (haction : action.MakesNoReferences) {path : Path}
    (hpath : path.IsCanonical) {group : List Segment} {rest : List (List Segment)}
    (hgroup : group :: rest <:+ path.groups) :
    action.LeavesNoReference (search action rest) group := by
  have hrest : rest <:+ path.searches := by
    rcases List.suffix_cons_iff.mp hgroup with hall | hlater
    · rw [(List.cons.inj hall).2]
    · exact (List.suffix_cons group rest).trans hlater
  have hroot : .root ∉ group.tail := by
    rcases List.suffix_cons_iff.mp hgroup with hall | hlater
    · rw [(List.cons.inj hall).1]
      exact hpath.root_first
    · exact fun hmem => hpath.root_notMem_search group (hlater.subset List.mem_cons_self)
        (List.mem_of_mem_tail hmem)
  intro segments hsegments hmore strict location
  cases segments with
  | nil =>
    cases harrive : search action rest with
    | none => simp [harrive] at hmore
    | some edit =>
      exact isReference_search_null haction
        (fun group hmem => hpath.search_ne_nil group (hrest.subset hmem))
        (fun group hmem => hpath.root_notMem_search group (hrest.subset hmem)) harrive location
  | cons segment more =>
    have hsegment : segment ≠ .root := fun hsame =>
      hroot (hsame ▸ hsegments.subset List.mem_cons_self)
    exact isReference_descend_null haction hsegment false strict true more location

/-- Assigning in the shapes that a path asks for makes no references but where it assigns. -/
theorem makesNoReferences_assign (new : Value) : (assign .plain new).MakesNoReferences where
  shaping := by
    intro shaping hshaping location segment
    obtain rfl : .plain = shaping := Option.some.inj hshaping
    simp only [Shaping.plain]
    split <;> rfl
  member := by
    intro location strict steps container hcontainer
    refine isReference_sequence
      (fun step _ current hcurrent => ?_) hcontainer {}
    unfold assignMember
    split
    · rfl
    · split
      · rfl
      · split
        · rfl
        · split <;> rfl
    · dsimp only
      split <;> rfl
    · exact hcurrent

end Action

namespace Value

/-- Along the path that a text spells, references are looked through: from a value and from the one that
has what they refer to in their place, and null in place of references to nothing, the same is read, the
same is visited in the same order, and after an assignment the same is left and the same was counted.
Where one of the two fails the other does, at the same path and for the same reason. -/
theorem references_transparent {text : String} {path : Path} (hread : Path.parse text = .ok path)
    (root new : Value) :
    let view := View.throughReferences
    let strip := view.seen
    Agree (AccessError.Alike view) (fun found other => strip found = strip other)
        (root.getAt path) ((strip root).getAt path) ∧
      Agree (AccessError.Alike view) Eq (root.visits path).outcome ((strip root).visits path).outcome ∧
      List.Forall₂ view.SameAt (root.visits path).collected ((strip root).visits path).collected ∧
      Agree (AccessError.Alike view) Eq (root.setAt path new .plain).2
        ((strip root).setAt path (strip new) .plain).2 ∧
      strip (root.setAt path new .plain).1 = strip ((strip root).setAt path (strip new) .plain).1 := by
  intro view strip
  have hroot : view.seen root = view.seen (strip root) := (View.seen_seen view root).symm
  have hvisits := visits_alike hroot path
  have hpath := Path.isCanonical_of_parse hread
  have hset := Action.run_alike (Action.assign_alike (View.seen_seen view new).symm .plain) path
    (.inr fun group rest hgroup =>
      ⟨Action.leavesNoReference (Action.makesNoReferences_assign new) hpath hgroup,
        Action.leavesNoReference (Action.makesNoReferences_assign (strip new)) hpath hgroup⟩) hroot
  exact ⟨getAt_alike hroot path, hvisits.outcome, hvisits.collected, hset.2, hset.1⟩

/-- A reference is assigned behind a chain of references, and behind references to nothing on the way,
of which one has been pointed at a map to which an entry was added. -/
theorem references_transparent_chain :
    let path : Path := { first := [.wildcard, .key "b", .index 1] }
    let root : Value := .map [("a", .ref (.ref (.map [("b", .nilRef)]))), ("c", .nilRef)]
    let row (last : Value) : Value := .list (.growable #[.null, last])
    let after : Value := .map [("a", .ref (.ref (.map [("b", .ref (row (.ref (.int 5))))]))),
      ("c", .ref (.map [("b", row (.ref (.int 5)))]))]
    let strip := View.throughReferences.seen
    Path.parse "*.b[1]" = .ok path ∧ strip root = .map [("a", .map [("b", .null)]), ("c", .null)] ∧
      root.setAt path (.ref (.int 5)) .plain = (after, .ok 2) ∧
      ((strip root).setAt path (.int 5) .plain).2 = .ok 2 ∧
      strip ((strip root).setAt path (.int 5) .plain).1 =
        .map [("a", .map [("b", row (.int 5))]), ("c", .map [("b", row (.int 5))])] := by
  intro path root row after strip
  have hread : Path.parse "*.b[1]" = .ok path := by
    simp only [path]
    cbv
  have hroot : strip root = .map [("a", .map [("b", .null)]), ("c", .null)] := by
    simp [strip, root, View.seen, View.throughReferences, Entries.mapValues]
  have hset : root.setAt path (.ref (.int 5)) .plain = (after, .ok 2) := by
    simp only [root, path, row, after]
    cbv
  have hnew : strip (.ref (.int 5)) = .int 5 := by
    simp [strip, View.seen, View.throughReferences]
  obtain ⟨-, -, -, hcount, hleft⟩ := references_transparent hread root (.ref (.int 5))
  have hafter : strip after =
      .map [("a", .map [("b", row (.int 5))]), ("c", .map [("b", row (.int 5))])] := by
    simp [strip, after, row, View.seen, View.throughReferences, Entries.mapValues,
      Sequence.growable, Sequence.map]
  change Agree _ Eq _ ((strip root).setAt path (strip (.ref (.int 5))) .plain).2 at hcount
  change strip _ = strip ((strip root).setAt path (strip (.ref (.int 5))) .plain).1 at hleft
  rw [hset, hnew] at hcount hleft
  generalize ((strip root).setAt path (.int 5) .plain).2 = count at hcount ⊢
  cases hcount with
  | ok hsame => exact ⟨hread, hroot, hset, hsame ▸ rfl, hleft.symm.trans hafter⟩

end Value

end NestedData
