import NestedData.Proofs.Access.Assigning
import NestedData.Proofs.Access.Surviving
import NestedData.Proofs.Schema.Shapes

/-!
# Assignments leave the structure standing

This module follows the assignment of a datum along any path and shows that every step
keeps the places of the value, except where the datum is written: making room, going on to
a child, writing a child, and searching everything below a place.  Whether the assignment
succeeds does not matter, since an edit that ends with a fault has been made of the same
steps.

Main results:

- `Action.assignMember_extends`, `Action.editChild_extends`: what one step does to a
  container.
- `Action.descend_spares`, `Action.search_spares`: what a group and the searches do.
- `Value.setAt_keeps_structure`: what was at a place has only been added to, unless the datum
  stands there or above it.
-/

namespace NestedData

namespace Value

variable {new before middle after value container child next : Value} {step : Step}

/-- A value has become a well-formed one that keeps its places, except where the new value
stands. -/
structure Spares (new before after : Value) : Prop where
  /-- The places are kept. -/
  keeps : Keeps new before after
  /-- What has become of the value is well-formed. -/
  wellFormed : after.WellFormed

/-- A container has become a well-formed one that keeps its children. -/
structure Extends (new before after : Value) : Prop where
  /-- The container and its children are kept. -/
  retains : Retains new before after
  /-- What has become of the container is well-formed. -/
  wellFormed : after.WellFormed

theorem Extends.refl (hcontainer : container.WellFormed) : Extends new container container :=
  ⟨.refl new container, hcontainer⟩

theorem Extends.trans (hnew : new.kind.isScalar = true) (hfirst : Extends new before middle)
    (hsecond : Extends new middle after) : Extends new before after :=
  ⟨hfirst.retains.trans hnew hsecond.retains, hsecond.wellFormed⟩

theorem Extends.setChild (hcontainer : container.WellFormed)
    (hchild : container.child? step = some child) (hspares : Spares new child next) :
    Extends new container (container.setChild step next) :=
  ⟨.setChild hchild hspares.keeps, hcontainer.setChild hspares.wellFormed step⟩

theorem Extends.spares (hextends : Extends new container after)
    (hcontainer : container.target = container) : Spares new container after where
  keeps := by
    apply Keeps.of_retains
    rw [hcontainer, hextends.retains.survives.target_eq hcontainer]
    exact hextends.retains
  wellFormed := hextends.wellFormed

theorem Spares.mapTarget (hspares : Spares new before.target after) (value : Value) :
    Spares new before (value.mapTarget fun _ => after) where
  keeps := by
    rw [← Keeps.target_iff, target_mapTarget, ← target_target before]
    exact Keeps.target_iff.mpr hspares.keeps
  wellFormed := hspares.wellFormed.mapTarget

theorem Spares.trans (hnew : new.kind.isScalar = true) (hfirst : Spares new before middle)
    (hsecond : Spares new middle after) : Spares new before after :=
  ⟨hfirst.keeps.trans hnew hsecond.keeps, hsecond.wellFormed⟩

/-- A datum is well-formed. -/
theorem WellFormed.of_isScalar (hnew : new.kind.isScalar = true) : new.WellFormed := by
  cases new with
  | list sequence =>
    rcases sequence with ⟨extent, items⟩
    cases extent <;> cases hnew
  | map entries => cases hnew
  | record aggregate => cases hnew
  | ref referent => cases hnew
  | _ => simp

/-- Where a datum has been written, nothing that was there matters. -/
theorem Spares.assign (hnew : new.kind.isScalar = true) (slot : Value) :
    Spares new slot (slot.assign new) where
  keeps := by
    apply Keeps.of_written
    rw [target_assign]
    cases new <;> first | rfl | cases hnew
  wellFormed := (WellFormed.of_isScalar hnew).assign slot

end Value

namespace Action

open Value

variable {shaping : Shaping} {shaping? : Option Shaping} {new value container : Value}
  {location : Location} {step : Step} {segment : Segment} {searching strict : Bool}

/-! ## One container -/

/-- A field that may not be written keeps its value. -/
theorem value_assignMember_of_readOnly (hreadOnly : container.isReadOnly step = true) :
    (assignMember shaping new location strict step container).value = container := by
  cases container with
  | record aggregate =>
    cases step with
    | index position => cases hreadOnly
    | key name =>
      cases hfield : aggregate.field? name with
      | none => simp [isReadOnly, hfield] at hreadOnly
      | some field =>
        have hfixed : field.mutable = false := by simpa [isReadOnly, hfield] using hreadOnly
        simp only [assignMember, hfield, hfixed, Bool.false_eq_true, if_false]
        split <;> rfl
  | _ => cases hreadOnly

/-- Writing a child extends the container. -/
theorem assignMember_extends (hnew : new.kind.isScalar = true) (hshaping : shaping.Sound)
    (hcontainer : container.WellFormed) (htakes : container.Takes step) :
    Extends new container (assignMember shaping new location strict step container).value := by
  cases hwritable : container.isReadOnly step with
  | true =>
    rw [value_assignMember_of_readOnly hwritable]
    exact .refl hcontainer
  | false =>
    obtain ⟨old, hold⟩ := exists_child?_makeRoom shaping location htakes
    have hroomy := hcontainer.makeRoom hshaping.zero location step
    rw [assignMember_eq_put strict new htakes hwritable hold]
    exact Extends.trans hnew ⟨.makeRoom shaping location htakes, hroomy⟩
      (.setChild hroomy hold (.assign hnew old))

/-- Going on to a child extends the container if the child keeps its places. -/
theorem editChild_extends (hnew : new.kind.isScalar = true)
    (hshaping : ∀ shaping, shaping? = some shaping → shaping.Sound)
    {edit : Location → Value → Edit}
    (hedit : ∀ location child, child.WellFormed → Spares new child (edit location child).value)
    (hcontainer : container.WellFormed) (htakes : container.Takes step) :
    Extends new container (editChild shaping? location edit step container).value := by
  cases shaping? with
  | none =>
    simp only [editChild, Option.isSome_none, Bool.false_and, Bool.false_eq_true, if_false]
    cases hchild : container.child? step with
    | none => exact .refl hcontainer
    | some child => exact .setChild hcontainer hchild (hedit _ child (hcontainer.child hchild))
  | some shaping =>
    obtain ⟨old, hold⟩ := exists_child?_makeRoom shaping location htakes
    have hroomy := hcontainer.makeRoom (hshaping shaping rfl).zero location step
    rw [editChild_creating hold]
    dsimp only
    -- An entry that was added and is still absent has been taken back.
    split
    · exact .refl hcontainer
    · exact Extends.trans hnew ⟨.makeRoom shaping location htakes, hroomy⟩
        (.setChild hroomy hold (hedit _ old (hroomy.child hold)))

/-- A sequence of steps extends the container if every one does. -/
theorem sequence_extends (hnew : new.kind.isScalar = true) {steps : List Step}
    {edit : Step → Value → Edit}
    (hedit : ∀ step current, current.WellFormed → current.Takes step →
      Extends new current (edit step current).value)
    (hcontainer : container.WellFormed) (htakes : ∀ step ∈ steps, container.Takes step)
    (before : Tally) : Extends new container (Edit.sequence steps edit before container).value := by
  refine Edit.sequence_preserves (fun step hstep current hcurrent => ?_) (.refl hcontainer) before
  have hstill := hcurrent.retains.survives.takes (htakes step hstep)
  exact hcurrent.trans hnew (hedit step current hcurrent.wellFormed hstill)

/-- Replacing distinct children by ones that keep their places extends the container. -/
theorem sequence_setChild_extends (hnew : new.kind.isScalar = true) {things : List (Step × Value)}
    (inner : Step × Value → Edit) (hsteps : (things.map Prod.fst).Nodup)
    (hthere : ∀ thing ∈ things, container.child? thing.1 = some thing.2)
    (hinner : ∀ thing ∈ things, Spares new thing.2 (inner thing).value)
    (hcontainer : container.WellFormed) (before : Tally) :
    Extends new container (Edit.sequence things (fun thing current =>
      { inner thing with value := current.setChild thing.1 (inner thing).value }) before
      container).value := by
  induction things generalizing container before with
  | nil => exact .refl hcontainer
  | cons thing rest ih =>
    have hfirst : Extends new container (container.setChild thing.1 (inner thing).value) :=
      .setChild hcontainer (hthere thing List.mem_cons_self) (hinner thing List.mem_cons_self)
    rw [Edit.sequence_cons]
    dsimp only
    cases (inner thing).result with
    | error error => exact hfirst
    | ok done =>
      exact hfirst.trans hnew (ih (List.nodup_cons.mp hsteps).2
        (child?_setChild_of_later hsteps hthere _)
        (fun other hother => hinner other (List.mem_cons_of_mem _ hother)) hfirst.wellFormed _)

/-! ## Groups and searches -/

theorem sound_given (hshaping : shaping.Sound) {creating : Bool} (given : Shaping)
    (hgiven : (if creating then (assign shaping new).shaping? else none) = some given) :
    given.Sound := by
  cases creating with
  | false => cases hgiven
  | true => exact Option.some.inj hgiven ▸ hshaping

/-- Making a container where nothing was keeps the places. -/
theorem extends_entered (hshaping : ∀ shaping, shaping? = some shaping → shaping.Sound)
    (location : Location) (segment : Segment) (hvalue : value.WellFormed) :
    Extends new value.target (entered shaping? location segment value).target := by
  cases shaping? with
  | none => exact .refl hvalue.target
  | some shaping =>
    rw [entered]
    cases habsent : value.target.isAbsent with
    | false =>
      rw [vivify_of_present habsent]
      exact .refl hvalue.target
    | true =>
      have hmade := (hshaping shaping rfl).container location segment
      rw [target_vivify habsent, target_of_isContainer hmade]
      exact ⟨.of_absent habsent hmade, (hshaping shaping rfl).wellFormed location segment⟩

section Groups

variable {arrive : Option (Location → Value → Edit)}

/-- Assigning along a group keeps the places, if what is done where it ends does. -/
theorem descend_spares (hnew : new.kind.isScalar = true) (hshaping : shaping.Sound)
    (harrive : ∀ edit, arrive = some edit → ∀ location value, value.WellFormed →
      Spares new value (edit location value).value)
    (creating : Bool) (segments : List Segment) (hvalue : value.WellFormed) :
    Spares new value
      (descend (assign shaping new) arrive searching strict creating segments location
        value).value := by
  induction segments generalizing searching strict creating location value with
  | nil =>
    cases arrive with
    | none => exact .assign hnew value
    | some edit => exact harrive edit rfl location value hvalue
  | cons segment rest ih =>
    by_cases hsegment : segment = .root
    · subst hsegment
      exact ih creating hvalue
    · have hsound : ∀ given, (if creating then (assign shaping new).shaping? else none) =
          some given → given.Sound := sound_given hshaping
      rw [descend_segment hsegment, Edit.atTarget_eq]
      generalize (if creating then (assign shaping new).shaping? else none) = shaping? at hsound
      have hentered : Extends new value.target (entered shaping? location segment value).target :=
        extends_entered hsound location segment hvalue
      have hcontainer := hentered.wellFormed
      apply Spares.mapTarget
      apply (hentered.trans hnew ?_).spares (target_target value)
      rcases onward_cases with ⟨error, _, hfails⟩ | ⟨steps, hselect, ⟨_, _, hlast⟩ | ⟨_, hmore⟩⟩
      · rw [hfails]
        exact .refl hcontainer
      · rw [hlast]
        refine sequence_extends hnew (fun step current hcurrent htakes => ?_) hcontainer
          (fun step hstep => ?_) {}
        · exact assignMember_extends hnew hshaping hcurrent htakes
        · exact Selection.takes_of_select (fun _ => hcontainer.hasDistinctSteps) hselect hstep
      · rw [hmore]
        refine sequence_extends hnew (fun step current hcurrent htakes => ?_) hcontainer
          (fun step hstep => ?_) {}
        · exact editChild_extends hnew hsound (fun _ child hchild => ih true hchild) hcurrent htakes
        · exact Selection.takes_of_select (fun _ => hcontainer.hasDistinctSteps) hselect hstep

/-- Editing everything inside a container, and then the container, keeps the places, if both
edits do. -/
theorem throughoutContainer_spares (hnew : new.kind.isScalar = true)
    {edit : Location → Value → Edit}
    (hedit : ∀ location value, value.WellFormed → Spares new value (edit location value).value)
    (hchildren : ∀ child ∈ container.children, ∀ location,
      Spares new child.2 (throughout edit location child.2).value)
    (hcontainer : container.WellFormed) (htarget : container.target = container) :
    Spares new container (throughoutContainer edit location container).value := by
  have hdistinct := hcontainer.hasDistinctSteps
  have hinside := (sequence_setChild_extends hnew
    (fun child => throughout edit (location.child child.1) child.2) (nodup_steps hdistinct)
    (fun child hchild => (mem_children_iff hdistinct).mp hchild)
    (fun child hchild => hchildren child hchild _) hcontainer {}).spares htarget
  unfold throughoutContainer
  generalize Edit.sequence container.children _ {} container = inside at hinside
  dsimp only
  cases inside.result with
  | error error => exact hinside
  | ok tally => exact hinside.trans hnew (hedit location _ hinside.wellFormed)

/-- Editing everything inside a value keeps the places, if the edit does. -/
theorem throughout_spares (hnew : new.kind.isScalar = true) {edit : Location → Value → Edit}
    (hedit : ∀ location value, value.WellFormed → Spares new value (edit location value).value)
    (location : Location) (hvalue : value.WellFormed) :
    Spares new value (throughout edit location value).value := by
  induction value using induct_children generalizing location with
  | hstep value ih =>
    rw [throughout_eq, Edit.atTarget_eq]
    apply Spares.mapTarget
    exact throughoutContainer_spares hnew hedit
      (fun child hmem location => ih child hmem location (hvalue.target.of_mem_children hmem))
      hvalue.target (target_target value)

/-- Searching for groups one below the other keeps the places. -/
theorem search_spares (hnew : new.kind.isScalar = true) (hshaping : shaping.Sound)
    (searches : List (List Segment)) (edit : Location → Value → Edit)
    (hedit : search (assign shaping new) searches = some edit) (location : Location)
    (value : Value) (hvalue : value.WellFormed) :
    Spares new value (edit location value).value := by
  induction searches generalizing edit location value with
  | nil => cases hedit
  | cons group rest ih =>
    obtain rfl := Option.some.inj hedit
    apply throughout_spares hnew (fun location value hvalue => ?_) location hvalue
    exact descend_spares hnew hshaping ih false group hvalue

end Groups

/-- Assigning along a path keeps the places, whether or not it succeeds. -/
theorem run_spares (hnew : new.kind.isScalar = true) (hshaping : shaping.Sound) (path : Path)
    (hvalue : value.WellFormed) : Spares new value ((assign shaping new).run path value).1 := by
  have hedit : Spares new value (descend (assign shaping new)
      (search (assign shaping new) path.searches) false true true path.first [] value).value :=
    descend_spares hnew hshaping (search_spares hnew hshaping path.searches) true path.first hvalue
  simp only [run]
  split
  · exact hedit
  · split <;> exact hedit

end Action

namespace Value

/-- Whether or not the assignment of a datum succeeds, in plain shapes or in those of a
schema without defaults: what was at a place has only been added to, or an absent value has
become a container, unless the datum now stands there or above it. -/
theorem setAt_keeps_structure {root new : Value} {shaping : Shaping} (hroot : root.WellFormed)
    (hnew : new.kind.isScalar = true)
    (hshaping : shaping = .plain ∨ ∃ schema : Schema, schema.WithoutDefaults ∧
      shaping = schema.shaping)
    (path : Path) (location : Location) (found : Value)
    (hfound : root.valueAt? location = some found) :
    (∃ above, above <+: location ∧
      (root.setAt path new shaping).1.valueAt? above = some new) ∨
    ∃ left, (root.setAt path new shaping).1.valueAt? location = some left ∧
      found.Survives left := by
  have hsound : shaping.Sound := by
    rcases hshaping with rfl | ⟨schema, hschema, rfl⟩
    · exact Shaping.sound_plain
    · exact Schema.sound_shaping hschema
  exact (Action.run_spares hnew hsound path hroot).keeps location found hfound

/-- A list is padded with the zero values of its elements before the assignment fails: it has
grown, and begins with what it was. -/
theorem setAt_keeps_structure_padded :
    let root : Value := .map [("log", .ofItems #[.int 1]), ("note", .null)]
    let log : Schema := .single { shape := .list (some (.single { shape := .int })) }
    let schema : Schema := .single { shape := .map none, children := [("log", log)] }
    let path : Path := { first := [.root, .key "log", .index 2, .key "id"] }
    let after : Value := .map [("log", .ofItems #[.int 1, .int 0, .int 0]), ("note", .null)]
    schema.WithoutDefaults ∧ (root.setAt path (.int 9) schema.shaping).1 = after ∧
      ∃ left, after.valueAt? [.key "log"] = some left ∧
        (Value.ofItems #[.int 1]).Survives left := by
  intro root log schema path after
  have hschema : schema.WithoutDefaults := by
    simp [schema, log, Schema.WithoutDefaults, Node.parts, Node.element?, Node.entries?,
      Node.pointee?]
  have hroot : root.WellFormed := by
    simp [root, ofItems, Sequence.growable, Entries.keys]
  have hzero (position : Nat) :
      schema.shaping.zeroAt [.key "log", .index position] = .int 0 := by
    simp [schema, log, Schema.shaping, Schema.zeroAt, Schema.at?, Path.isRecursive, Location.toPath,
      Step.segment, Schema.lookup_single, Node.lookupWith, Node.kind, Shape.kind,
      Segment.isMultiValued, Node.lookupEntry, Node.valueAt?, Node.child?, Entries.get?,
      Node.lookupElement, Node.length?, Node.elementAt?, Node.element?, Node.zero,
      Schema.zero_single, Node.zeroWith]
  have hset : (root.setAt path (.int 9) schema.shaping).1 = after := by
    generalize schema.shaping = shaping at hzero
    simp [root, path, after, setAt, Action.run, Action.descend, Action.assign, Action.vivify,
      mapTarget, ofItems, Sequence.growable, Edit.atTarget, Selection.select,
      Selection.selectInMap, Selection.selectEntry, Entries.contains, Entries.get?,
      Segment.isMultiValued, Edit.sequence, Action.editChild, Action.makeRoom, child?,
      Location.child, Selection.selectInList, Selection.reaches, Selection.mayGrow,
      Sequence.canGrow, Sequence.size, growthLimit, Action.padTo, Sequence.pad, List.range',
      Sequence.get?, hzero, Selection.miss, setChild, Entries.insert, Sequence.set, Edit.fail,
      Action.addsEntry]
  refine ⟨hschema, hset, ?_⟩
  have hkept := setAt_keeps_structure hroot (by rfl : (Value.int 9).kind.isScalar = true)
    (.inr ⟨schema, hschema, rfl⟩) path [.key "log"] (.ofItems #[.int 1]) rfl
  rw [hset] at hkept
  refine hkept.resolve_left ?_
  rintro ⟨above, habove, hnew⟩
  cases above with
  | nil => cases hnew
  | cons step rest =>
    obtain ⟨rfl, hrest⟩ := List.cons_prefix_cons.mp habove
    obtain rfl := List.prefix_nil.mp hrest
    cases hnew

end Value

end NestedData
