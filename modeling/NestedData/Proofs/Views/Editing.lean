import NestedData.Access.Assign
import NestedData.Access.Erase
import NestedData.Proofs.Access.Assigning
import NestedData.Proofs.Access.Upholding
import NestedData.Proofs.Views.Reading

/-!
# Changes in a view

Two values that are seen alike are changed alike.  This module follows an action along a path through
both: what is left of them is seen alike at every stage, the same is counted, and a fault ends both or
neither.  A view that looks through references does not tell a reference to nothing from null, so there
the action must leave no reference in place of an entry that was added.

Main results:

- `View.Same.setChild`, `View.Same.makeRoom`: containers that are seen alike are changed alike.
- `Action.editChild_same`: so is a child of each, room being made for it and taken back.
- `Action.descend_alike`, `Action.throughout_alike`: an action at the end of segments, and everywhere.
- `Action.run_alike`: an action along a path.
-/

namespace NestedData

open Outcome

variable {view : View}

/-! ## Edits -/

/-- Two edits that leave values that are seen alike, with the same count or faults that are. -/
structure Edit.Alike (view : View) (edit other : Edit) : Prop where
  /-- What is left is seen alike. -/
  value : view.seen edit.value = view.seen other.value
  /-- The same has been done, or faults that are seen alike have ended the edits. -/
  result : Agree (AccessError.Alike view) Eq edit.result other.result

/-- Two edits of containers that leave containers that are seen alike. -/
structure Edit.Same (view : View) (edit other : Edit) : Prop where
  /-- What is left is seen alike, and no reference. -/
  value : view.Same edit.value other.value
  /-- The same has been done, or faults that are seen alike have ended the edits. -/
  result : Agree (AccessError.Alike view) Eq edit.result other.result

namespace Edit

variable {α β : Type} {value other : Value}

theorem Same.alike {edit other : Edit} (hsame : edit.Same view other) : edit.Alike view other where
  value := hsame.value.seen
  result := hsame.result

theorem atTarget_alike {edit retouch : Value → Edit} (hsame : view.seen value = view.seen other)
    (hedit : (edit value.target).Alike view (retouch other.target)) :
    (atTarget edit value).Alike view (atTarget retouch other) := by
  rw [atTarget_eq, atTarget_eq]
  exact ⟨View.seen_mapTarget_congr hsame hedit.value, hedit.result⟩

/-- Sequences of paired edits of containers that are seen alike are alike. -/
theorem sequence_same {paired : α → β → Prop} {things : List α} {others : List β}
    {edit : α → Value → Edit} {retouch : β → Value → Edit}
    (hthings : List.Forall₂ paired things others)
    (hedit : ∀ thing twin, paired thing twin → ∀ before after, view.Same before after →
      (edit thing before).Same view (retouch twin after))
    (hsame : view.Same value other) (tally : Tally) :
    (sequence things edit tally value).Same view (sequence others retouch tally other) := by
  induction hthings generalizing value other tally with
  | nil => exact ⟨hsame, .ok rfl⟩
  | @cons thing twin rest others hpair _ ih =>
    obtain ⟨hvalue, hresult⟩ := hedit thing twin hpair value other hsame
    rw [sequence_cons, sequence_cons]
    generalize (edit thing value).result = result at hresult ⊢
    generalize (retouch twin other).result = outcome at hresult ⊢
    cases hresult with
    | error herror => exact ⟨hvalue, .error herror⟩
    | @ok done _ heq =>
      subst heq
      exact ih hvalue _

end Edit

/-! ## Containers -/

namespace Action

variable {value : Value}

theorem makeRoom_of_leaf (hleaf : value.kind.isContainer = false) (shaping : Shaping)
    (location : Location) (step : Step) : makeRoom shaping location step value = value := by
  cases value with
  | list sequence =>
    rw [Value.isContainer_list] at hleaf
    cases hleaf
  | _ => first | rfl | cases hleaf

theorem addsEntry_of_leaf (hleaf : value.kind.isContainer = false) (step : Step) :
    addsEntry step value = false := by
  cases value <;> first | rfl | cases hleaf

end Action

namespace View

variable {value other child next : Value}

theorem canGrow_congr {sequence other : Sequence Value}
    (hitems : sequence.map view.seen = other.map view.seen) : sequence.canGrow = other.canGrow := by
  rw [← Sequence.canGrow_map (f := view.seen), hitems, Sequence.canGrow_map]

/-- Lists that are seen alike are padded alike. -/
theorem map_padTo {sequence other : Sequence Value}
    (hitems : sequence.map view.seen = other.map view.seen) (shaping : Shaping) (location : Location)
    (position : Nat) :
    (Action.padTo shaping location position sequence).map view.seen =
      (Action.padTo shaping location position other).map view.seen := by
  rw [Action.padTo, Action.padTo, canGrow_congr hitems]
  split
  · rw [Sequence.map_pad, Sequence.map_pad, hitems]
  · exact hitems

theorem contains_congr {entries others : Entries Value}
    (hentries : Entries.mapValues view.seen entries = Entries.mapValues view.seen others)
    (key : String) : Entries.contains entries key = Entries.contains others key := by
  rw [← Entries.contains_mapValues (f := view.seen), hentries, Entries.contains_mapValues]

/-- Containers that are seen alike are so when a child of each is replaced by values that are. -/
theorem Same.setChild (hsame : view.Same value other) (hchild : view.seen child = view.seen next)
    (step : Step) : view.Same (value.setChild step child) (other.setChild step next) := by
  cases hsame.paired with
  | map hentries =>
    cases step with
    | index position => exact hsame
    | key name =>
      rw [Value.setChild, Value.setChild, contains_congr hentries]
      split
      · refine ⟨?_, rfl, rfl⟩
        rw [seen_map, seen_map, Entries.mapValues_insert, Entries.mapValues_insert, hentries, hchild]
      · exact hsame
  | record hfields =>
    cases step with
    | index position => exact hsame
    | key name =>
      refine ⟨?_, rfl, rfl⟩
      rw [Value.setChild, Value.setChild, seen_record, seen_record,
        record_setValue_congr hfields fun _ _ _ => hchild]
  | list hitems =>
    cases step with
    | key name => exact hsame
    | index position =>
      refine ⟨?_, rfl, rfl⟩
      rw [Value.setChild, Value.setChild, seen_list, seen_list, Sequence.map_set, Sequence.map_set,
        hitems, hchild]
  | leaf hvalue hother =>
    rwa [Value.setChild_of_leaf hvalue, Value.setChild_of_leaf hother]

/-- In containers that are seen alike, room is made alike. -/
theorem Same.makeRoom (hsame : view.Same value other) (shaping : Shaping) (location : Location)
    (step : Step) :
    view.Same (Action.makeRoom shaping location step value)
      (Action.makeRoom shaping location step other) := by
  cases hsame.paired with
  | map hentries =>
    cases step with
    | index position => exact hsame
    | key name =>
      rw [Action.makeRoom, Action.makeRoom, contains_congr hentries]
      split
      · exact hsame
      · refine ⟨?_, rfl, rfl⟩
        rw [seen_map, seen_map, Entries.mapValues_insert, Entries.mapValues_insert, hentries]
  | record => exact hsame
  | list hitems =>
    cases step with
    | key name => exact hsame
    | index position =>
      refine ⟨?_, rfl, rfl⟩
      rw [Action.makeRoom, Action.makeRoom, seen_list, seen_list, map_padTo hitems]
  | leaf hvalue hother =>
    rwa [Action.makeRoom_of_leaf hvalue, Action.makeRoom_of_leaf hother]

/-- To containers that are seen alike, the same entries are added. -/
theorem Same.addsEntry (hsame : view.Same value other) (step : Step) :
    Action.addsEntry step value = Action.addsEntry step other := by
  cases hsame.paired with
  | map hentries =>
    cases step with
    | index position => rfl
    | key name => rw [Action.addsEntry, Action.addsEntry, contains_congr hentries]
  | record => cases step <;> rfl
  | list => cases step <;> rfl
  | leaf hvalue hother =>
    rw [Action.addsEntry_of_leaf hvalue, Action.addsEntry_of_leaf hother]

theorem isAbsent_congr (hsame : view.seen value = view.seen other)
    (hplain : view.references = true ∨ value.isReference = false ∧ other.isReference = false) :
    value.isAbsent = other.isAbsent := by
  rw [← isAbsent_seen (hplain.imp_right fun h => target_of_isReference h.1), hsame,
    isAbsent_seen (hplain.imp_right fun h => target_of_isReference h.2)]

/-- Values that are seen alike still are with a container in place of nothing. -/
theorem seen_vivify (hsame : view.seen value = view.seen other) (shaping : Shaping)
    (location : Location) (segment : Segment) :
    view.seen (Action.vivify shaping location segment value) =
      view.seen (Action.vivify shaping location segment other) := by
  have hseen := (same_target hsame).seen
  have hnothing : value.target.isAbsent = other.target.isAbsent := by
    rw [← isAbsent_seen (.inr (Value.target_target value)), hseen,
      isAbsent_seen (.inr (Value.target_target other))]
  cases habsent : value.target.isAbsent with
  | false =>
    rwa [Action.vivify_of_present habsent, Action.vivify_of_present (hnothing.symm.trans habsent)]
  | true =>
    -- a reference to nothing stays a reference, which is seen only where references are shown
    obtain ⟨fill, hfill, hnull, hnilRef⟩ : ∃ fill : Value → Value,
        Action.vivify shaping location segment = Value.mapTarget fill ∧
          fill .null = shaping.containerAt location segment ∧
          fill .nilRef = .ref (shaping.containerAt location segment) := ⟨_, rfl, rfl, rfl⟩
    have hmade (slot : Value) (habsent : slot.isAbsent = true) : view.seen (fill slot) =
        if (view.seen slot).isReference then .ref (view.seen (shaping.containerAt location segment))
        else view.seen (shaping.containerAt location segment) := by
      cases slot with
      | null => simp [hnull, seen, Value.isReference]
      | nilRef => cases hreferences : view.references <;>
          simp [hnilRef, seen_nilRef, seen_ref, hreferences, Value.isReference]
      | _ => cases habsent
    rw [hfill]
    refine seen_mapTarget_congr hsame ((hmade _ habsent).trans ?_)
    rw [hseen]
    exact (hmade _ (hnothing.symm.trans habsent)).symm

end View

namespace Action

/-! ## Children -/

section Children

variable {value other : Value} {edit retouch : Location → Value → Edit}

/-- An entry that is added holds null. -/
theorem child?_makeRoom_of_addsEntry {container : Value} {step : Step}
    (hadded : addsEntry step container = true) (shaping : Shaping) (location : Location) :
    (makeRoom shaping location step container).child? step = some .null := by
  cases container with
  | map entries =>
    cases step with
    | index position => cases hadded
    | key name =>
      have habsent : ¬Entries.contains entries name = true := by simpa [addsEntry] using hadded
      rw [makeRoom, if_neg habsent, Value.child?, Entries.get?_insert, if_pos rfl]
  | _ => cases hadded

/-- An edit of the child that a step leads to leaves containers that are seen alike if the children are
left so.  Where references are looked through, neither edit may leave a reference in place of null. -/
theorem editChild_same (hsame : view.Same value other)
    (hedit : ∀ location before after, view.seen before = view.seen after →
      (edit location before).Alike view (retouch location after))
    (hplain : view.references = true ∨ ∀ location,
      (edit location .null).value.isReference = false ∧
        (retouch location .null).value.isReference = false)
    (shaping? : Option Shaping) (location : Location) (step : Step) :
    (editChild shaping? location edit step value).Same view
      (editChild shaping? location retouch step other) := by
  cases shaping? with
  | none =>
    simp only [editChild, Option.isSome_none, Bool.false_and, Bool.false_eq_true, if_false]
    have hchild := hsame.child step
    generalize value.child? step = found at hchild ⊢
    generalize other.child? step = next at hchild ⊢
    cases hchild with
    | none => exact ⟨hsame, .ok rfl⟩
    | some hseen =>
      have hinner := hedit (location.child step) _ _ hseen
      exact ⟨hsame.setChild hinner.value step, hinner.result⟩
  | some shaping =>
    have hroom := hsame.makeRoom shaping location step
    have hchild := hroom.child step
    generalize hbefore : (makeRoom shaping location step value).child? step = found at hchild
    generalize hafter : (makeRoom shaping location step other).child? step = next at hchild
    cases hchild with
    | none =>
      simp only [editChild, hbefore, hafter]
      exact ⟨hroom, .ok rfl⟩
    | some hseen =>
      have hinner := hedit (location.child step) _ _ hseen
      rw [editChild_creating hbefore, editChild_creating hafter, ← hsame.addsEntry step]
      refine ⟨?_, hinner.result⟩
      cases hadded : addsEntry step value with
      | false => exact hroom.setChild hinner.value step
      | true =>
        have htwin := (hsame.addsEntry step).symm.trans hadded
        -- The added entry held null on both sides, and goes again on both or on neither.
        rw [child?_makeRoom_of_addsEntry hadded] at hbefore
        rw [child?_makeRoom_of_addsEntry htwin] at hafter
        cases hbefore
        cases hafter
        rw [View.isAbsent_congr hinner.value (hplain.imp_right fun h => h _)]
        dsimp only
        split
        · exact hsame
        · exact hroom.setChild hinner.value step

end Children

/-! ## Actions -/

/-- Two actions that do the same as far as is seen. -/
structure Alike (view : View) (action other : Action) : Prop where
  /-- Faults are reported under the same name. -/
  operation : action.operation = other.operation
  /-- The same is created on the way. -/
  shaping : action.shaping? = other.shaping?
  /-- Values that are seen alike are changed alike. -/
  whole : ∀ before after, view.seen before = view.seen after →
    view.seen (action.whole before) = view.seen (other.whole after)
  /-- Children of containers that are seen alike are changed alike. -/
  member : ∀ location strict steps before after, view.Same before after →
    (action.member location strict steps before).Same view
      (other.member location strict steps after)

/-- Where segments go on after a child of a container has been added as null, no reference is left in
its place. -/
def LeavesNoReference (action : Action) (arrive : Option (Location → Value → Edit))
    (segments : List Segment) : Prop :=
  ∀ rest, rest <:+ segments.tail → (arrive.isNone && rest.isEmpty) = false → ∀ strict location,
    (descend action arrive false strict true rest location .null).value.isReference = false

/-- What leaves no reference after the first of some segments leaves none after the first of the
others. -/
theorem LeavesNoReference.tail {action : Action} {arrive : Option (Location → Value → Edit)}
    {segment : Segment} {rest : List Segment}
    (hplain : action.LeavesNoReference arrive (segment :: rest)) :
    action.LeavesNoReference arrive rest :=
  fun last hlast => hplain last (hlast.trans (List.tail_suffix rest))

section Actions

variable {action other : Action} {value twin : Value}

/-- Two edits of the values at a place are alike wherever the values are seen alike. -/
def AlikeAt (view : View) (edit retouch : Location → Value → Edit) : Prop :=
  ∀ location before after, view.seen before = view.seen after →
    (edit location before).Alike view (retouch location after)

/-- Values that are seen alike still are where containers have been made for a segment. -/
theorem seen_entered (hsame : view.seen value = view.seen twin) (shaping? : Option Shaping)
    (location : Location) (segment : Segment) :
    view.seen (entered shaping? location segment value) =
      view.seen (entered shaping? location segment twin) := by
  cases shaping? with
  | none => exact hsame
  | some shaping => exact View.seen_vivify hsame shaping location segment

/-- From containers that are seen alike a segment selects the same children, and what becomes of the
containers is seen alike if what the rest of the group does to the children is. -/
theorem onward_same (haction : action.Alike view other)
    {arrive rearrive : Option (Location → Value → Edit)}
    (harrive : arrive.isNone = rearrive.isNone) {rest : List Segment}
    (hrest : ∀ strict, AlikeAt view (descend action arrive false strict true rest)
      (descend other rearrive false strict true rest))
    (hplain : view.references = true ∨
      ((arrive.isNone && rest.isEmpty) = false → ∀ strict location,
        (descend action arrive false strict true rest location .null).value.isReference = false ∧
          (descend other rearrive false strict true rest location .null).value.isReference = false))
    (searching strict : Bool) (shaping? : Option Shaping) (segment : Segment) (location : Location)
    (hsame : view.Same value twin) :
    (onward action arrive searching strict shaping? segment rest location value).Same view
      (onward other rearrive searching strict shaping? segment rest location twin) := by
  have hselect := Selection.select_alike
    { operation := action.operation, location, strict, create := shaping?.isSome, searching }
    hsame segment
  rw [onward, onward, ← haction.operation, ← harrive]
  generalize Selection.select _ value segment = selected at hselect ⊢
  generalize Selection.select _ twin segment = reselected at hselect ⊢
  cases hselect with
  | error herror => exact ⟨hsame, .error herror⟩
  | @ok steps _ hsteps =>
    subst hsteps
    dsimp only
    split
    · exact haction.member location _ steps value twin hsame
    · rename_i hmore
      refine Edit.sequence_same (List.forall₂_eq_eq_eq ▸ rfl) ?_ hsame {}
      rintro step _ rfl before after hcurrent
      exact editChild_same hcurrent (hrest _)
        (hplain.imp_right fun h => h (eq_false_of_ne_true hmore) _) shaping? location step

/-- Along segments, actions that do the same do so to values that are seen alike. -/
theorem descend_alike (haction : action.Alike view other)
    {arrive rearrive : Option (Location → Value → Edit)}
    (harrive : Option.Rel (AlikeAt view) arrive rearrive) {segments : List Segment}
    (hplain : view.references = true ∨
      action.LeavesNoReference arrive segments ∧ other.LeavesNoReference rearrive segments)
    (searching strict creating : Bool) :
    AlikeAt view (descend action arrive searching strict creating segments)
      (descend other rearrive searching strict creating segments) := by
  induction segments generalizing searching strict creating with
  | nil =>
    intro location before after hsame
    cases harrive with
    | none => exact ⟨haction.whole before after hsame, .ok rfl⟩
    | some hedit => exact hedit location before after hsame
  | cons segment rest ih =>
    have hrest := ih (hplain.imp_right fun h => ⟨h.1.tail, h.2.tail⟩)
    intro location before after hsame
    by_cases hsegment : segment = .root
    · subst hsegment
      exact hrest false strict creating location before after hsame
    · rw [descend_segment hsegment, descend_segment hsegment, haction.shaping]
      have hentered := seen_entered hsame (if creating then other.shaping? else none) location segment
      have hlast : arrive.isNone = rearrive.isNone := by cases harrive <;> rfl
      refine Edit.atTarget_alike hentered (Edit.Same.alike ?_)
      refine onward_same haction hlast (fun strict => hrest false strict true)
        (hplain.imp_right fun h hopen strict location => ?_) searching strict _ segment location
        (View.same_target hentered)
      exact ⟨h.1 rest (List.suffix_refl rest) hopen strict location,
        h.2 rest (List.suffix_refl rest) (hlast ▸ hopen) strict location⟩

/-- Edits of everything inside a container, and then of the container, are alike if they are alike in
its children and the edits are. -/
theorem throughoutContainer_alike {edit retouch : Location → Value → Edit}
    (hedit : AlikeAt view edit retouch) (location : Location)
    (hchildren : ∀ child ∈ value.children, ∀ location next, view.seen child.2 = view.seen next →
      (throughout edit location child.2).Alike view (throughout retouch location next))
    (hsame : view.Same value twin) :
    (throughoutContainer edit location value).Alike view
      (throughoutContainer retouch location twin) := by
  have hpaired : List.Forall₂ (fun child next => child ∈ value.children ∧ view.SameAt child next)
      value.children twin.children :=
    (List.forall₂_and_left _ _).mpr ⟨fun _ => id, hsame.children⟩
  have hinside :
      (Edit.sequence value.children (fun child container =>
        let inner := throughout edit (location.child child.1) child.2
        { inner with value := container.setChild child.1 inner.value }) {} value).Same view
      (Edit.sequence twin.children (fun child container =>
        let inner := throughout retouch (location.child child.1) child.2
        { inner with value := container.setChild child.1 inner.value }) {} twin) := by
    refine Edit.sequence_same hpaired ?_ hsame {}
    rintro child next ⟨hmem, hstep, hseen⟩ _ _ hcurrent
    have hinner := hchildren child hmem (location.child child.1) next.2 hseen
    rw [← hstep]
    exact ⟨hcurrent.setChild hinner.value child.1, hinner.result⟩
  obtain ⟨hvalue, hresult⟩ := hinside
  unfold throughoutContainer
  dsimp only at hvalue hresult ⊢
  generalize Edit.sequence value.children _ {} value = inside at hvalue hresult ⊢
  generalize Edit.sequence twin.children _ {} twin = within at hvalue hresult ⊢
  rcases inside with ⟨left, result⟩
  rcases within with ⟨right, outcome⟩
  dsimp only at hvalue hresult ⊢
  cases hresult with
  | error herror => exact ⟨hvalue.seen, .error herror⟩
  | @ok tally _ heq =>
    subst heq
    obtain ⟨hlast, hdone⟩ := hedit location left right hvalue.seen
    exact ⟨hlast, hdone.map fun _ _ => congrArg tally.add⟩

/-- Edits of everything inside a value, and then of the value, are alike if the edits are. -/
theorem throughout_alike {edit retouch : Location → Value → Edit} (hedit : AlikeAt view edit retouch) :
    AlikeAt view (throughout edit) (throughout retouch) := by
  intro location before
  induction before using Value.induct_children generalizing location with
  | hstep before ih =>
    intro after hsame
    rw [throughout_eq, throughout_eq]
    exact Edit.atTarget_alike hsame
      (throughoutContainer_alike hedit location ih (View.same_target hsame))

/-- Searches are alike if the actions do the same. -/
theorem search_alike (haction : action.Alike view other) {searches : List (List Segment)}
    (hplain : view.references = true ∨ ∀ group rest, group :: rest <:+ searches →
      action.LeavesNoReference (search action rest) group ∧
        other.LeavesNoReference (search other rest) group) :
    Option.Rel (AlikeAt view) (search action searches) (search other searches) := by
  induction searches with
  | nil => exact .none
  | cons group rest ih =>
    have hrest := ih (hplain.imp_right fun h later last hlater =>
      h later last (hlater.trans (List.suffix_cons group rest)))
    exact .some (throughout_alike (descend_alike haction hrest
      (hplain.imp_right fun h => h group rest (List.suffix_refl _)) true false false))

/-- Actions that do the same along a path leave values that are seen alike if the values were, whether
or not they fail, and they come to the same end. -/
theorem run_alike (haction : action.Alike view other) (path : Path)
    (hplain : view.references = true ∨ ∀ group rest, group :: rest <:+ path.groups →
      action.LeavesNoReference (search action rest) group ∧
        other.LeavesNoReference (search other rest) group)
    (hsame : view.seen value = view.seen twin) :
    view.seen (action.run path value).1 = view.seen (other.run path twin).1 ∧
      Agree (AccessError.Alike view) Eq (action.run path value).2 (other.run path twin).2 := by
  have hsearch : Option.Rel (AlikeAt view) (search action path.searches)
      (search other path.searches) :=
    search_alike haction (hplain.imp_right
      fun h group rest hrest => h group rest (hrest.trans (List.suffix_cons path.first _)))
  have hedit := descend_alike haction hsearch
    (hplain.imp_right fun h => h path.first path.searches (List.suffix_refl _)) false true true []
    value twin hsame
  obtain ⟨hvalue, hresult⟩ := hedit
  unfold run
  dsimp only
  generalize (descend action _ false true true path.first [] value) = edit at hvalue hresult ⊢
  generalize (descend other _ false true true path.first [] twin) = retouch at hvalue hresult ⊢
  rcases edit with ⟨left, result⟩
  rcases retouch with ⟨right, outcome⟩
  dsimp only at hvalue hresult ⊢
  cases hresult with
  | error herror => exact ⟨hvalue, .error herror⟩
  | @ok tally _ heq =>
    subst heq
    dsimp only
    split
    · exact ⟨hvalue, .ok rfl⟩
    · exact ⟨hvalue, .error ⟨haction.operation, rfl, hvalue, rfl⟩⟩

end Actions

/-! ## Assigning -/

section Assigning

variable {new renewed : Value}

theorem seen_target_of_references (hreferences : view.references = false) (value : Value) :
    view.seen value.target = view.seen value := by
  induction value using Value.induct with
  | ref referent ih => rw [Value.target, ih, View.seen_ref, hreferences, if_neg Bool.false_ne_true]
  | _ => rfl

/-- What is written through references is seen there. -/
theorem seen_written (new : Value) {slot : Value} (hslot : slot.target = slot) :
    view.seen (Value.written new slot) =
      view.seen (Value.written (view.seen new) (view.seen slot)) := by
  cases slot with
  | ref referent => exact absurd hslot (Value.target_ne_ref _ _)
  | nilRef =>
    rw [View.seen_nilRef]
    cases hreferences : view.references <;> simp [Value.written, View.seen_ref, hreferences]
  | _ => simp [View.seen, Value.written]

/-- Slots that are seen alike are when values that are have been written into them. -/
theorem seen_assign {slot other : Value} (hslot : view.seen slot = view.seen other)
    (hnew : view.seen new = view.seen renewed) :
    view.seen (slot.assign new) = view.seen (other.assign renewed) := by
  cases hreferences : view.references with
  | false =>
    have hseen (slot new : Value) : view.seen (slot.assign new) = view.seen new := by
      rw [← seen_target_of_references hreferences, Value.target_assign,
        seen_target_of_references hreferences]
    rw [hseen, hseen, hnew]
  | true =>
    have hsort : new.isReference = renewed.isReference := by
      rw [Bool.eq_iff_iff, Value.isReference_iff, Value.isReference_iff,
        ← View.kind_seen hreferences, hnew, View.kind_seen hreferences]
    cases hreference : new.isReference with
    | true =>
      rwa [Value.assign_of_reference hreference,
        Value.assign_of_reference (hsort.symm.trans hreference)]
    | false =>
      rw [Value.assign_of_value hreference, Value.assign_of_value (hsort.symm.trans hreference)]
      refine View.seen_mapTarget_congr hslot ?_
      rw [seen_written new (Value.target_target slot), hnew,
        (View.same_target hslot).seen, ← seen_written renewed (Value.target_target other)]

theorem assignMember_of_leaf {value : Value} (hleaf : value.kind.isContainer = false)
    (shaping : Shaping) (new : Value) (location : Location) (strict : Bool) (step : Step) :
    assignMember shaping new location strict step value = .untouched value := by
  cases value with
  | list sequence =>
    rw [Value.isContainer_list] at hleaf
    cases hleaf
  | _ => first | rfl | cases hleaf

/-- Values that are seen alike are written alike into a child of containers that are. -/
theorem assignMember_same (hnew : view.seen new = view.seen renewed) (shaping : Shaping)
    (location : Location) (strict : Bool) (step : Step) {value other : Value}
    (hsame : view.Same value other) :
    (assignMember shaping new location strict step value).Same view
      (assignMember shaping renewed location strict step other) := by
  cases hsame.paired with
  | @map entries others hentries =>
    cases step with
    | index position => exact ⟨hsame, .ok rfl⟩
    | key name =>
      have hslot := hsame.child (.key name)
      simp only [Value.child?] at hslot
      refine ⟨⟨?_, rfl, rfl⟩, .ok rfl⟩
      simp only [assignMember, View.seen_map, Entries.mapValues_insert, hentries]
      generalize Entries.get? entries name = slot at hslot ⊢
      generalize Entries.get? others name = next at hslot ⊢
      cases hslot with
      | none => rw [hnew]
      | some hseen => dsimp only; rw [seen_assign hseen hnew]
  | @record aggregate others hfields =>
    cases step with
    | index position => exact ⟨hsame, .ok rfl⟩
    | key name =>
      have hfield := View.field?_rel hfields name
      generalize hbefore : aggregate.field? name = found at hfield
      generalize hafter : others.field? name = next at hfield
      simp only [assignMember, hbefore, hafter]
      cases hfield with
      | none => exact ⟨hsame, .ok rfl⟩
      | @some field next hlook =>
        have hmutable : field.mutable = next.mutable := (Field.mk.inj hlook).2.2.2
        dsimp only
        rw [← hmutable]
        split
        · refine ⟨⟨?_, rfl, rfl⟩, .ok rfl⟩
          rw [View.seen_record, View.seen_record, View.record_setValue_alike hfields hbefore hlook
            fun hvalue => seen_assign hvalue hnew]
        · split
          · exact ⟨hsame, .error ⟨rfl, rfl, hsame.seen, rfl⟩⟩
          · exact ⟨hsame, .ok rfl⟩
  | @list sequence others hitems =>
    cases step with
    | key name => exact ⟨hsame, .ok rfl⟩
    | index position =>
      have hroomy := View.map_padTo hitems shaping location position
      have hslot : Option.Rel (fun slot next => view.seen slot = view.seen next)
          ((padTo shaping location position sequence).get? position)
          ((padTo shaping location position others).get? position) :=
        View.rel_of_map_eq (by rw [← Sequence.get?_map, hroomy, Sequence.get?_map])
      simp only [assignMember]
      generalize (padTo shaping location position sequence).get? position = slot at hslot ⊢
      generalize (padTo shaping location position others).get? position = next at hslot ⊢
      cases hslot with
      | none =>
        refine ⟨⟨?_, rfl, rfl⟩, .ok rfl⟩
        simp only [Edit.untouched, View.seen_list, hroomy]
      | some hseen =>
        refine ⟨⟨?_, rfl, rfl⟩, .ok rfl⟩
        simp only [View.seen_list, Sequence.map_set, hroomy, seen_assign hseen hnew]
  | leaf hvalue hother =>
    rw [assignMember_of_leaf hvalue, assignMember_of_leaf hother]
    exact ⟨hsame, .ok rfl⟩

/-- Assigning values that are seen alike does the same. -/
theorem assign_alike (hnew : view.seen new = view.seen renewed) (shaping : Shaping) :
    (assign shaping new).Alike view (assign shaping renewed) where
  operation := rfl
  shaping := rfl
  whole := fun _ _ hsame => seen_assign hsame hnew
  member := fun location strict steps _ _ hsame =>
    Edit.sequence_same (List.forall₂_eq_eq_eq ▸ rfl) (by
      rintro step _ rfl before after hcurrent
      exact assignMember_same hnew shaping location strict step hcurrent) hsame {}

end Assigning

/-! ## Deleting -/

section Deleting

variable {value other : Value}

theorem seen_zeroed (hreferences : view.references = true) (hsame : view.seen value = view.seen other) :
    view.seen value.zeroed = view.seen other.zeroed := by
  rw [← View.zeroed_seen hreferences, hsame, View.zeroed_seen hreferences]

theorem eraseMember_of_leaf (hleaf : value.kind.isContainer = false) (location : Location)
    (strict : Bool) (step : Step) : eraseMember location strict step value = .untouched value := by
  cases value with
  | list sequence =>
    rw [Value.isContainer_list] at hleaf
    cases hleaf
  | _ => first | rfl | cases hleaf

/-- A child is deleted alike from containers that are seen alike. -/
theorem eraseMember_same (hreferences : view.references = true) (location : Location) (strict : Bool)
    (step : Step) (hsame : view.Same value other) :
    (eraseMember location strict step value).Same view (eraseMember location strict step other) := by
  cases hsame.paired with
  | @map entries others hentries =>
    cases step with
    | index position => exact ⟨hsame, .ok rfl⟩
    | key name =>
      rw [eraseMember, eraseMember, View.contains_congr hentries]
      split
      · refine ⟨⟨?_, rfl, rfl⟩, .ok rfl⟩
        simp only [View.seen_map, Entries.mapValues_erase, hentries]
      · exact ⟨hsame, .ok rfl⟩
  | @record aggregate others hfields =>
    cases step with
    | index position => exact ⟨hsame, .ok rfl⟩
    | key name =>
      have hfield := View.field?_rel hfields name
      generalize hbefore : aggregate.field? name = found at hfield
      generalize hafter : others.field? name = next at hfield
      simp only [eraseMember, hbefore, hafter]
      cases hfield with
      | none => exact ⟨hsame, .ok rfl⟩
      | @some field next hlook =>
        have hmutable : field.mutable = next.mutable := (Field.mk.inj hlook).2.2.2
        dsimp only
        rw [← hmutable]
        split
        · refine ⟨⟨?_, rfl, rfl⟩, .ok rfl⟩
          rw [View.seen_record, View.seen_record, View.record_setValue_alike hfields hbefore hlook
            fun hvalue => seen_zeroed hreferences hvalue]
        · split
          · exact ⟨hsame, .error ⟨rfl, rfl, hsame.seen, rfl⟩⟩
          · exact ⟨hsame, .ok rfl⟩
  | @list sequence others hitems =>
    cases step with
    | key name => exact ⟨hsame, .ok rfl⟩
    | index position =>
      have hitem := hsame.child (.index position)
      simp only [Value.child?] at hitem
      simp only [eraseMember]
      generalize sequence.get? position = item at hitem ⊢
      generalize others.get? position = next at hitem ⊢
      cases hitem with
      | none => exact ⟨hsame, .ok rfl⟩
      | some hseen =>
        refine ⟨⟨?_, rfl, rfl⟩, .ok rfl⟩
        simp only [View.seen_list, Sequence.map_set, hitems, seen_zeroed hreferences hseen]
  | leaf hvalue hother =>
    rw [eraseMember_of_leaf hvalue, eraseMember_of_leaf hother]
    exact ⟨hsame, .ok rfl⟩

/-- Children are deleted alike from containers that are seen alike. -/
theorem eraseMembers_same (hreferences : view.references = true) (location : Location) (strict : Bool)
    (steps : List Step) (hsame : view.Same value other) :
    (eraseMembers location strict steps value).Same view
      (eraseMembers location strict steps other) := by
  have hone : (Edit.sequence steps (eraseMember location strict) {} value).Same view
      (Edit.sequence steps (eraseMember location strict) {} other) :=
    Edit.sequence_same (List.forall₂_eq_eq_eq ▸ rfl) (by
      rintro step _ rfl before after hcurrent
      exact eraseMember_same hreferences location strict step hcurrent) hsame {}
  cases hsame.paired with
  | map => exact hone
  | record => exact hone
  | @list sequence others hitems =>
    rw [eraseMembers, eraseMembers, ← View.canGrow_congr hitems]
    split
    · -- A list that can grow closes up, losing all the positions at once.
      have hleft (indices : List Nat) : (sequence.without indices).map view.seen =
          (others.without indices).map view.seen := by
        rw [← Sequence.without_map, hitems, Sequence.without_map]
      have hextent : sequence.extent = others.extent := (Sequence.mk.inj hitems).1
      have hsize : sequence.size = others.size := by
        rw [← Sequence.size_map (f := view.seen), hitems, Sequence.size_map]
      have hcount (indices : List Nat) :
          (sequence.without indices).size = (others.without indices).size := by
        rw [← Array.size_map (f := view.seen), hleft, Array.size_map]
      refine ⟨⟨?_, rfl, rfl⟩, ?_⟩
      · simp only [View.seen_list, Sequence.map, hleft, hextent]
      · simp only [hsize, hcount]
        exact .ok rfl
    · exact hone
  | leaf hvalue hother =>
    have hstep {value : Value} (hleaf : value.kind.isContainer = false) :
        eraseMembers location strict steps value =
          Edit.sequence steps (eraseMember location strict) {} value := by
      cases value with
      | list sequence =>
        rw [Value.isContainer_list] at hleaf
        cases hleaf
      | _ => rfl
    rw [hstep hvalue, hstep hother]
    exact hone

theorem erase_alike (hreferences : view.references = true) : erase.Alike view erase where
  operation := rfl
  shaping := rfl
  whole := fun _ _ hsame => seen_zeroed hreferences hsame
  member := fun location strict steps _ _ hsame =>
    eraseMembers_same hreferences location strict steps hsame

end Deleting

end Action

end NestedData
