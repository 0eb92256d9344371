import NestedData.Proofs.Access.Advancing
import NestedData.Proofs.Access.Deletions
import NestedData.Proofs.Access.Idle
import NestedData.Proofs.Access.Moving
import NestedData.Proofs.Access.Resolving

/-!
# Writing at and below read-only fields

Whether a field may be written is asked where a path ends.  There a field that may not be written is a
fault, and nothing changes.  A path that goes on from such a field changes what is stored in it as it
would change a root of its own.  This module says so for paths that select one child at a time.

Main results:

- `Value.storedAt?_storeAt`, `Value.storeAt_stored`: a value can be stored at a place.
- `Action.descend_through`: an action along segments that lead to a place is an action there.
- `Action.descend_readOnly`: an action that ends at a field that may not be written is a fault.
- `Action.fst_run_readOnly`: what an action at or below such a field leaves.
- `Value.readOnly_unchanged_iff`: when assigning and deleting leave such a field as it is.
-/

namespace NestedData

/-! ## Storing at a place -/

namespace Value

variable {value stored : Value} {location : Location}

/-- The value with something else stored at a place, references on the way being followed; nothing
changes if there is no such place. -/
def storeAt : Value → Location → Value → Value
  | _, [], new => new
  | value, step :: rest, new =>
    match value.target.child? step with
    | some child => value.mapTarget fun container => container.setChild step (child.storeAt rest new)
    | none => value

theorem target_of_child? {step : Step} (hchild : (value.child? step).isSome = true) :
    value.target = value := by
  cases value with
  | ref referent => simp [child?] at hchild
  | _ => rfl

theorem isAbsent_of_child? {step : Step} (hchild : (value.child? step).isSome = true) :
    value.isAbsent = false := by
  cases value with
  | null | nilRef => simp [child?] at hchild
  | _ => rfl

/-- What has been stored at a place is stored there. -/
theorem storedAt?_storeAt (hthere : (value.storedAt? location).isSome = true) (new : Value) :
    (value.storeAt location new).storedAt? location = some new := by
  induction location generalizing value with
  | nil => rfl
  | cons step rest ih =>
    rw [storedAt?, Option.isSome_bind, Option.any_eq_true_iff_get] at hthere
    obtain ⟨hpresent, hrest⟩ := hthere
    obtain ⟨child, hchild⟩ := Option.isSome_iff_exists.mp hpresent
    simp only [hchild, Option.get_some] at hrest
    have hput := child?_setChild_of_present hpresent (child.storeAt rest new)
    simp only [storeAt, hchild, storedAt?, target_mapTarget_eq]
    rw [target_of_child? (by rw [hput]; rfl), hput, Option.bind_some, ih hrest]

/-- Storing what is stored at a place changes nothing. -/
theorem storeAt_stored (hstored : value.storedAt? location = some stored) :
    value.storeAt location stored = value := by
  induction location generalizing value with
  | nil => exact (Option.some.inj hstored).symm
  | cons step rest ih =>
    obtain ⟨child, hchild, hrest⟩ := Option.bind_eq_some_iff.mp hstored
    simp only [storeAt, hchild, ih hrest]
    exact mapTarget_eq_self (setChild_self hchild)

end Value

/-! ## One segment -/

/-- A segment that selects one child at a time selects a child that is there in any circumstances. -/
theorem Selection.select_of_selects {segment : Segment} {container : Value} {step : Step}
    (hsingle : segment.isMultiValued = false) (hselects : segment.Selects container step)
    (selection : Selection) : selection.select container segment = .ok [step] := by
  obtain ⟨hpresent, hdenotes⟩ := (Segment.selects_iff_of_single hsingle).mp hselects
  cases hdenotes with
  | entry entries name | field aggregate name | element sequence position =>
    exact select_step hpresent
  | numbered entries position =>
    exact (select_step hpresent : selection.select (.map entries) (.key _) = _)

theorem Leads.eq_nil_iff {segments : List Segment} {value final : Value} {steps : Location}
    (hleads : Leads segments value steps final) (hroot : .root ∉ segments) :
    segments = [] ↔ steps = [] := by
  cases hleads with
  | done => exact iff_of_true rfl rfl
  | root => exact absurd List.mem_cons_self hroot
  | step => exact iff_of_false (List.cons_ne_nil _ _) (List.cons_ne_nil _ _)

namespace Action

variable {action : Action} {segment : Segment} {before rest segments : List Segment} {step : Step}
  {value child root stored final : Value} {start : Location}

/-- A segment that comes to a child that is there goes on from it, or ends there. -/
theorem descend_selects (hsingle : segment.isMultiValued = false)
    (hselects : segment.Selects value.target step) (hchild : value.target.child? step = some child)
    (location : Location) :
    descend action none false true true (segment :: rest) location value =
      if rest.isEmpty then Edit.atTarget (action.member location true [step]) value
      else
        let inner := descend action none false true true rest (location.child step) child
        { inner with value := value.mapTarget fun container => container.setChild step inner.value } := by
  have hsegment : segment ≠ .root := by
    rintro rfl
    exact hselects.2
  have hthere : (value.target.child? step).isSome = true := by
    rw [hchild]
    rfl
  have hpresent : value.target.isAbsent = false := Value.isAbsent_of_child? hthere
  have hentered (shaping? : Option Shaping) : entered shaping? location segment value = value := by
    cases shaping? with
    | none => rfl
    | some shaping => exact vivify_of_present hpresent
  rw [descend_segment hsegment, hentered, Edit.atTarget_eq, onward,
    Selection.select_of_selects hsingle hselects, hsingle]
  cases rest with
  | nil => simp [Edit.atTarget_eq]
  | cons next later =>
    simp only [Option.isNone_none, List.isEmpty_cons, Bool.and_false, Bool.false_eq_true, if_false,
      Bool.not_false, Bool.and_true, Edit.sequence_singleton, editChild_of_present hchild]
    exact congrArg (fun changed => ({ value := changed, result := _ } : Edit))
      (Value.mapTarget_congr rfl)

/-- An action along segments that lead to a place and go on from there is an action on what is stored
there. -/
theorem descend_through (hleads : Leads before root start final)
    (hsingle : ∀ segment ∈ before, segment.isMultiValued = false)
    (hstored : root.storedAt? start = some stored) (hrest : rest ≠ []) (location : Location) :
    descend action none false true true (before ++ rest) location root =
      let inner := descend action none false true true rest (location ++ start) stored
      { inner with value := root.storeAt start inner.value } := by
  induction hleads generalizing location with
  | done value =>
    obtain rfl := Option.some.inj hstored
    rw [List.append_nil]
    rfl
  | root _ ih => exact ih (fun segment hmem => hsingle segment (List.mem_cons_of_mem _ hmem)) hstored _
  | @step segment later value child final step steps hselects hchild _ ih =>
    have hmore : (later ++ rest).isEmpty = false := by simp [hrest]
    have hbelow : child.storedAt? steps = some stored := by simpa [Value.storedAt?, hchild] using hstored
    have hinner := ih (fun segment hmem => hsingle segment (List.mem_cons_of_mem _ hmem)) hbelow
      (location.child step)
    rw [List.cons_append, descend_selects (hsingle segment List.mem_cons_self) hselects hchild, hmore,
      if_neg Bool.false_ne_true, hinner, Location.child, List.append_assoc, List.singleton_append]
    simp only [Value.storeAt, hchild]

/-! ## Ending at a read-only field -/

/-- The action does not touch a field that may not be written, but is a fault. -/
def Refuses (action : Action) : Prop :=
  ∀ (location : Location) (name : String) (aggregate : Record Value),
    Value.isReadOnly (.record aggregate) (.key name) = true →
      action.member location true [.key name] (.record aggregate) = .fail (.record aggregate)
        { operation := action.operation, path := location.toPath, value := .record aggregate,
          obstacle := .lack (.readOnly name) }

theorem exists_field_of_isReadOnly {name : String} {aggregate : Record Value}
    (hreadOnly : Value.isReadOnly (.record aggregate) (.key name) = true) :
    ∃ field, aggregate.field? name = some field ∧ field.mutable = false := by
  simpa [Value.isReadOnly, Option.any_eq_true] using hreadOnly

theorem refuses_assign (shaping : Shaping) (new : Value) : (assign shaping new).Refuses := by
  intro location name aggregate hreadOnly
  obtain ⟨field, hfield, hmutable⟩ := exists_field_of_isReadOnly hreadOnly
  simp only [assign, Edit.sequence_singleton, assignMember, hfield, hmutable, Bool.false_eq_true,
    if_false, if_true]

theorem refuses_erase : erase.Refuses := by
  intro location name aggregate hreadOnly
  obtain ⟨field, hfield, hmutable⟩ := exists_field_of_isReadOnly hreadOnly
  simp only [erase, eraseMembers, Edit.sequence_singleton, eraseMember, hfield, hmutable,
    Bool.false_eq_true, if_false, if_true]

/-- An action that refuses is a fault where a step leads to a field that may not be written, and nothing
changes. -/
theorem Refuses.atTarget (hrefuses : action.Refuses) (hreadOnly : value.target.isReadOnly step = true)
    (location : Location) :
    ∃ error name, error.obstacle = .lack (.readOnly name) ∧
      Edit.atTarget (action.member location true [step]) value = .fail value error := by
  obtain ⟨aggregate, name, htarget, rfl⟩ :
      ∃ aggregate name, value.target = .record aggregate ∧ step = .key name := by
    cases htarget : value.target with
    | record aggregate =>
      cases step with
      | key name => exact ⟨aggregate, name, rfl, rfl⟩
      | index => simp [htarget, Value.isReadOnly] at hreadOnly
    | _ => simp [htarget, Value.isReadOnly] at hreadOnly
  rw [htarget] at hreadOnly
  have hkept : (value.mapTarget fun _ => .record aggregate) = value :=
    Value.mapTarget_eq_self htarget.symm
  have hfails : Edit.atTarget (action.member location true [.key name]) value =
      .fail value { operation := action.operation, path := location.toPath,
                    value := .record aggregate, obstacle := .lack (.readOnly name) } := by
    rw [Edit.atTarget_eq, htarget, hrefuses location name aggregate hreadOnly, Edit.fail, hkept,
      Edit.fail]
  exact ⟨_, name, rfl, hfails⟩

/-- Where segments end at a field that may not be written, the action is a fault that says so, and
nothing changes. -/
theorem descend_readOnly (hrefuses : action.Refuses) (hleads : Leads segments root start final)
    (hroot : .root ∉ segments) (hsingle : ∀ segment ∈ segments, segment.isMultiValued = false)
    (hreadOnly : root.readOnlyAt start = true) (location : Location) :
    ∃ error name, error.obstacle = .lack (.readOnly name) ∧
      descend action none false true true segments location root = .fail root error := by
  induction hleads generalizing location with
  | done value => cases hreadOnly
  | root => exact absurd List.mem_cons_self hroot
  | @step segment rest value child final step steps hselects hchild hrest ih =>
    have hmark : .root ∉ rest := List.not_mem_of_not_mem_cons hroot
    rw [descend_selects (hsingle segment List.mem_cons_self) hselects hchild]
    by_cases hend : rest = []
    · obtain rfl : steps = [] := (hrest.eq_nil_iff hmark).mp hend
      rw [if_pos (by rw [hend, List.isEmpty_nil])]
      exact hrefuses.atTarget hreadOnly location
    · rw [Value.readOnlyAt_cons hchild (mt (hrest.eq_nil_iff hmark).mpr hend)] at hreadOnly
      obtain ⟨error, name, hobstacle, hinner⟩ := ih hmark
        (fun segment hmem => hsingle segment (List.mem_cons_of_mem _ hmem)) hreadOnly
        (location.child step)
      have hkept : (value.mapTarget fun container => container.setChild step child) = value :=
        Value.mapTarget_eq_self (Value.setChild_self hchild)
      refine ⟨error, name, hobstacle, ?_⟩
      rw [if_neg (by rwa [List.isEmpty_iff]), hinner]
      simp only [Edit.fail, hkept]

/-! ## Whole paths -/

/-- Without a search, an action along a path leaves what it leaves along the segments. -/
theorem fst_run {path : Path} (hsearches : path.searches = []) (root : Value) :
    (action.run path root).1 = (descend action none false true true path.first [] root).value := by
  unfold run
  rw [hsearches, search]
  dsimp only
  split
  · rfl
  · split <;> rfl

/-- An action along a path that leads to a place and goes on from there leaves there what it leaves of
what is stored there along the rest of the path. -/
theorem fst_run_through {path : Path} {other : Action} (hpath : path.isMultiValued = false)
    (hfirst : path.first = before ++ rest) (hleads : Leads before root start final)
    (hstored : root.storedAt? start = some stored) (hrest : rest ≠ [])
    (hmoved : Moved start action other) :
    (action.run path root).1 = root.storeAt start (other.run { first := rest } stored).1 := by
  obtain ⟨hsearches, hsingle⟩ := Path.searches_eq_nil hpath
  have hbefore : ∀ segment ∈ before, segment.isMultiValued = false := fun segment hmem =>
    hsingle segment (hfirst ▸ List.mem_append_left rest hmem)
  have hbelow := (descend_moved hmoved rest false true true [] stored).value
  rw [List.append_nil] at hbelow
  rw [fst_run hsearches, fst_run rfl, hfirst, descend_through hleads hbefore hstored hrest,
    List.nil_append, ← hbelow]

/-- An action along a path that ends at a field that may not be written is a fault that says so, and
nothing changes. -/
theorem run_readOnly {text : String} {path : Path} (hparse : Path.parse text = .ok path)
    (hpath : path.isMultiValued = false) (hrefuses : action.Refuses)
    (hleads : Leads path.first root start final) (hreadOnly : root.readOnlyAt start = true) :
    ∃ error name, error.obstacle = .lack (.readOnly name) ∧
      action.run path root = (root, .error error) := by
  obtain ⟨hsearches, hsingle⟩ := Path.searches_eq_nil hpath
  obtain ⟨segments, hmark, hmem, hfirst⟩ :=
    Path.exists_segments (Path.isCanonical_of_parse hparse)
  have hsegments : Leads segments root start final := by
    rcases hfirst with hsame | hsame
    · rwa [hsame] at hleads
    · rw [hsame] at hleads
      cases hleads with
      | root hrest => exact hrest
      | step hselects => exact hselects.2.elim
  obtain ⟨error, name, hobstacle, hfails⟩ := descend_readOnly hrefuses hsegments hmark
    (fun segment hsegment => hsingle segment (hmem segment hsegment)) hreadOnly []
  refine ⟨error, name, hobstacle, ?_⟩
  rw [run, hsearches, search]
  simp only [descend_of_first hfirst, hfails, Edit.fail]

/-- An action along a path that leads to a field that may not be written changes nothing if it ends
there, and otherwise leaves there what it leaves of what is stored in the field along the rest of the
path. -/
theorem fst_run_readOnly {text : String} {path : Path} {other : Action}
    (hparse : Path.parse text = .ok path) (hpath : path.isMultiValued = false)
    (hfirst : path.first = before ++ rest) (hleads : Leads before root start final)
    (hreadOnly : root.readOnlyAt start = true) (hstored : root.storedAt? start = some stored)
    (hrefuses : action.Refuses) (hmoved : Moved start action other) :
    (action.run path root).1 =
      root.storeAt start (if rest = [] then stored else (other.run { first := rest } stored).1) := by
  by_cases hrest : rest = []
  · rw [hrest, List.append_nil] at hfirst
    obtain ⟨error, name, _, hrun⟩ := run_readOnly hparse hpath hrefuses (hfirst ▸ hleads) hreadOnly
    rw [hrun, if_pos hrest, Value.storeAt_stored hstored]
  · rw [fst_run_through hpath hfirst hleads hstored hrest hmoved, if_neg hrest]

end Action

namespace Value

/-- A path that ends at a field that may not be written changes nothing: assigning and deleting are
faults.  If it goes on from there, both change the field as they would change what is stored in it for
itself along the rest of the path, and leave it as it is exactly if they would leave that. -/
theorem readOnly_unchanged_iff {text : String} {path : Path} {root stored final : Value}
    {before rest : List Segment} {location : Location} (hparse : Path.parse text = .ok path)
    (hpath : path.isMultiValued = false) (hfirst : path.first = before ++ rest)
    (hleads : Leads before root location final) (hreadOnly : root.readOnlyAt location = true)
    (hstored : root.storedAt? location = some stored) (new : Value) (shaping : Shaping) :
    (rest = [] →
        (∃ error name, error.obstacle = .lack (.readOnly name) ∧
          root.setAt path new shaping = (root, .error error)) ∧
        ∃ error name, error.obstacle = .lack (.readOnly name) ∧
          root.eraseAt path = (root, .error error)) ∧
      ((root.setAt path new shaping).1.storedAt? location = some stored ↔
        rest = [] ∨ (stored.setAt { first := rest } new (shaping.below location)).1 = stored) ∧
      ((root.eraseAt path).1.storedAt? location = some stored ↔
        rest = [] ∨ (stored.eraseAt { first := rest }).1 = stored) := by
  have hends (hrest : rest = []) (action : Action) (hrefuses : action.Refuses) :
      ∃ error name, error.obstacle = .lack (.readOnly name) ∧
        action.run path root = (root, .error error) := by
    have hwhole : Leads path.first root location final := by
      rwa [hfirst, hrest, List.append_nil]
    exact Action.run_readOnly hparse hpath hrefuses hwhole hreadOnly
  have hkept (action other : Action) (hrefuses : action.Refuses)
      (hmoved : Action.Moved location action other) :
      (action.run path root).1.storedAt? location = some stored ↔
        rest = [] ∨ (other.run { first := rest } stored).1 = stored := by
    have hthere : (root.storedAt? location).isSome = true := by
      rw [hstored]
      rfl
    rw [Action.fst_run_readOnly hparse hpath hfirst hleads hreadOnly hstored hrefuses hmoved,
      storedAt?_storeAt hthere, Option.some.injEq]
    split <;> rename_i hrest
    · exact iff_of_true rfl (.inl hrest)
    · rw [or_iff_right hrest]
  refine ⟨fun hrest => ⟨?_, ?_⟩, ?_, ?_⟩
  · exact hends hrest _ (Action.refuses_assign shaping new)
  · exact hends hrest _ Action.refuses_erase
  · exact hkept _ _ (Action.refuses_assign shaping new) (Action.assign_moved location shaping new)
  · exact hkept _ _ Action.refuses_erase (Action.erase_moved location)

/-- Settings with a field that may not be written. -/
def sealedSettings (stored : Value) : Value :=
  .record { name := "Cfg", fields := [{ name := "B", value := stored, mutable := false }] }

theorem leads_sealedSettings (stored : Value) :
    Leads [.root, .key "B"] (sealedSettings stored) [.key "B"] stored.target :=
  .root (.step ⟨rfl, rfl⟩ rfl (.done stored))

/-- The field is not assigned, and a path that goes on into a scalar leaves it as it is. -/
theorem readOnly_unchanged_scalar :
    ((sealedSettings (.int 2)).setAt { first := [.root, .key "B"] } (.int 5) .plain).1.storedAt?
        [.key "B"] = some (.int 2) ∧
      ((sealedSettings (.int 2)).eraseAt { first := [.root, .key "B", .key "x"] }).1.storedAt?
        [.key "B"] = some (.int 2) := by
  have hwhole : Path.parse "$.B" = .ok { first := [.root, .key "B"] } := by cbv
  have hdeeper : Path.parse "$.B.x" = .ok { first := [.root, .key "B", .key "x"] } := by cbv
  have hfield := leads_sealedSettings (.int 2)
  exact ⟨(readOnly_unchanged_iff hwhole rfl rfl hfield rfl rfl (.int 5) .plain).2.1.mpr (.inl rfl),
    (readOnly_unchanged_iff hdeeper rfl rfl hfield rfl rfl (.int 5) .plain).2.2.mpr (.inr (by cbv))⟩

/-- A path that goes on from the field puts a container in place of nothing, and empties the container
that is there. -/
theorem readOnly_changed_below :
    Path.parse "$.B.x" = .ok { first := [.root, .key "B", .key "x"] } ∧
      (sealedSettings .null).readOnlyAt [.key "B"] = true ∧
      (sealedSettings .null).setAt { first := [.root, .key "B", .key "x"] } (.int 1) .plain =
        (sealedSettings (.map [("x", .int 1)]), .ok 1) ∧
      (sealedSettings (.map [("x", .int 1)])).eraseAt { first := [.root, .key "B", .key "x"] } =
        (sealedSettings (.map []), .ok 1) :=
  ⟨by cbv, rfl, by cbv, by cbv⟩

end Value

end NestedData
