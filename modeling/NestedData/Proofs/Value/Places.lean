import NestedData.Proofs.Value.WellFormed

/-!
# Places inside a value

This module gives the value at a place, references being followed everywhere, and
describes the row of all places inside a value: it consists of the places that hold
something, each of them once.

Main results:

- `Value.induct_children`: a property holds of every value if it passes from the
  children at the end of its references to the value.
- `Value.valueAt?_append`: a place below a place is reached in two stages.
- `Value.mem_places_iff`: the places inside a value are those that hold something.
- `Value.nodup_places`: they are pairwise distinct.
-/

namespace NestedData

/-- A place inside the value at a location, seen from where the location starts. -/
def Location.below (location : Location) (place : Location × Value) : Location × Value :=
  (location ++ place.1, place.2)

@[simp]
theorem Location.below_nil : Location.below [] = id := by
  funext place
  simp [below]

theorem Location.below_below (first second : Location) :
    first.below ∘ second.below = Location.below (first ++ second) := by
  funext place
  simp [below]

/-- Places that stay apart when they are seen from distinct locations: where a place is
cut into a location and what is below it must be clear. -/
theorem Location.nodup_flatMap_below {α : Type} {things : List α} (head : α → Location)
    {trace : α → List (Location × Value)} (hheads : (things.map head).Nodup)
    (htraces : ∀ thing ∈ things, ((trace thing).map Prod.fst).Nodup)
    (hcut : ∀ one ∈ things, ∀ other ∈ things, ∀ first ∈ trace one, ∀ second ∈ trace other,
      head one ++ first.1 = head other ++ second.1 → head one = head other) :
    ((things.flatMap fun thing => (trace thing).map (below (head thing))).map Prod.fst).Nodup := by
  have hfst (location : Location) :
      Prod.fst ∘ below location = (location ++ ·) ∘ (Prod.fst : Location × Value → Location) := rfl
  rw [List.map_flatMap, List.nodup_flatMap]
  constructor
  · intro thing hthing
    rw [List.map_map, hfst, ← List.map_map]
    exact (htraces thing hthing).map fun _ _ => List.append_cancel_left
  · apply (List.pairwise_map.mp hheads).imp_of_mem
    intro one other hone hother hne location hmemOne hmemOther
    simp only [List.map_map, List.mem_map, Function.comp_apply, below] at hmemOne hmemOther
    rcases hmemOne with ⟨first, hfirst, rfl⟩
    rcases hmemOther with ⟨second, hsecond, hsame⟩
    exact hne (hcut one hone other hother first hfirst second hsecond hsame.symm)

/-- The value at a place, references being followed everywhere. -/
def Value.valueAt? : Value → Location → Option Value
  | value, [] => some value.target
  | value, step :: rest => (value.target.child? step).bind fun child => child.valueAt? rest

/-- What is stored at a place: references on the way are followed, but not the ones that are stored
there. -/
def Value.storedAt? : Value → Location → Option Value
  | value, [] => some value
  | value, step :: rest => (value.target.child? step).bind fun child => child.storedAt? rest

/-! ## The value at a place -/

namespace Value

@[simp]
theorem valueAt?_target (value : Value) (location : Location) :
    value.target.valueAt? location = value.valueAt? location := by
  cases location <;> simp [valueAt?]

/-- What is at a place is not a reference to a value. -/
theorem target_of_valueAt? {value found : Value} {location : Location}
    (hfound : value.valueAt? location = some found) : found.target = found := by
  induction location generalizing value with
  | nil =>
    obtain rfl : value.target = found := by simpa [valueAt?] using hfound
    exact target_target value
  | cons step rest ih =>
    rcases Option.bind_eq_some_iff.mp hfound with ⟨child, _, hrest⟩
    exact ih hrest

/-- A place below a place is reached in two stages. -/
theorem valueAt?_append (value : Value) (first second : Location) :
    value.valueAt? (first ++ second) = (value.valueAt? first).bind (·.valueAt? second) := by
  induction first generalizing value with
  | nil => simp [valueAt?]
  | cons step rest ih =>
    simp only [List.cons_append, valueAt?]
    cases value.target.child? step with
    | none => rfl
    | some child => exact ih child

/-- What is at a place inside a well-formed value is well-formed. -/
theorem WellFormed.valueAt {value found : Value} {location : Location} (hvalue : value.WellFormed)
    (hfound : value.valueAt? location = some found) : found.WellFormed := by
  induction location generalizing value with
  | nil =>
    obtain rfl : value.target = found := by simpa [valueAt?] using hfound
    exact hvalue.target
  | cons step rest ih =>
    rcases Option.bind_eq_some_iff.mp hfound with ⟨child, hchild, hrest⟩
    exact ih (hvalue.target.child hchild) hrest

theorem mapTarget_congr {value : Value} {f g : Value → Value}
    (hsame : f value.target = g value.target) : value.mapTarget f = value.mapTarget g := by
  induction value using induct with
  | ref referent ih => rw [mapTarget, mapTarget, ih hsame]
  | _ => exact hsame

theorem mapTarget_of_target {value : Value} (hvalue : value.target = value) (f : Value → Value) :
    value.mapTarget f = f value := by
  cases value with
  | ref referent => exact absurd hvalue (target_ne_ref _ _)
  | _ => rfl

theorem mapTarget_eq_self {value : Value} {f : Value → Value} (hsame : f value.target = value.target) :
    value.mapTarget f = value := by
  induction value using induct with
  | ref referent ih => rw [mapTarget, ih hsame]
  | _ => exact hsame

theorem target_mapTarget (value new : Value) :
    (value.mapTarget fun _ => new).target = new.target := by
  induction value using induct with
  | ref referent ih => rw [mapTarget, target, ih]
  | _ => rfl

/-! ## All places -/

/-- A property holds of every value if it passes from the children at the end of its
references to the value. -/
theorem induct_children {motive : Value → Prop}
    (hstep : ∀ value, (∀ child ∈ value.target.children, motive child.2) → motive value) :
    ∀ value, motive value := by
  intro value
  induction hsize : sizeOf value using Nat.strongRecOn generalizing value with
  | ind size ih =>
    refine hstep value fun child hchild => ih _ ?_ child.2 rfl
    have hsmaller := sizeOf_child_lt hchild
    have htarget := sizeOf_target_le value
    omega

/-- What stands at a place and below it: one container after the other. -/
theorem places_eq (location : Location) (value : Value) :
    value.places location =
      (location, value.target) :: value.target.children.flatMap fun child =>
        child.2.places (location.child child.1) := by
  have hplain (value : Value) (hvalue : ∀ referent, value ≠ .ref referent) :
      value.places location =
        (location, value) :: value.children.flatMap fun child =>
          child.2.places (location.child child.1) := by
    rw [places]
    · rw [List.flatMap_subtype (g := fun child => child.2.places (location.child child.1))]
      · rw [List.unattach_attach]
      · intro child hchild
        rfl
    · exact hvalue
  induction value using induct with
  | ref referent ih => rw [places, ih, target]
  | _ => exact hplain _ (by simp)

/-- The places below a location are those of the value, seen from there. -/
theorem places_eq_map (location : Location) (value : Value) :
    value.places location = (value.places []).map location.below := by
  induction value using induct_children generalizing location with
  | hstep value ih =>
    rw [places_eq location, places_eq [], List.map_cons, List.map_flatMap]
    congr 1
    · simp [Location.below]
    · refine List.flatMap_congr fun child hchild => ?_
      rw [ih child hchild (location.child child.1), ih child hchild (Location.child [] child.1),
        List.map_map, Location.below_below]
      rfl

theorem places_nil (value : Value) :
    value.places [] = ([], value.target) :: value.target.children.flatMap fun child =>
      (child.2.places []).map (Location.below [child.1]) := by
  rw [places_eq]
  congr 1
  refine List.flatMap_congr fun child _ => ?_
  rw [places_eq_map]
  rfl

/-- The places inside a well-formed value are those that hold something, with what they
hold. -/
theorem mem_places_iff {value found : Value} (hvalue : value.WellFormed) {location : Location} :
    (location, found) ∈ value.places [] ↔ value.valueAt? location = some found := by
  induction value using induct_children generalizing location with
  | hstep value ih =>
    have hchild {step : Step} {child : Value} :
        (step, child) ∈ value.target.children ↔ value.target.child? step = some child :=
      mem_children_iff hvalue.target.hasDistinctSteps
    rw [places_nil, List.mem_cons, List.mem_flatMap]
    constructor
    · rintro (hhere | ⟨⟨step, child⟩, hmem, hbelow⟩)
      · cases hhere
        rfl
      · rcases List.mem_map.mp hbelow with ⟨⟨rest, other⟩, hplace, hsame⟩
        cases hsame
        have hfound := hchild.mp hmem
        rw [ih _ hmem (hvalue.target.child hfound)] at hplace
        simpa [valueAt?, hfound] using hplace
    · intro hfound
      cases location with
      | nil =>
        left
        rw [← Option.some.inj hfound]
      | cons step rest =>
        right
        rcases Option.bind_eq_some_iff.mp hfound with ⟨child, hstep, hrest⟩
        have hmem := hchild.mpr hstep
        refine ⟨(step, child), hmem, List.mem_map.mpr ⟨(rest, found), ?_, rfl⟩⟩
        exact (ih _ hmem (hvalue.target.child hstep)).mpr hrest

/-- No place stands twice in the row of all places inside a well-formed value. -/
theorem nodup_places {value : Value} (hvalue : value.WellFormed) :
    ((value.places []).map Prod.fst).Nodup := by
  induction value using induct_children with
  | hstep value ih =>
    rw [places_nil, List.map_cons, List.nodup_cons]
    constructor
    · simp [Location.below]
    · refine Location.nodup_flatMap_below (fun child : Step × Value => [child.1]) ?_ ?_ ?_
      · have hsteps := nodup_steps hvalue.target.hasDistinctSteps
        rw [← List.nodup_map_iff (f := fun step : Step => [step])
          (fun _ _ h => (List.cons.inj h).1)] at hsteps
        simpa [Function.comp_def] using hsteps
      · intro child hmem
        have hstep := (mem_children_iff hvalue.target.hasDistinctSteps).mp hmem
        exact ih child hmem (hvalue.target.child hstep)
      · intro one _ other _ first _ second _ hsame
        exact (List.append_inj hsame rfl).1

end Value

end NestedData
