import NestedData.Proofs.Access.Deletions
import NestedData.Proofs.Access.PutGet
import NestedData.Proofs.Access.Selecting

/-!
# Assigning to several places

This module follows an assignment along a path without a search whose segments may select
several children each.  The shapes of what is created are those that the path asks for by
itself.  In a value whose fields may all be written, the assignment reaches what a visit
reaches, before and afterwards, if on every list that it comes through each slice picks the
same, however far it has extended the list.

Main results:

- `Action.steadyAlong_of_reworked`: along the group, slices stay steady while it is assigned.
- `Action.descend_assign_plain`: such an assignment assigns along the group.
- `Value.setAt_visits`: what was visited holds what has been assigned, data elsewhere are
  kept, and whatever is visited afterwards holds what has been assigned.
- `Value.setAt_slice_skips`: a slice whose start is counted from the end it moves misses
  what it visits.
-/

namespace NestedData

namespace Value

/-! ## Slices along a group -/

/-- What an assignment selects from: what stands at the end of the references, or the container that
the segment asks for if nothing is there. -/
def ground (segment : Segment) (value : Value) : Value :=
  if value.target.isAbsent then
    if segment.isIndexShaped then .ofItems #[] else .map []
  else value.target

/-- Along a group, every slice is steady on each list that it is assigned through, be the list there
or made on the way. -/
def SteadyAlong : List Segment → Value → Prop
  | [], _ => True
  | .root :: rest, value => SteadyAlong rest value
  | segment :: rest, value =>
    segment.SteadyOn (ground segment value) ∧
      ∀ location strict steps, Selection.select
          { operation := .set, location, strict, create := true, searching := false }
          (ground segment value) segment = .ok steps →
        ∀ step ∈ steps, SteadyAlong rest (((ground segment value).child? step).getD .null)

theorem steadyAlong_segment {segment : Segment} {rest : List Segment} {value : Value}
    (hsegment : segment ≠ .root) :
    SteadyAlong (segment :: rest) value ↔ segment.SteadyOn (ground segment value) ∧
      ∀ location strict steps, Selection.select
          { operation := .set, location, strict, create := true, searching := false }
          (ground segment value) segment = .ok steps →
        ∀ step ∈ steps, SteadyAlong rest (((ground segment value).child? step).getD .null) := by
  rw [SteadyAlong]
  exact hsegment

theorem steadyAlong_target {segments : List Segment} {value : Value} :
    SteadyAlong segments value.target ↔ SteadyAlong segments value := by
  induction segments with
  | nil => exact Iff.rfl
  | cons segment rest ih =>
    by_cases hsegment : segment = .root
    · rw [hsegment, SteadyAlong, SteadyAlong]
      exact ih
    · rw [steadyAlong_segment hsegment, steadyAlong_segment hsegment, ground, ground, target_target]

/-! ## Values that take assignments -/

/-- Down to a depth, the children of every container stand under distinct keys or names, and every
field may be written. -/
def Receptive : Nat → Value → Prop
  | 0, _ => True
  | depth + 1, value =>
    value.target.HasDistinctSteps ∧ (∀ step, value.target.isReadOnly step = false) ∧
      ∀ step child, value.target.child? step = some child → Receptive depth child

theorem receptive_target {depth : Nat} {value : Value} :
    Receptive depth value.target ↔ Receptive depth value := by
  cases depth with
  | zero => exact Iff.rfl
  | succ depth => rw [Receptive, target_target, Receptive]

/-- What has no children takes assignments. -/
theorem receptive_of_no_child (value : Value) (hdistinct : value.target.HasDistinctSteps)
    (hfields : ∀ step, value.target.isReadOnly step = false)
    (hnothing : ∀ step, value.target.child? step = none) (depth : Nat) : Receptive depth value := by
  cases depth with
  | zero => trivial
  | succ depth =>
    refine ⟨hdistinct, hfields, fun step child hchild => ?_⟩
    rw [hnothing step] at hchild
    cases hchild

/-- A well-formed value takes assignments if its fields may be written. -/
theorem receptive_of_wellFormed {value : Value} (hvalue : value.WellFormed)
    (hwritable : ∀ location, value.readOnlyAt location = false) (depth : Nat) : Receptive depth value := by
  induction depth generalizing value with
  | zero => trivial
  | succ depth ih =>
    refine ⟨hvalue.target.hasDistinctSteps, fun step => hwritable [step],
      fun step child hchild => ih (hvalue.target.child hchild) fun location => ?_⟩
    cases location with
    | nil => rfl
    | cons next rest => rw [← readOnlyAt_cons hchild (List.cons_ne_nil _ _), hwritable]

end Value

namespace Action

open Value

variable {segment : Segment} {segments rest : List Segment} {location : Location} {step : Step}
  {strict : Bool} {new value container child : Value} {tally : Tally}

/-- Where a child is found once room has been made, it was there before or is null. -/
theorem child?_makeRoom_plain {other : Step} {present : Value}
    (hpresent : (makeRoom .plain location step container).child? other = some present) :
    container.child? other = some present ∨ present = .null := by
  cases container with
  | map entries =>
    cases step with
    | index position => exact .inl hpresent
    | key name =>
      rw [makeRoom] at hpresent
      split at hpresent
      · exact .inl hpresent
      · cases other with
        | index position => simp [child?] at hpresent
        | key key =>
          rw [child?, Entries.get?_insert] at hpresent
          split at hpresent
          · exact .inr (Option.some.inj hpresent).symm
          · exact .inl hpresent
  | list sequence =>
    cases step with
    | key name => exact .inl hpresent
    | index position =>
      cases other with
      | key name => simp [makeRoom, child?] at hpresent
      | index index =>
        rw [makeRoom, padTo] at hpresent
        split at hpresent
        · exact Sequence.getElem?_pad hpresent
        · exact .inl hpresent
  | _ => exact .inl hpresent

/-- Room is made for a missing child by null. -/
theorem getD_child?_of_makeRoom {other : Step} {present : Value}
    (hpresent : (makeRoom .plain location step container).child? other = some present) :
    (container.child? other).getD .null = present := by
  cases hbefore : container.child? other with
  | some child =>
    rw [child?_makeRoom_of_present hbefore] at hpresent
    exact Option.some.inj hpresent
  | none =>
    rcases child?_makeRoom_plain hpresent with hthere | rfl
    · rw [hbefore] at hthere
      cases hthere
    · rfl

/-- Distinct keys and names stay distinct when a child is put into a container. -/
theorem hasDistinctSteps_put {shaping : Shaping} (hdistinct : container.HasDistinctSteps) :
    (put shaping location step child container).HasDistinctSteps := by
  cases container with
  | map entries =>
    cases step with
    | index position => exact hdistinct
    | key name =>
      rw [put, makeRoom]
      split
      · rename_i hpresent
        rw [setChild, if_pos hpresent]
        exact Entries.nodup_keys_insert hdistinct name child
      · rw [setChild]
        split
        · exact Entries.nodup_keys_insert
            (Entries.nodup_keys_insert hdistinct name .null) name child
        · exact Entries.nodup_keys_insert hdistinct name .null
  | record aggregate =>
    cases step with
    | index position => exact hdistinct
    | key name =>
      have hnames : (aggregate.setValue name child).names.Nodup := by
        rw [Record.names_setValue]
        exact hdistinct
      exact hnames
  | list sequence => cases step <;> trivial
  | _ => trivial

/-- Whether a field may be written does not depend on the values of a record. -/
theorem isReadOnly_of_grown {steps : List Step} {after : Value}
    (hgrown : GrownBy steps container after) (other : Step) :
    after.isReadOnly other = container.isReadOnly other := by
  cases container with
  | record aggregate =>
    cases after with
    | record grown =>
      cases other with
      | index position => rfl
      | key name =>
        have hfield (record : Record Value) : isReadOnly (.record record) (.key name) =
            (record.declarations.find? fun declared => declared.1 == name).any fun declared =>
              !declared.2.2 := by
          rw [Record.find?_declarations, Option.any_map]
          rfl
        rw [hfield, hfield, hgrown.2]
    | _ => cases hgrown
  | map entries =>
    cases after with
    | map grown => rfl
    | _ => cases hgrown
  | list sequence =>
    cases after with
    | list grown => rfl
    | _ => cases hgrown
  | _ =>
    obtain rfl : after = _ := hgrown
    rfl

/-- A container still takes assignments when a child that does is put into it. -/
theorem receptive_put {depth : Nat} (hcontainer : container.target = container)
    (htakes : container.Takes step) (hreceptive : container.Receptive (depth + 1))
    (hchild : child.Receptive depth) :
    (put .plain location step child container).Receptive (depth + 1) := by
  obtain ⟨hdistinct, hfields, hchildren⟩ := hreceptive
  rw [hcontainer] at hdistinct hfields hchildren
  have hgrown := grownBy_put .plain location htakes child
  rw [Receptive, hgrown.target_eq hcontainer]
  refine ⟨?_, fun other => ?_, fun other present hpresent => ?_⟩
  · exact hasDistinctSteps_put hdistinct
  · rw [isReadOnly_of_grown hgrown, hfields]
  · by_cases hsame : other = step
    · subst hsame
      rw [child?_put .plain location htakes] at hpresent
      exact Option.some.inj hpresent ▸ hchild
    · rw [put, child?_setChild_of_ne hsame] at hpresent
      rcases child?_makeRoom_plain hpresent with hbefore | rfl
      · exact hchildren other present hbefore
      · exact receptive_of_no_child .null trivial (fun _ => rfl) (fun _ => rfl) depth

/-! ## Every way -/

/-- Going on with a segment, an assignment comes to what it selects from. -/
theorem target_vivify_plain (location : Location) (segment : Segment) (value : Value) :
    (vivify .plain location segment value).target = ground segment value := by
  unfold ground
  cases habsent : value.target.isAbsent with
  | false => rw [vivify_of_present habsent, if_neg Bool.false_ne_true]
  | true =>
    rw [target_vivify habsent, if_pos rfl]
    cases hshaped : segment.isIndexShaped <;> simp only [Shaping.plain, hshaped] <;> rfl

theorem isAbsent_ground (segment : Segment) (value : Value) :
    (ground segment value).isAbsent = false := by
  unfold ground
  cases habsent : value.target.isAbsent with
  | false => rw [if_neg Bool.false_ne_true, habsent]
  | true =>
    rw [if_pos rfl]
    split <;> rfl

theorem target_ground (segment : Segment) (value : Value) :
    (ground segment value).target = ground segment value := by
  rw [← target_vivify_plain [] segment value, target_target]

/-- What there is already is selected from as it is. -/
theorem ground_of_present (hpresent : value.target.isAbsent = false) (segment : Segment) :
    ground segment value = value.target := by
  rw [ground, hpresent, if_neg Bool.false_ne_true]

/-- What an assignment selects from takes assignments. -/
theorem receptive_ground {depth : Nat} (segment : Segment) (hvalue : value.Receptive depth) :
    (ground segment value).Receptive depth := by
  cases habsent : value.target.isAbsent with
  | false => rwa [ground_of_present habsent, receptive_target]
  | true =>
    rw [ground, habsent, if_pos rfl]
    split
    · exact receptive_of_no_child (.ofItems #[]) trivial (fun _ => rfl)
        (fun step => by cases step <;> rfl) depth
    · exact receptive_of_no_child (.map []) List.nodup_nil (fun _ => rfl)
        (fun step => by cases step <;> rfl) depth

theorem isAbsent_mapTarget (hpresent : new.isAbsent = false) (value : Value) :
    (value.mapTarget fun _ => new).isAbsent = false := by
  cases value <;> first | rfl | exact hpresent

/-- A container of which further children can be assigned to: it takes assignments, and along the
rest of the group the slices are steady for what stands at the steps, or will. -/
structure Ready (steps : List Step) (rest : List Segment) (container : Value) : Prop where
  target : container.target = container
  receptive : container.Receptive (rest.length + 1)
  steady : ∀ step ∈ steps, SteadyAlong rest ((container.child? step).getD .null)

variable {steps : List Step}

/-- What is found once room has been made in such a container takes assignments, and along the rest of
the group the slices are steady there. -/
theorem Ready.old (hready : Ready steps rest container) (hstep : step ∈ steps)
    (hfound : (makeRoom .plain location step container).child? step = some child) :
    child.Receptive rest.length ∧ SteadyAlong rest child := by
  have hchildren := hready.receptive.2.2
  rw [hready.target] at hchildren
  constructor
  · rcases child?_makeRoom_plain hfound with hbefore | rfl
    · exact hchildren step child hbefore
    · exact receptive_of_no_child .null trivial (fun _ => rfl) (fun _ => rfl) _
  · exact getD_child?_of_makeRoom hfound ▸ hready.steady step hstep

/-- Such a container stays so when a child that can be assigned to again is put into it. -/
theorem Ready.put (hready : Ready steps rest container) (htakes : container.Takes step)
    (hchild : child.Receptive rest.length) (hsteady : SteadyAlong rest child) :
    Ready steps rest (put .plain location step child container) where
  target := (grownBy_put .plain location htakes child).target_eq hready.target
  receptive := receptive_put hready.target htakes hready.receptive hchild
  steady := by
    intro other hother
    by_cases hsame : other = step
    · rw [hsame, child?_put .plain location htakes]
      exact hsteady
    · rw [Action.put, child?_setChild_of_ne hsame]
      cases hpresent : (makeRoom .plain location step container).child? other with
      | some present => exact getD_child?_of_makeRoom hpresent ▸ hready.steady other hother
      | none =>
        have hmissing : container.child? other = none := by
          cases hbefore : container.child? other with
          | none => rfl
          | some present =>
            rw [child?_makeRoom_of_present hbefore] at hpresent
            cases hpresent
        have hnull := hready.steady other hother
        rwa [hmissing] at hnull

/-- The edit of a child reworks the container, and further children of the container can be assigned
to, if what becomes of the child is assigned along the rest of the group. -/
theorem assignChild_reworks (hready : Ready steps rest container) (hstep : step ∈ steps)
    (htakes : container.Takes step)
    (hok : (assignChild .plain new location strict rest step container).result = .ok tally)
    (hinner : ∀ old : Value, old.Receptive rest.length → SteadyAlong rest old →
      (descend (assign .plain new) none false strict true rest (location.child step) old).result =
        .ok tally →
      let after :=
        (descend (assign .plain new) none false strict true rest (location.child step) old).value
      Assigned strict rest new old after ∧ after.Receptive rest.length ∧
        SteadyAlong rest after ∧ (rest ≠ [] → after.isAbsent = false)) :
    let after := (assignChild .plain new location strict rest step container).value
    Reworked (Assigned strict rest new) [step] container after ∧ Ready steps rest after := by
  have hfields := hready.receptive.2.1
  rw [hready.target] at hfields
  have hold {old : Value}
      (hfound : (makeRoom .plain location step container).child? step = some old) :=
    hready.old hstep hfound
  obtain ⟨old, hfound, hresult, hvalue⟩ := assignChild_ok htakes (.inr (hfields step))
    (fun old hrest hfound hresult =>
      (hinner old (hold hfound).1 (hold hfound).2 hresult).2.2.2 hrest) hok
  obtain ⟨hassigned, hafter, hsteady, _⟩ := hinner old (hold hfound).1 (hold hfound).2 hresult
  simp only [hvalue]
  exact ⟨reworked_put htakes hfound hassigned, hready.put htakes hafter hsteady⟩

/-- When what is selected from has been reworked, the slices along the group are steady for it
again. -/
theorem steadyAlong_of_reworked {change : Value → Value → Prop} {after : Value}
    (hsegment : segment ≠ .root) (hslice : segment.SteadyOn (ground segment value))
    (htakes : ∀ step ∈ steps, (ground segment value).Takes step)
    (hselect : Selection.select
      { operation := .set, location, strict, create := true, searching := false }
      (ground segment value) segment = .ok steps)
    (hreworked : Reworked change steps (ground segment value) after)
    (hready : Ready steps rest after) : SteadyAlong (segment :: rest) after := by
  have hgrown := hreworked.grown
  have hpresent : after.target.isAbsent = false := by
    rw [hready.target, hgrown.isAbsent_eq, isAbsent_ground]
  rw [steadyAlong_segment hsegment, ground_of_present hpresent, hready.target]
  refine ⟨Selection.steadyOn_of_grown hslice htakes hgrown, ?_⟩
  intro _ _ picked hpicked step hstep
  exact hready.steady step (Selection.mem_of_select_again rfl rfl hselect hgrown hpicked hstep)

/-- An assignment in plain shapes assigns along the group.  What it leaves takes the same
assignments again, and is not absent. -/
theorem descend_assign_plain (hroot : .root ∉ segments) (hsteady : SteadyAlong segments value)
    (hreceptive : value.Receptive segments.length)
    (hok : (descend (assign .plain new) none false strict true segments location value).result =
      .ok tally) :
    let after := (descend (assign .plain new) none false strict true segments location value).value
    Assigned strict segments new value after ∧ after.Receptive segments.length ∧
      SteadyAlong segments after ∧ (segments ≠ [] → after.isAbsent = false) := by
  induction segments generalizing value location strict tally with
  | nil => exact ⟨assigned_nil strict value new, trivial, trivial, fun hne => absurd rfl hne⟩
  | cons segment rest ih =>
    have hsegment : segment ≠ .root := fun hsame => hroot (hsame ▸ List.mem_cons_self)
    have hrest : .root ∉ rest := fun hmem => hroot (List.mem_cons_of_mem _ hmem)
    have htarget := target_vivify_plain location segment value
    have hroomy := receptive_ground segment hreceptive
    obtain ⟨hslice, hlater⟩ := (steadyAlong_segment hsegment).mp hsteady
    rw [descend_assign_segment hsegment, Edit.atTarget_eq, htarget] at hok ⊢
    cases hselect : Selection.select
        { operation := .set, location, strict, create := true, searching := false }
        (ground segment value) segment with
    | error error =>
      simp only [hselect] at hok
      cases hok
    | ok steps =>
      simp only [hselect] at hok ⊢
      have hdistinct := hroomy.1
      rw [target_ground] at hdistinct
      have htakes (step : Step) (hstep : step ∈ steps) : (ground segment value).Takes step :=
        Selection.takes_of_select (fun _ => hdistinct) hselect hstep
      obtain ⟨hreworked, hready⟩ := sequence_reworks
        (Assigned (strict && !segment.isMultiValued) rest new) (Ready steps rest)
        (fun _ _ _ => .trans hrest)
        (fun step hstep current done hkeeps htakes hdone => assignChild_reworks hkeeps hstep htakes
          hdone fun old hold hsteady hinner => ih hrest hsteady hold hinner)
        htakes ⟨target_ground segment value, hroomy, hlater location strict steps hselect⟩ hok
      refine ⟨assigned_of_vivify (List.cons_ne_nil _ _) hroot ?_, ?_, ?_, fun _ => ?_⟩
      · rw [htarget]
        exact assigned_of_reworked hsegment (target_ground segment value) rfl rfl rfl hslice hselect
          hreworked
      · rw [← receptive_target, target_mapTarget, receptive_target]
        exact hready.receptive
      · rw [← steadyAlong_target, target_mapTarget, steadyAlong_target]
        exact steadyAlong_of_reworked hsegment hslice htakes hselect hreworked hready
      · exact isAbsent_mapTarget (hreworked.grown.isAbsent_eq.trans
          (isAbsent_ground segment value)) _

end Action

namespace Value

variable {root new after : Value} {path : Path} {count : Nat}

/-! ## Whole paths -/

/-- An assignment in plain shapes along a path that a text spells, without a search, in a
value whose fields may all be written: if the path can be visited before and the assignment
succeeds, what was visited holds what has been assigned, a datum that is neither at a place
visited nor below one is where it was, and the path can be visited afterwards, where it
sees nothing but what has been assigned.  Every slice of the path must be steady on the
lists that it is assigned through: a slice whose start is counted from an end that its own
stop moves is not, nor one that would extend a list beyond what it could have grown to. -/
theorem setAt_visits {text : String} (hparse : Path.parse text = .ok path)
    (hsearches : path.searches = []) (hsteady : root.SteadyAlong path.first)
    (hroot : root.WellFormed) (hwritable : ∀ location, root.readOnlyAt location = false)
    (hvisits : (root.visits path).outcome = .ok ())
    (hset : root.setAt path new .plain = (after, .ok count)) :
    (∀ place ∈ (root.visits path).collected, after.valueAt? place.1 = some new.target) ∧
      (∀ location datum, root.valueAt? location = some datum → datum.kind.isScalar = true →
        (∀ place ∈ (root.visits path).collected, ¬place.1 <+: location) →
        after.valueAt? location = some datum) ∧
      (after.visits path).outcome = .ok () ∧
      ∀ place ∈ (after.visits path).collected, place.2 = new.target := by
  obtain ⟨segments, hsegments, _, hfirst⟩ :=
    Path.exists_segments (Path.isCanonical_of_parse hparse)
  obtain ⟨tally, hdescend, _⟩ := setAt_eq_ok hsearches hfirst hset
  have hslices : root.SteadyAlong segments := by
    rcases hfirst with hsame | hsame <;> rw [hsame] at hsteady
    · exact hsteady
    · rwa [SteadyAlong] at hsteady
  obtain ⟨hassigned, _, _⟩ := Action.descend_assign_plain hsegments hslices
    (receptive_of_wellFormed hroot hwritable segments.length)
    (by rw [hdescend] : (Action.descend _ none false true true segments [] root).result = .ok tally)
  rw [hdescend] at hassigned
  have hreached : root.reached path = Visit.ends segments root := by
    rw [reached, hsearches, Visit.reach_of_first hfirst, Visit.ends]
  have hafter : after.visits path = .running (Visit.ends segments after) := by
    have hfollow := follow_of_readable
      (fun location value seen => .yield (seen ++ [(location, value)]))
      (f := fun seen place => seen ++ [place]) hsearches hfirst (fun _ _ _ => rfl)
      hassigned.readable .forEach []
    rw [visits, forEach, hfollow, List.foldl_append_eq_append]
    exact congrArg Progress.running (List.flatMap_singleton' _)
  rw [collected_visits hvisits, hreached, hafter]
  refine ⟨fun place hplace => ?_, fun location datum hdatum hscalar hapart => ?_, rfl,
    hassigned.reads⟩
  · obtain ⟨⟨final, hfinal⟩, _⟩ := (hassigned.stays place.1).mp ⟨place.2, hplace⟩
    rw [Visit.valueAt?_of_mem_ends hfinal, ← hassigned.reads _ hfinal]
  · refine (hassigned.kept location datum hdatum hscalar).resolve_right ?_
    rintro ⟨above, habove, hbegins⟩
    obtain ⟨rest, rfl⟩ := hbegins
    have hthere : (root.valueAt? above).isSome = true := by
      rw [valueAt?_append] at hdatum
      cases hvalue : root.valueAt? above with
      | none => simp [hvalue] at hdatum
      | some value => rfl
    obtain ⟨final, hfinal⟩ := (hassigned.stays above).mpr ⟨habove, hthere⟩
    exact hapart _ hfinal (List.prefix_append _ _)

/-- A slice is assigned to in a list behind a union that names it twice, and in one that it
makes. -/
theorem setAt_visits_grown :
    let root : Value := .map [("a", .ofItems #[.int 1]), ("c", .int 5)]
    let path : Path := { first := [.root, .union [.key "a", .key "b", .key "a"],
      .slice (some (-2)) (some 2) none] }
    let after : Value := .map [("a", .ofItems #[.int 9, .int 9]), ("c", .int 5),
      ("b", .ofItems #[.int 9, .int 9])]
    Path.parse "$['a','b','a'][-2:2]" = .ok path ∧
      root.SteadyAlong path.first ∧ (∀ location, root.readOnlyAt location = false) ∧
      (root.visits path).collected =
        [([.key "a", .index 0], .int 1), ([.key "a", .index 0], .int 1)] ∧
      root.setAt path (.int 9) .plain = (after, .ok 6) ∧
      after.valueAt? [.key "a", .index 0] = some (.int 9) ∧
      after.valueAt? [.key "c"] = some (.int 5) := by
  intro root path after
  have hparse : Path.parse "$['a','b','a'][-2:2]" = .ok path := by
    cbv
  -- The list behind `a` has one element, and the one behind `b` is made.
  have hsteady : root.SteadyAlong path.first := by
    have hslice (sequence : Sequence Value) (hsize : sequence.size ≤ 1) :
        (Segment.slice (some (-2)) (some 2) none).SteadyOn (.list sequence) := by
      intro _ _
      refine ⟨Nat.le_trans hsize (by decide), fun first hfirst _ => ?_⟩
      obtain rfl := Option.some.inj hfirst
      decide
    simp only [path, SteadyAlong]
    refine ⟨trivial, fun location strict steps hselect step hstep => ⟨?_, fun _ _ _ _ _ _ => trivial⟩⟩
    rw [← Except.ok.inj hselect] at hstep
    have hnamed : step = .key "a" ∨ step = .key "b" := by
      simpa [Selection.keyOf, or_comm, or_assoc] using hstep
    rcases hnamed with rfl | rfl
    · exact hslice (.growable #[.int 1]) (Nat.le_refl _)
    · exact hslice (.growable #[]) (Nat.zero_le _)
  have hroot : root.WellFormed := by
    simp [root, ofItems, Sequence.growable, Entries.keys]
  have hnumber (number : Int64) : children (Value.int number).target = [] := rfl
  have hwritable : ∀ location, root.readOnlyAt location = false := by
    have hint (number : Int64) := readOnlyAt_eq_false (.int number) (fun _ => rfl)
      (by simp [hnumber])
    have hlist := readOnlyAt_eq_false (.ofItems #[.int 1]) (fun _ => rfl)
      (by simp [target, children, ofItems, Sequence.growable, hint])
    exact readOnlyAt_eq_false _ (fun _ => rfl) (by simp [root, target, children, hint, hlist])
  have hvisits : (root.visits path).collected =
      [([.key "a", .index 0], .int 1), ([.key "a", .index 0], .int 1)] := by
    cbv
  have hset : root.setAt path (.int 9) .plain = (after, .ok 6) := by
    cbv
  obtain ⟨hseen, hkept, _⟩ := setAt_visits hparse rfl hsteady hroot hwritable (by cbv)
    hset
  rw [hvisits] at hseen hkept
  refine ⟨hparse, hsteady, hwritable, hvisits, hset, ?_, ?_⟩
  · exact hseen ([.key "a", .index 0], .int 1) List.mem_cons_self
  · exact hkept [.key "c"] (.int 5) rfl rfl (by simp)

/-- A slice that counts its start from the end that it moves assigns past the elements that
it visits, and is not seen to have assigned anything. -/
theorem setAt_slice_skips :
    let root : Value := .ofItems #[.int 0, .int 1, .int 2]
    let path : Path := { first := [.root, .slice (some (-4)) (some 5) (some 2)] }
    let after : Value := .ofItems #[.int 0, .int 9, .int 2, .int 9]
    Path.parse "$[-4:5:2]" = .ok path ∧ root.WellFormed ∧
      (∀ location, root.readOnlyAt location = false) ∧
      root.visits path = .running [([.index 0], .int 0), ([.index 2], .int 2)] ∧
      root.setAt path (.int 9) .plain = (after, .ok 2) ∧
      after.valueAt? [.index 0] ≠ some (.int 9) ∧ after.valueAt? [.index 1] ≠ some (.int 1) ∧
      after.visits path = .running [([.index 0], .int 0), ([.index 2], .int 2)] := by
  intro root path after
  have hroot : root.WellFormed := by
    simp [root, ofItems, Sequence.growable]
  have hwritable : ∀ location, root.readOnlyAt location = false := by
    have hint (number : Int64) := readOnlyAt_eq_false (.int number) (fun _ => rfl)
      (by simp [target, children])
    exact readOnlyAt_eq_false _ (fun _ => rfl)
      (by simp [root, target, children, ofItems, Sequence.growable, hint])
  refine ⟨by cbv, hroot, hwritable, by cbv, by cbv, ?_, ?_, by cbv⟩ <;>
    simp [after, valueAt?, target, ofItems, Sequence.growable, child?, Sequence.get?]

end Value

end NestedData
