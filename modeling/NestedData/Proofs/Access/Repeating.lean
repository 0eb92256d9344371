import NestedData.Proofs.Access.Deletions
import NestedData.Proofs.Access.Growing
import NestedData.Proofs.Outcome
import NestedData.Proofs.Value.Repruning

/-!
# Deletions that come again

This module follows deletions into containers that have lost children already, and to
children that are named several times.  What is gone is passed over and what is empty
stays empty, so that only what is deleted for the first time counts.

Main results:

- `Action.eraseMembers_leaves`: deleting children, however often they are named, prunes
  them.
- `Action.sequence_editChild_leaves`: so does going on from children, however often they
  are named.
- `Action.descend_erase_stays`, `Action.throughout_stays`: nothing is deleted from an empty
  value.
-/

namespace NestedData

namespace Edit

/-- The edit, if it succeeds, leaves of a value what pruning leaves, and its success shows
a fact. -/
def Leaves (edit : Edit) (value : Value) (doomed : Location → Bool) (fact : Prop) : Prop :=
  ∀ tally, edit.result = .ok tally → edit.value = value.prune doomed ∧ fact

/-- An edit at the end of references leaves what it leaves of what stands there. -/
theorem Leaves.atTarget {edit : Value → Edit} {value : Value} {doomed more : Location → Bool}
    {fact : Prop} (hedit : (edit (value.target.prune doomed)).Leaves value.target more fact) :
    (Edit.atTarget edit (value.prune doomed)).Leaves value more fact := by
  intro tally hok
  rw [atTarget_eq, Value.target_prune] at hok ⊢
  obtain ⟨hvalue, hfact⟩ := hedit tally hok
  refine ⟨?_, hfact⟩
  rw [hvalue, Value.mapTarget_prune, Value.prune_eq_mapTarget value more]
  exact Value.mapTarget_congr rfl

end Edit

namespace Action

open Value

variable {container : Value} {doomed : Location → Bool} {steps : List Step} {location : Location}
  {strict : Bool} {tally : Tally}

/-! ## Deleting children that may be gone -/

/-- The deletion of a child that may have been vacated before. -/
theorem eraseMember_vacates_again {step : Step} {gone : Step → Bool}
    (hdistinct : container.HasDistinctSteps) (hfixed : container.isGrowable = false)
    (hpresent : (container.child? step).isSome = true)
    (hok : (eraseMember location strict step (container.vacate gone)).result = .ok tally) :
    (eraseMember location strict step (container.vacate gone)).value = container.vacate fun other =>
      gone other || (decide (other = step) && !container.isReadOnly other) := by
  cases hthere : (container.vacate gone).child? step with
  | some child =>
    have hvacates := eraseMember_vacates hdistinct.vacate (isGrowable_vacate.trans hfixed)
      (by rw [hthere]; rfl) hok
    rw [hvacates.1, vacate_vacate hfixed]
    simp only [isReadOnly_vacate]
  | none =>
    -- Only maps lose the place of a child along with the child.
    have hleft (hmap : ∀ entries, container ≠ .map entries) : False := by
      rw [vacate_eq_rebuild hmap hfixed, child?_rebuild, Option.map_eq_none_iff] at hthere
      simp [hthere] at hpresent
    cases container with
    | map entries =>
      cases step with
      | index position => cases hpresent
      | key name =>
        have hgone : gone (.key name) = true := by
          by_contra hstays
          rw [child?_vacate rfl (by simpa using hstays)] at hthere
          simp [hthere] at hpresent
        rw [vacate_map] at hthere ⊢
        have habsent : Entries.contains (entries.filter fun entry => !gone (.key entry.1)) name =
            false := by
          rw [Entries.contains]
          simpa [child?] using hthere
        have hsame : (fun other => gone other ||
            (decide (other = .key name) && !isReadOnly (.map entries) other)) = gone := by
          funext other
          by_cases hname : other = .key name <;> simp [hname, hgone]
        rw [eraseMember_key_absent habsent, hsame, vacate_map, Edit.untouched]
    | _ => exact (hleft (by simp)).elim

/-- The deletion of children one by one, however often they are named. -/
theorem sequence_eraseMember_vacates {before : Tally} {gone : Step → Bool}
    (hdistinct : container.HasDistinctSteps) (hfixed : container.isGrowable = false)
    (hpresent : ∀ step ∈ steps, (container.child? step).isSome = true)
    (hok : (Edit.sequence steps (eraseMember location strict) before
      (container.vacate gone)).result = .ok tally) :
    (Edit.sequence steps (eraseMember location strict) before (container.vacate gone)).value =
      container.vacate fun other =>
        gone other || (decide (other ∈ steps) && !container.isReadOnly other) := by
  induction steps generalizing before gone with
  | nil => simp
  | cons step rest ih =>
    obtain ⟨done, hdone, hsequence⟩ := Edit.sequence_cons_ok hok
    have hfirst := eraseMember_vacates_again hdistinct hfixed (hpresent step List.mem_cons_self)
      hdone
    rw [hsequence, hfirst] at hok ⊢
    rw [ih (fun other hother => hpresent other (List.mem_cons_of_mem _ hother)) hok]
    congr 1
    funext other
    cases gone other <;> cases container.isReadOnly other <;>
      by_cases hsame : other = step <;> simp [hsame]

/-- The deletion of children vacates them, however often they are named. -/
theorem value_eraseMembers (hdistinct : container.HasDistinctSteps)
    (hpresent : ∀ step ∈ steps, (container.child? step).isSome = true)
    (hok : (eraseMembers location strict steps container).result = .ok tally) :
    (eraseMembers location strict steps container).value =
      container.vacate fun other => decide (other ∈ steps) && !container.isReadOnly other := by
  have hone (hfixed : container.isGrowable = false)
      (hmembers : eraseMembers location strict steps container =
        Edit.sequence steps (eraseMember location strict) {} container) :
      (eraseMembers location strict steps container).value =
        container.vacate fun other => decide (other ∈ steps) && !container.isReadOnly other := by
    have hnothing := vacate_nothing container
    rw [hmembers, ← hnothing] at hok
    have hvalue := sequence_eraseMember_vacates hdistinct hfixed hpresent hok
    rw [hnothing] at hvalue
    rw [hmembers, hvalue]
    simp
  cases container with
  | list sequence =>
    rcases sequence with ⟨extent, items⟩
    cases extent with
    | fixed => exact hone rfl rfl
    | growable =>
      have hleft := without_positionOf? hpresent
      rw [Sequence.growable] at hleft
      simp only [eraseMembers, hleft, isReadOnly, Bool.not_false, Bool.and_true]
      rfl
  | _ => exact hone rfl rfl

/-- Deleting children of a container that has been pruned prunes them too. -/
theorem eraseMembers_leaves (hcontainer : container.WellFormed)
    (htarget : container.target = container) (hkeeps : container.KeepsPositions doomed)
    (hpresent : ∀ step ∈ steps, ((container.prune doomed).child? step).isSome = true)
    (hok : (eraseMembers location strict steps (container.prune doomed)).result = .ok tally) :
    (eraseMembers location strict steps (container.prune doomed)).value =
      container.prune fun other => doomed other ||
        decide (other ∈ (steps.filter fun step => !container.isReadOnly step).map ([·])) := by
  rw [value_eraseMembers (hcontainer.hasDistinctSteps.prune_of_keeps htarget hkeeps) hpresent hok]
  refine vacate_prune_of_keeps htarget hkeeps (fun step => ?_) fun step rest hrest => ?_
  · simp [isReadOnly_prune_of_keeps htarget hkeeps]
  · simp [hrest]

/-! ## Editing what is inside the children -/

/-- An edit of distinct children, each put back in its place, is one that goes on from
them. -/
theorem sequence_setChild_eq (edit : Location → Value → Edit) (location : Location)
    {things : List (Step × Value)}
    (hsteps : (things.map Prod.fst).Nodup)
    (hpresent : ∀ thing ∈ things, container.child? thing.1 = some thing.2) (before : Tally) :
    Edit.sequence things (fun child current =>
        let inner := edit (location.child child.1) child.2
        { inner with value := current.setChild child.1 inner.value }) before container =
      Edit.sequence (things.map Prod.fst) (editChild none location edit) before container := by
  induction things generalizing container before with
  | nil => rfl
  | cons thing rest ih =>
    rw [List.map_cons, List.nodup_cons] at hsteps
    have hchild := hpresent thing List.mem_cons_self
    have hsame : editChild none location edit thing.1 container =
        { edit (location.child thing.1) thing.2 with
          value := container.setChild thing.1 (edit (location.child thing.1) thing.2).value } := by
      simp [editChild, hchild]
    rw [List.map_cons, Edit.sequence_cons, Edit.sequence_cons, hsame]
    simp only
    cases (edit (location.child thing.1) thing.2).result with
    | error error => rfl
    | ok done =>
      refine ih hsteps.2 (fun other hother => ?_) _
      have hne : other.1 ≠ thing.1 := fun heq => hsteps.1 (heq ▸ List.mem_map_of_mem hother)
      rw [child?_setChild_of_ne hne, hpresent other (List.mem_cons_of_mem _ hother)]

/-- The edit of everything inside the children of a container, where they stand. -/
def throughoutChildren (edit : Location → Value → Edit) (location : Location) (container : Value) :
    Edit :=
  Edit.sequence (container.children.map Prod.fst) (editChild none location (throughout edit)) {}
    container

/-- An edit of everything inside a container that succeeds has edited what is inside its
children, and then the container itself. -/
theorem throughoutContainer_ok {edit : Location → Value → Edit}
    (hdistinct : container.HasDistinctSteps)
    (hok : (throughoutContainer edit location container).result = .ok tally) :
    ∃ before done, (throughoutChildren edit location container).result = .ok before ∧
      (edit location (throughoutChildren edit location container).value).result = .ok done ∧
      (throughoutContainer edit location container).value =
        (edit location (throughoutChildren edit location container).value).value := by
  have hinside := sequence_setChild_eq (throughout edit) location
    (nodup_steps hdistinct) (fun child hchild => (mem_children_iff hdistinct).mp hchild) {}
  rw [← throughoutChildren] at hinside
  rw [throughoutContainer, hinside] at hok ⊢
  simp only at hok ⊢
  cases hresult : (throughoutChildren edit location container).result with
  | error error =>
    rw [hresult] at hok
    cases hok
  | ok before =>
    rw [hresult] at hok
    obtain ⟨done, hdone, _⟩ := Outcome.map_eq_ok_iff.mp hok
    exact ⟨before, done, rfl, hdone, rfl⟩

/-! ## Edits of empty values -/

/-- Going on from children that are left as they are leaves the container as it is. -/
theorem sequence_editChild_stays {edit : Location → Value → Edit} {before : Tally}
    (hedit : ∀ step child, container.child? step = some child → ∀ done,
      (edit (location.child step) child).result = .ok done →
        (edit (location.child step) child).value = child)
    (hok : (Edit.sequence steps (editChild none location edit) before container).result =
      .ok tally) :
    (Edit.sequence steps (editChild none location edit) before container).value = container := by
  induction steps generalizing before with
  | nil => rfl
  | cons step rest ih =>
    obtain ⟨done, hdone, hsequence⟩ := Edit.sequence_cons_ok hok
    have hfirst : (editChild none location edit step container).value = container := by
      simp only [editChild] at hdone ⊢
      cases hchild : container.child? step with
      | none => rfl
      | some child =>
        simp only [hchild] at hdone
        simp only [hedit step child hchild done hdone]
        exact setChild_self hchild
    rw [hsequence, hfirst] at hok ⊢
    exact ih hok

/-- The edit, if it succeeds, leaves empty values as they are. -/
def Stays (edit : Location → Value → Edit) : Prop :=
  ∀ location (value : Value) tally, value.WellFormed → value.zeroed = value →
    (edit location value).result = .ok tally → (edit location value).value = value

theorem ne_ref_of_zeroed {value : Value} (hzeroed : value.zeroed = value) (referent : Value) :
    value ≠ .ref referent := by
  rintro rfl
  simp [zeroed] at hzeroed

/-- Following segments leaves empty values as they are. -/
theorem descend_erase_stays {arrive : Option (Location → Value → Edit)}
    (harrive : ∀ edit, arrive = some edit → Stays edit) (segments : List Segment)
    (searching strict creating : Bool) :
    Stays (descend erase arrive searching strict creating segments) := by
  induction segments generalizing searching strict creating with
  | nil =>
    intro location value tally hvalue hzeroed hok
    cases arrive with
    | none => exact hzeroed
    | some edit => exact harrive edit rfl location value tally hvalue hzeroed hok
  | cons segment rest ih =>
    by_cases hsegment : segment = .root
    · subst hsegment
      exact ih false strict creating
    intro location value tally hvalue hzeroed hok
    rw [descend_erase_segment hsegment,
      Edit.atTarget_of_not_ref (ne_ref_of_zeroed hzeroed)] at hok ⊢
    cases hselect : Selection.select
        { operation := .delete, location, strict, create := false, searching } value segment with
    | error error =>
      simp only [hselect] at hok
      cases hok
    | ok steps =>
      obtain rfl := Selection.steps_of_select rfl hselect
      simp only [hselect] at hok ⊢
      split at hok
      · rename_i hlast
        rw [if_pos hlast, value_eraseMembers hvalue.hasDistinctSteps
          (fun step hstep => ((Segment.mem_steps_iff hvalue).mp hstep).1) hok]
        exact vacate_of_zeroed hzeroed _
      · rename_i hlast
        rw [if_neg hlast]
        refine sequence_editChild_stays (fun step child hchild done hdone => ?_) hok
        exact ih _ _ _ _ child done (hvalue.child hchild)
          (zeroed_of_mem_children hzeroed (mem_children_of_child? hchild)) hdone

/-- Editing everything inside empty values leaves them as they are. -/
theorem throughout_stays {edit : Location → Value → Edit} (hedit : Stays edit) :
    Stays (throughout edit) := by
  intro location value tally hvalue hzeroed hok
  induction value using induct_children generalizing location tally with
  | hstep value ih =>
    have hplain := ne_ref_of_zeroed hzeroed
    have htarget : value.target = value := by
      cases hcases : value with
      | ref referent => exact absurd hcases (hplain referent)
      | _ => rfl
    rw [throughout_eq, Edit.atTarget_of_not_ref hplain] at hok ⊢
    obtain ⟨before, done, hinside, hlast, hafter⟩ :=
      throughoutContainer_ok hvalue.hasDistinctSteps hok
    have hkept : (throughoutChildren edit location value).value = value := by
      refine sequence_editChild_stays (fun step child hchild done hdone => ?_) hinside
      have hmem := mem_children_of_child? hchild
      exact ih (step, child) (by rwa [htarget]) _ done (hvalue.child hchild)
        (zeroed_of_mem_children hzeroed hmem) hdone
    rw [hafter]
    rw [hkept] at hlast ⊢
    exact hedit location value done hvalue hzeroed hlast

theorem search_erase_stays (searches : List (List Segment)) (edit : Location → Value → Edit)
    (hsearch : search erase searches = some edit) : Stays edit := by
  induction searches generalizing edit with
  | nil => cases hsearch
  | cons group rest ih =>
    obtain rfl := Option.some.inj hsearch
    exact throughout_stays (descend_erase_stays ih group true false false)

/-! ## Going on from children that may be gone -/

/-- Going on from a child that has not been deleted prunes what is deleted there; what is
left of a deleted child stays. -/
theorem editChild_leaves {inner : Location → Value → Edit} {step : Step} {added : List Location}
    {passed : Value → Prop}
    (hcontainer : container.WellFormed) (htarget : container.target = container)
    (hkeeps : container.KeepsPositions doomed) (hstays : Stays inner) (hadded : [] ∉ added)
    (hpresent : ((container.prune doomed).child? step).isSome = true)
    (hinner : ∀ child, container.child? step = some child →
      (inner (location.child step) (child.prune fun rest => doomed (step :: rest))).Leaves child
        (fun rest => doomed (step :: rest) || decide (rest ∈ added)) (passed child)) :
    (editChild none location inner step (container.prune doomed)).Leaves container
      (fun other => doomed other || decide (other ∈ added.map (step :: ·)))
      (doomed [step] = false → ∀ child, container.child? step = some child → passed child) := by
  intro tally hok
  have hchildren (other : Step) :
      (doomed [other] || decide ([other] ∈ added.map (step :: ·))) = doomed [other] := by
    simp [hadded]
  obtain ⟨child, hchild⟩ := Option.isSome_iff_exists.mp hpresent
  simp only [editChild, hchild] at hok ⊢
  cases hdoomed : doomed [step] with
  | true =>
    -- The child has been deleted, yet it is there: only its place is left, holding an empty value
    -- in which there is nothing to delete.
    obtain ⟨old, hold, rfl⟩ := exists_of_child?_prune htarget hkeeps hdoomed hchild
    have hkept := hstays _ _ tally (hcontainer.child hold).zeroed (zeroed_zeroed old) hok
    refine ⟨?_, fun hspared => by cases hspared⟩
    simp only [hkept, setChild_self hchild]
    refine prune_congr_of_shadowed container fun other hother hspared => ?_
    have hnot : other ∉ added.map (step :: ·) := by
      intro hmem
      obtain ⟨rest, hrest, rfl⟩ := List.mem_map.mp hmem
      have hne : rest ≠ [] := fun hnil => hadded (hnil ▸ hrest)
      have hstep := hspared [step] (List.cons_ne_nil _ _) (by simp) fun hsame =>
        hne (List.cons.inj hsame).2.symm
      rw [hdoomed] at hstep
      cases hstep
    simp [hnot]
  | false =>
    rw [child?_prune_of_spared htarget hkeeps hdoomed] at hchild
    obtain ⟨old, hold, rfl⟩ := Option.map_eq_some_iff.mp hchild
    obtain ⟨hvalue, hpassed⟩ := hinner old hold tally hok
    refine ⟨?_, fun _ child hsame => Option.some.inj (hold.symm.trans hsame) ▸ hpassed⟩
    simp only [hvalue]
    have hmore : (fun rest => doomed (step :: rest) || decide (rest ∈ added)) =
        fun rest => doomed (step :: rest) || decide (step :: rest ∈ added.map (step :: ·)) := by
      funext rest
      simp
    rw [hmore]
    refine setChild_prune_of_spared (fun other => doomed other ||
      decide (other ∈ added.map (step :: ·))) hcontainer htarget hkeeps hold hdoomed hchildren
      fun other hother rest => ?_
    simp [Ne.symm hother]

/-- Going on from children, some of which have been deleted and some of which are named
several times, prunes what is deleted there.  What has been deleted below a child is such
that the edit fits it, and still does when the child is named again after the edit has
passed. -/
theorem sequence_editChild_leaves {inner : Location → Value → Edit} {before : Tally}
    (passed : Step → Value → Prop) (fits : Step → (Location → Bool) → Prop)
    (added : Step → List Location)
    (hcontainer : container.WellFormed) (htarget : container.target = container)
    (hkeeps : container.KeepsPositions doomed) (hstays : Stays inner)
    (hadded : ∀ step ∈ steps, [] ∉ added step)
    (hpresent : ∀ step ∈ steps, ((container.prune doomed).child? step).isSome = true)
    (hfits : ∀ step ∈ steps, fits step fun rest => doomed (step :: rest))
    (hagain : ∀ step done, [step, step].Sublist steps →
      (doomed [step] = false → ∀ child, container.child? step = some child → passed step child) →
      fits step done → fits step fun rest => done rest || decide (rest ∈ added step))
    (hinner : ∀ step ∈ steps, ∀ child, container.child? step = some child →
      ∀ done, fits step done → (inner (location.child step) (child.prune done)).Leaves child
        (fun rest => done rest || decide (rest ∈ added step)) (passed step child)) :
    (Edit.sequence steps (editChild none location inner) before (container.prune doomed)).Leaves
      container
      (fun other =>
        doomed other || decide (other ∈ steps.flatMap fun step => (added step).map (step :: ·)))
      (∀ step ∈ steps, doomed [step] = false →
        ∀ child, container.child? step = some child → passed step child) := by
  induction steps generalizing doomed before with
  | nil =>
    intro tally _
    simp
  | cons step rest ih =>
    intro tally hok
    obtain ⟨done, hdone, hsequence⟩ := Edit.sequence_cons_ok hok
    obtain ⟨hfirst, hpassed⟩ := editChild_leaves hcontainer htarget hkeeps hstays
      (hadded step List.mem_cons_self) (hpresent step List.mem_cons_self)
      (fun child hchild => hinner step List.mem_cons_self child hchild _
        (hfits step List.mem_cons_self)) done hdone
    have hchildren (other : Step) :
        (doomed [other] || decide ([other] ∈ (added step).map (step :: ·))) = doomed [other] := by
      simp [hadded step List.mem_cons_self]
    -- Below other children nothing has changed; below this one, what was deleted is gone.
    have hbelow (other : Step) : (fun rest => doomed (other :: rest) ||
        decide (other :: rest ∈ (added step).map (step :: ·))) =
        if other = step then fun rest => doomed (step :: rest) || decide (rest ∈ added step)
        else fun rest => doomed (other :: rest) := by
      split
      · rename_i hsame
        funext rest
        simp [hsame]
      · rename_i hother
        funext rest
        simp [Ne.symm hother]
    rw [hsequence, hfirst] at hok ⊢
    have hkeepsMore : container.KeepsPositions fun other =>
        doomed other || decide (other ∈ (added step).map (step :: ·)) :=
      fun hgrows other => (hchildren other).trans (hkeeps hgrows other)
    have hthere (other : Step) (hother : other ∈ rest) :
        ((container.prune fun other =>
          doomed other || decide (other ∈ (added step).map (step :: ·))).child? other).isSome =
            true := by
      rw [isSome_child?_prune htarget hkeepsMore, funext hchildren,
        ← isSome_child?_prune htarget hkeeps]
      exact hpresent other (List.mem_cons_of_mem _ hother)
    have hfit (other : Step) (hother : other ∈ rest) : fits other fun rest =>
        doomed (other :: rest) || decide (other :: rest ∈ (added step).map (step :: ·)) := by
      rw [hbelow]
      have hbefore := hfits other (List.mem_cons_of_mem _ hother)
      split
      · rename_i hsame
        subst hsame
        refine hagain other _ ?_ hpassed hbefore
        exact List.cons_sublist_cons.mpr (List.singleton_sublist.mpr hother)
      · exact hbefore
    obtain ⟨hvalue, hothers⟩ := ih hkeepsMore
      (fun other hother => hadded other (List.mem_cons_of_mem _ hother)) hthere hfit
      (fun other done hsub hpassed => hagain other done (hsub.trans (List.sublist_cons_self _ _))
        fun hspared => hpassed ((hchildren other).trans hspared))
      (fun other hother => hinner other (List.mem_cons_of_mem _ hother)) tally hok
    constructor
    · rw [hvalue]
      congr 1
      funext other
      simp only [List.flatMap_cons, List.mem_append, Bool.decide_or, Bool.or_assoc]
    · intro other hother hspared
      rcases List.mem_cons.mp hother with rfl | hother
      · exact hpassed hspared
      · exact hothers other hother ((hchildren other).trans hspared)

end Action

end NestedData
