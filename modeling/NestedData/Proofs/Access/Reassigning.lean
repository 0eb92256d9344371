import NestedData.Proofs.Access.Selecting
import NestedData.Proofs.Access.Settling
import NestedData.Proofs.Path.Canonical

/-!
# Assigning again

The last assignment wins: assigning one value and then another one along the same path is
assigning the second one alone.  The first assignment makes containers, adds entries and extends
lists, and the second one selects the same steps from what has grown.  A step that has been taken
is settled, so the first assignment of a step can be moved past the second assignment of those
before it, to the second assignment of its own, which overwrites it.

Main results:

- `Action.assignChild_overwrites`: a step of an assignment overwrites the same step of one before
  it.
- `Action.Lasting.sequence_overwrites`: so do the steps into one container, repeated ones included.
- `Action.lasting`: assignments along segments overwrite each other.
- `Value.setAt_setAt`: the last assignment along a path wins.
-/

namespace NestedData

namespace Action

open Value

variable {shaping : Shaping} {location : Location} {strict : Bool} {segment : Segment}
  {segments rest : List Segment} {step other : Step} {container new first second : Value}
  {steps : List Step} {tally : Tally}

/-! ## Values stay well-formed -/

/-- A container of well-formed values that takes every one of some steps. -/
structure Fits (steps : List Step) (container : Value) : Prop where
  /-- It is well-formed. -/
  wellFormed : container.WellFormed
  /-- The steps lead to children, or to where room can be made for them. -/
  takes : ∀ step ∈ steps, container.Takes step

theorem wellFormed_slot (hshaping : shaping.Firm) (location : Location)
    (hcontainer : container.WellFormed) (htakes : container.Takes step) :
    (slot shaping location step container).WellFormed :=
  (hcontainer.makeRoom hshaping.zero location step).child (child?_makeRoom shaping location htakes)

/-- What a container has been made of is well-formed. -/
theorem wellFormed_vivify (hshaping : shaping.Firm) (location : Location) (segment : Segment)
    {value : Value} (hvalue : value.WellFormed) :
    (vivify shaping location segment value).WellFormed := by
  unfold vivify
  induction value using Value.induct with
  | ref referent ih =>
    rw [mapTarget]
    exact .ref (ih (by simpa using hvalue))
  | null => exact hshaping.wellFormed location segment
  | nilRef => exact .ref (hshaping.wellFormed location segment)
  | _ => exact hvalue

/-- A step of an assignment leaves a container that fits as before, if what becomes of the child is
well-formed. -/
theorem Fits.assignChild (hshaping : shaping.Firm) (hroot : .root ∉ rest) (location : Location)
    (strict : Bool)
    (hleft : ∀ {value}, value.WellFormed → (descend (assign shaping new) none false strict true rest
      (location.child step) value).value.WellFormed)
    (hfits : Fits steps container) (hstep : step ∈ steps) :
    Fits steps (assignChild shaping new location strict rest step container).value := by
  have htakes := hfits.takes step hstep
  refine ⟨?_, fun other hother => takes_assignChild hroot htakes (hfits.takes other hother)⟩
  by_cases habstains : Abstains shaping location rest step container
  · rw [value_assignChild_of_abstains hroot htakes habstains]
    exact hfits.wellFormed
  · rw [assignChild_of_not_abstains hroot htakes habstains]
    have hroomy := hfits.wellFormed.makeRoom hshaping.zero location step
    exact hroomy.setChild (hleft (wellFormed_slot hshaping location hfits.wellFormed htakes)) step

/-- An assignment of a well-formed value leaves a well-formed value. -/
theorem wellFormed_descend_assign (hshaping : shaping.Firm) (hnew : new.WellFormed)
    (hroot : .root ∉ segments) (strict : Bool) (location : Location) {value : Value}
    (hvalue : value.WellFormed) : (descend (assign shaping new) none false strict true segments
      location value).value.WellFormed := by
  induction segments generalizing strict location value with
  | nil => exact hnew.assign value
  | cons segment rest ih =>
    have hsegment : segment ≠ .root := (List.ne_of_not_mem_cons hroot).symm
    have hrest := List.not_mem_of_not_mem_cons hroot
    have htarget := (wellFormed_vivify hshaping location segment hvalue).target
    rw [descend_assign_segment hsegment, Edit.atTarget_eq]
    refine WellFormed.mapTarget ?_
    split
    · exact htarget
    · rename_i steps hselect
      have hfits : Fits steps _ := ⟨htarget, fun step hstep =>
        Selection.takes_of_select (fun _ => htarget.hasDistinctSteps) hselect hstep⟩
      have hafter : Fits steps (Edit.sequence steps (Action.assignChild shaping new location
          (strict && !segment.isMultiValued) rest) {} _).value :=
        Edit.sequence_preserves (fun step hstep current hcurrent =>
          hcurrent.assignChild hshaping hrest location _ (ih hrest _ _) hstep) hfits {}
      exact hafter.wellFormed

/-! ## One step -/

/-- An assignment of the second value along segments overwrites one of the first: if the one of
the first succeeds, that of the second does the same, and it leaves the same whether or not the
first was assigned before. -/
def Overrides (shaping : Shaping) (first second : Value) (segments : List Segment) : Prop :=
  ∀ strict location value tally, value.WellFormed →
    (descend (assign shaping first) none false strict true segments location value).result =
      .ok tally →
    (descend (assign shaping second) none false strict true segments location value).result =
        .ok tally ∧
      descend (assign shaping second) none false strict true segments location
          (descend (assign shaping first) none false strict true segments location value).value =
        descend (assign shaping second) none false strict true segments location value

theorem toOption_eq_some_iff {ε α : Type} {outcome : Except ε α} {value : α} :
    outcome.toOption = some value ↔ outcome = .ok value := by
  cases outcome <;> simp [Except.toOption]

/-- A step of an assignment overwrites the same step of one before it. -/
theorem assignChild_overwrites (hshaping : shaping.Firm) (hroot : .root ∉ rest)
    (hrest : Overrides shaping first second rest) (hcontainer : container.WellFormed)
    (htakes : container.Takes step)
    (hok : (assignChild shaping first location strict rest step container).result = .ok tally) :
    (assignChild shaping second location strict rest step container).result = .ok tally ∧
      assignChild shaping second location strict rest step
          (assignChild shaping first location strict rest step container).value =
        assignChild shaping second location strict rest step container := by
  have hslot := wellFormed_slot hshaping location hcontainer htakes
  have hsame : (assignChild shaping second location strict rest step container).result =
      .ok tally := by
    rw [← toOption_eq_some_iff, done_assignChild hroot htakes] at hok ⊢
    split at hok <;> rename_i hreadOnly
    · rwa [if_pos hreadOnly]
    · rw [if_neg hreadOnly, toOption_eq_some_iff] at *
      exact (hrest _ _ _ _ hslot hok).1
  refine ⟨hsame, ?_⟩
  by_cases habstains : Abstains shaping location rest step container
  · rw [value_assignChild_of_abstains hroot htakes habstains]
  · rw [assignChild_of_not_abstains hroot htakes habstains] at hok ⊢
    have hagain := (hrest _ _ _ _ hslot hok).2
    rw [assignChild_of_not_abstains hroot (takes_put htakes _ htakes)
        (not_abstains_put htakes habstains _), assignSlot, slot_put shaping location htakes,
      put_put, assignSlot, hagain, assignChild_of_not_abstains hroot htakes habstains]
    rfl

/-! ## The steps into one container -/

/-- What is left of a slot after a second value has been written does not depend on the first. -/
def Covers (first second : Value) : Prop :=
  first.isReference = false ∨ first = second

/-- Assignments of well-formed values along the segments overwrite each other, and what is created
on the way lasts. -/
structure Lasting (shaping : Shaping) (rest : List Segment) : Prop where
  /-- What is created lasts. -/
  firm : shaping.Firm
  /-- The segments do not begin anew. -/
  root : .root ∉ rest
  /-- A value overwrites another one that is no reference, and itself. -/
  overwrites : ∀ {first second : Value}, first.WellFormed → second.WellFormed →
    Covers first second → Overrides shaping first second rest

/-- The container after some steps of an assignment. -/
def assignChildren (shaping : Shaping) (new : Value) (location : Location) (strict : Bool)
    (rest : List Segment) (steps : List Step) (container : Value) : Value :=
  steps.foldl (fun current step =>
    (assignChild shaping new location strict rest step current).value) container

theorem assignChildren_concat (shaping : Shaping) (new : Value) (location : Location)
    (strict : Bool) (rest : List Segment) (steps : List Step) (step : Step) (container : Value) :
    assignChildren shaping new location strict rest (steps ++ [step]) container =
      (assignChild shaping new location strict rest step
        (assignChildren shaping new location strict rest steps container)).value := by
  rw [assignChildren, List.foldl_concat, assignChildren]

section Steps

variable (hlasting : Lasting shaping rest) (hfirst : first.WellFormed)
  (hsecond : second.WellFormed) (hcovers : Covers first second)

include hlasting hfirst

theorem Lasting.fits (hfits : Fits steps container) (hstep : step ∈ steps) :
    Fits steps (assignChild shaping first location strict rest step container).value :=
  hfits.assignChild hlasting.firm hlasting.root location strict
    (wellFormed_descend_assign hlasting.firm hfirst hlasting.root _ _) hstep

/-- Steps of an assignment leave a container that fits as before. -/
theorem Lasting.fits_assignChildren (location : Location) (strict : Bool) {done : List Step}
    (hfits : Fits steps container)
    (hdone : done ⊆ steps) :
    Fits steps (assignChildren shaping first location strict rest done container) := by
  induction done generalizing container with
  | nil => exact hfits
  | cons step later ih =>
    exact ih (hlasting.fits hfirst hfits (hdone List.mem_cons_self))
      fun other hother => hdone (List.mem_cons_of_mem _ hother)

/-- After a step of the first assignment that succeeds, a step of the second does what it would have
done before. -/
theorem Lasting.done_assignChild (hsecond : second.WellFormed) (hcovers : Covers first second)
    (hfits : Fits steps container) (hstep : step ∈ steps) (hother : other ∈ steps)
    (hok : ∃ tally, (assignChild shaping first location strict rest step container).result =
      .ok tally) :
    (assignChild shaping second location strict rest other
      (assignChild shaping first location strict rest step container).value).result.toOption =
      (assignChild shaping second location strict rest other container).result.toOption := by
  by_cases hne : step = other
  · subst hne
    obtain ⟨tally, hok⟩ := hok
    have hagain := assignChild_overwrites hlasting.firm hlasting.root
      (hlasting.overwrites hfirst hsecond hcovers) hfits.wellFormed (hfits.takes _ hstep) hok
    rw [hagain.2]
  · exact done_assignChild_of_ne hlasting.root (hfits.takes _ hstep) (hfits.takes _ hother) hne

/-- A step of an assignment succeeds after another one if it does before. -/
theorem Lasting.exists_done (hfits : Fits steps container) (hstep : step ∈ steps)
    (hother : other ∈ steps)
    (hok : ∃ tally, (assignChild shaping first location strict rest step container).result =
      .ok tally)
    (hmore : ∃ tally, (assignChild shaping first location strict rest other container).result =
      .ok tally) :
    ∃ tally, (assignChild shaping first location strict rest other
      (assignChild shaping first location strict rest step container).value).result =
      .ok tally := by
  obtain ⟨tally, hmore⟩ := hmore
  refine ⟨tally, ?_⟩
  rw [← toOption_eq_some_iff] at hmore ⊢
  rw [hlasting.done_assignChild hfirst hfirst (.inr rfl) hfits hstep hother hok, hmore]

/-- After steps of the first assignment that succeed, a step of the second does what it would have
done before. -/
theorem Lasting.done_assignChildren (hsecond : second.WellFormed) (hcovers : Covers first second)
    {done : List Step} (hfits : Fits steps container) (hdone : done ⊆ steps)
    (hok : ∀ step ∈ done, ∃ tally,
      (assignChild shaping first location strict rest step container).result = .ok tally)
    (hother : other ∈ steps) :
    (assignChild shaping second location strict rest other
      (assignChildren shaping first location strict rest done container)).result.toOption =
      (assignChild shaping second location strict rest other container).result.toOption := by
  induction done generalizing container with
  | nil => rfl
  | cons step later ih =>
    have hstep := hdone List.mem_cons_self
    have hmore (next : Step) (hnext : next ∈ later) : next ∈ steps :=
      hdone (List.mem_cons_of_mem _ hnext)
    refine (ih (hlasting.fits hfirst hfits hstep) hmore fun next hnext => ?_).trans ?_
    · exact hlasting.exists_done hfirst hfits hstep (hmore next hnext) (hok _ List.mem_cons_self)
        (hok next (List.mem_cons_of_mem _ hnext))
    · exact hlasting.done_assignChild hfirst hsecond hcovers hfits hstep hother
        (hok _ List.mem_cons_self)

/-- An assignment that succeeds in a row of steps succeeds in each of them alone. -/
theorem Lasting.exists_done_of_sequence {before : Tally} {done : List Step}
    (hfits : Fits steps container) (hdone : done ⊆ steps)
    (hok : (Edit.sequence done (assignChild shaping first location strict rest) before
      container).result = .ok tally) :
    ∀ step ∈ done, ∃ tally,
      (assignChild shaping first location strict rest step container).result = .ok tally := by
  induction done generalizing container before with
  | nil => simp
  | cons step later ih =>
    obtain ⟨one, hone, hsequence⟩ := Edit.sequence_cons_ok hok
    rw [hsequence] at hok
    have hstep := hdone List.mem_cons_self
    have hmore (next : Step) (hnext : next ∈ later) : next ∈ steps :=
      hdone (List.mem_cons_of_mem _ hnext)
    intro next hnext
    rcases List.mem_cons.mp hnext with rfl | hlater
    · exact ⟨one, hone⟩
    · obtain ⟨found, hfound⟩ := ih (hlasting.fits hfirst hfits hstep) hmore hok next hlater
      refine ⟨found, ?_⟩
      rw [← toOption_eq_some_iff] at hfound ⊢
      rwa [hlasting.done_assignChild hfirst hfirst (.inr rfl) hfits hstep (hmore next hlater)
        ⟨one, hone⟩] at hfound

/-- An assignment that succeeds in each of some steps alone succeeds in all of them, one after the
other. -/
theorem Lasting.sequence_eq {did : Step → Tally} {before : Tally} {done : List Step}
    (hfits : Fits steps container) (hdone : done ⊆ steps)
    (hdid : ∀ step ∈ done,
      (assignChild shaping first location strict rest step container).result = .ok (did step)) :
    Edit.sequence done (assignChild shaping first location strict rest) before container =
      { value := assignChildren shaping first location strict rest done container
        result := .ok (done.foldl (fun tally step => tally.add (did step)) before) } := by
  induction done generalizing container before with
  | nil => rfl
  | cons step later ih =>
    have hstep := hdone List.mem_cons_self
    have hmore (next : Step) (hnext : next ∈ later) : next ∈ steps :=
      hdone (List.mem_cons_of_mem _ hnext)
    rw [Edit.sequence_cons, hdid step List.mem_cons_self]
    refine ih (hlasting.fits hfirst hfits hstep) hmore fun next hnext => ?_
    have hsame := hdid next (List.mem_cons_of_mem _ hnext)
    rw [← toOption_eq_some_iff] at hsame ⊢
    rwa [hlasting.done_assignChild hfirst hfirst (.inr rfl) hfits hstep (hmore next hnext)
      ⟨_, hdid step List.mem_cons_self⟩]

omit hfirst in
/-- A step into a child that none of the later steps leads to is taken before or after them, if they
have been taken already. -/
theorem Lasting.assignChildren_comm (hsecond : second.WellFormed) {done : List Step}
    (hfits : Fits steps container) (hdone : done ⊆ steps) (hstep : step ∈ steps)
    (hnew : step ∉ done)
    (hsettled : ∀ other ∈ done, Settled shaping location rest other container) :
    assignChildren shaping second location strict rest done
        (assignChild shaping first location strict rest step container).value =
      (assignChild shaping first location strict rest step
        (assignChildren shaping second location strict rest done container)).value := by
  induction done generalizing container with
  | nil => rfl
  | cons other later ih =>
    have hother := hdone List.mem_cons_self
    have hne : other ≠ step := fun hsame => hnew (hsame ▸ List.mem_cons_self)
    have htakes := hfits.takes step hstep
    have hothers := hfits.takes other hother
    have hcomm := value_assignChild_comm location strict second first hlasting.root hothers
      htakes hne (hsettled other List.mem_cons_self)
    rw [assignChildren, List.foldl_cons, ← hcomm]
    refine ih (hlasting.fits hsecond hfits hother)
      (fun next hnext => hdone (List.mem_cons_of_mem _ hnext))
      (fun hlater => hnew (List.mem_cons_of_mem _ hlater)) fun next hnext => ?_
    exact settled_assignChild hlasting.root hothers (hsettled next (List.mem_cons_of_mem _ hnext))

/-- Steps of an assignment that have been taken are settled, and taking one of them again changes
nothing. -/
theorem Lasting.settled_assignChildren {done : List Step} (hfits : Fits steps container)
    (hdone : done ⊆ steps)
    (hok : ∀ step ∈ done, ∃ tally,
      (assignChild shaping first location strict rest step container).result = .ok tally) :
    ∀ step ∈ done,
      Settled shaping location rest step
          (assignChildren shaping first location strict rest done container) ∧
        (assignChild shaping first location strict rest step
          (assignChildren shaping first location strict rest done container)).value =
          assignChildren shaping first location strict rest done container := by
  induction done using List.reverseRecOn with
  | nil => simp
  | append_singleton earlier last ih =>
    have hlast : last ∈ steps := hdone (List.mem_append_right _ (List.mem_singleton_self last))
    have hearlier : earlier ⊆ steps := fun step hstep => hdone (List.mem_append_left _ hstep)
    have hokay (step : Step) (hstep : step ∈ earlier) := hok step (List.mem_append_left _ hstep)
    have hbefore := hlasting.fits_assignChildren hfirst location strict hfits hearlier
    have htakes := hbefore.takes last hlast
    rw [assignChildren_concat]
    intro step hstep
    by_cases hne : step = last
    · subst hne
      refine ⟨settled_assignChild_self hlasting.root htakes, ?_⟩
      obtain ⟨tally, htally⟩ := hok step (List.mem_append_right _ (List.mem_singleton_self step))
      rw [← toOption_eq_some_iff, ← hlasting.done_assignChildren hfirst hfirst (.inr rfl) hfits
        hearlier hokay hlast, toOption_eq_some_iff] at htally
      rw [(assignChild_overwrites hlasting.firm hlasting.root
        (hlasting.overwrites hfirst hfirst (.inr rfl)) hbefore.wellFormed htakes htally).2]
    · have hmem : step ∈ earlier := (List.mem_append.mp hstep).resolve_right fun hsame =>
        hne (List.mem_singleton.mp hsame)
      obtain ⟨hsettled, hsame⟩ := ih hearlier hokay step hmem
      refine ⟨settled_assignChild hlasting.root htakes hsettled, ?_⟩
      rw [← value_assignChild_comm location strict first first hlasting.root
        (hbefore.takes step (hearlier hmem)) htakes hne hsettled, hsame]

omit hfirst in
/-- After steps to other children, a step does what it would have done before. -/
theorem Lasting.done_assignChildren_of_notMem (hsecond : second.WellFormed) {done : List Step}
    (hfits : Fits steps container) (hdone : done ⊆ steps) (hstep : step ∈ steps)
    (hnew : step ∉ done) :
    (assignChild shaping first location strict rest step
      (assignChildren shaping second location strict rest done container)).result.toOption =
      (assignChild shaping first location strict rest step container).result.toOption := by
  induction done generalizing container with
  | nil => rfl
  | cons other later ih =>
    have hother := hdone List.mem_cons_self
    refine (ih (hlasting.fits hsecond hfits hother)
      (fun next hnext => hdone (List.mem_cons_of_mem _ hnext))
      (fun hlater => hnew (List.mem_cons_of_mem _ hlater))).trans ?_
    exact done_assignChild_of_ne hlasting.root (hfits.takes other hother) (hfits.takes step hstep)
      fun hsame => hnew (hsame ▸ List.mem_cons_self)

/-- The steps of a second assignment leave the same whether or not those of the first were taken
before. -/
theorem Lasting.assignChildren_overwrites (hsecond : second.WellFormed)
    (hcovers : Covers first second) {done : List Step} (hfits : Fits steps container)
    (hdone : done ⊆ steps)
    (hok : ∀ step ∈ done, ∃ tally,
      (assignChild shaping first location strict rest step container).result = .ok tally) :
    assignChildren shaping second location strict rest done
        (assignChildren shaping first location strict rest done container) =
      assignChildren shaping second location strict rest done container := by
  induction done using List.reverseRecOn with
  | nil => rfl
  | append_singleton earlier last ih =>
    have hlast : last ∈ steps := hdone (List.mem_append_right _ (List.mem_singleton_self last))
    have hearlier : earlier ⊆ steps := fun step hstep => hdone (List.mem_append_left _ hstep)
    have hokay (step : Step) (hstep : step ∈ earlier) := hok step (List.mem_append_left _ hstep)
    have hbefore := hlasting.fits_assignChildren hfirst location strict hfits hearlier
    have hsettled := hlasting.settled_assignChildren hfirst hfits hearlier hokay
    have hagain := ih hearlier hokay
    simp only [assignChildren_concat]
    by_cases hmem : last ∈ earlier
    · rw [(hsettled last hmem).2, hagain]
    · -- The first assignment of the last step is moved past the second assignments of the others.
      rw [hlasting.assignChildren_comm hsecond hbefore hearlier hlast hmem
        fun other hother => (hsettled other hother).1, hagain]
      have hfresh := hlasting.fits_assignChildren hsecond location strict hfits hearlier
      obtain ⟨tally, htally⟩ := hok last (List.mem_append_right _ (List.mem_singleton_self last))
      rw [← toOption_eq_some_iff, ← hlasting.done_assignChildren_of_notMem hsecond hfits hearlier
        hlast hmem, toOption_eq_some_iff] at htally
      rw [(assignChild_overwrites hlasting.firm hlasting.root
        (hlasting.overwrites hfirst hsecond hcovers) hfresh.wellFormed (hfresh.takes last hlast)
        htally).2]

/-- The steps of a second assignment into a container overwrite those of one before it. -/
theorem Lasting.sequence_overwrites (hsecond : second.WellFormed) (hcovers : Covers first second)
    {before : Tally} (hfits : Fits steps container)
    (hok : (Edit.sequence steps (assignChild shaping first location strict rest) before
      container).result = .ok tally) :
    (Edit.sequence steps (assignChild shaping second location strict rest) before
        container).result = .ok tally ∧
      Edit.sequence steps (assignChild shaping second location strict rest) before
          (Edit.sequence steps (assignChild shaping first location strict rest) before
            container).value =
        Edit.sequence steps (assignChild shaping second location strict rest) before container := by
  have hall := List.Subset.refl steps
  have hexists := hlasting.exists_done_of_sequence hfirst hfits hall hok
  have : Nonempty Tally := ⟨{}⟩
  choose! did hdid using hexists
  have hsame (step : Step) (hstep : step ∈ steps) :
      (assignChild shaping second location strict rest step container).result = .ok (did step) :=
    (assignChild_overwrites hlasting.firm hlasting.root
      (hlasting.overwrites hfirst hsecond hcovers) hfits.wellFormed (hfits.takes step hstep)
      (hdid step hstep)).1
  have hafter (step : Step) (hstep : step ∈ steps) :
      (assignChild shaping second location strict rest step
        (assignChildren shaping first location strict rest steps container)).result =
        .ok (did step) := by
    rw [← toOption_eq_some_iff, hlasting.done_assignChildren hfirst hsecond hcovers hfits hall
      (fun other hother => ⟨_, hdid other hother⟩) hstep, toOption_eq_some_iff]
    exact hsame step hstep
  rw [hlasting.sequence_eq hfirst hfits hall hdid] at hok ⊢
  rw [hlasting.sequence_eq hsecond hfits hall hsame]
  refine ⟨hok, ?_⟩
  dsimp only
  have hfresh := hlasting.fits_assignChildren hfirst location strict hfits hall
  rw [hlasting.sequence_eq hsecond hfresh hall hafter,
    hlasting.assignChildren_overwrites hfirst hsecond hcovers hfits hall
      fun step hstep => ⟨_, hdid step hstep⟩]

end Steps

/-! ## What a container has grown to -/

/-- A container has grown by some steps, keeps what it is, and fits them still. -/
structure Grows (steps : List Step) (before after : Value) : Prop where
  /-- It has grown by the steps. -/
  grown : GrownBy steps before after
  /-- It is the same kind of container. -/
  survives : before.Survives after
  /-- It fits the steps. -/
  fits : Fits steps after

/-- A step of an assignment grows a container by that step. -/
theorem Grows.assignChild (hshaping : shaping.Firm) (hroot : .root ∉ rest) (hnew : new.WellFormed)
    {current : Value} (hgrows : Grows steps container current) (hstep : step ∈ steps) :
    Grows steps container
      (assignChild shaping new location strict rest step current).value := by
  have htakes := hgrows.fits.takes step hstep
  have hfits := hgrows.fits.assignChild hshaping hroot location strict
    (wellFormed_descend_assign hshaping hnew hroot _ _) hstep
  by_cases habstains : Abstains shaping location rest step current
  · rwa [value_assignChild_of_abstains hroot htakes habstains]
  · rw [assignChild_of_not_abstains hroot htakes habstains] at hfits ⊢
    refine ⟨?_, ?_, hfits⟩
    · have hsteps : steps ++ [step] ⊆ steps :=
        List.append_subset.mpr ⟨List.Subset.refl steps, by simpa using hstep⟩
      exact (hgrows.grown.append (grownBy_put shaping location htakes _)).mono hsteps
    · have hroomy : Retains .null current (makeRoom shaping location step current) :=
        .makeRoom shaping location htakes
      have hslot := child?_makeRoom shaping location htakes
      exact hgrows.survives.trans (hroomy.survives.trans
        (Retains.setChild hslot (Keeps.of_written rfl _)).survives)

theorem grows_sequence (hshaping : shaping.Firm) (hroot : .root ∉ rest) (hnew : new.WellFormed)
    (location : Location) (strict : Bool) (hfits : Fits steps container) (before : Tally) :
    Grows steps container
      (Edit.sequence steps (assignChild shaping new location strict rest) before
        container).value :=
  Edit.sequence_preserves
    (fun _ hstep _ hcurrent => hcurrent.assignChild hshaping hroot hnew hstep)
    ⟨.refl steps container, .same container, hfits⟩ before

/-! ## Along segments -/

/-- What stands in a slot after a value has been written does not depend on one written before. -/
theorem Covers.assign_assign (hcovers : Covers first second) (slot : Value) :
    (slot.assign first).assign second = slot.assign second := by
  rcases hcovers with hfirst | rfl
  · cases hsecond : second.isReference with
    | true => rw [assign_of_reference hsecond, assign_of_reference hsecond]
    | false =>
      rw [assign_of_value hfirst, assign_of_value hsecond, assign_of_value hsecond]
      induction slot using Value.induct with
      | ref referent ih => rw [mapTarget, mapTarget, mapTarget, ih]
      | _ => cases first <;> first | rfl | cases hfirst
  · exact Value.assign_assign slot first

/-- Once a container has been made and has grown, none has to be made. -/
theorem vivify_again (hshaping : shaping.Firm) (value : Value) {after : Value}
    (hgrown : GrownBy steps (vivify shaping location segment value).target after) :
    vivify shaping location segment
        ((vivify shaping location segment value).mapTarget fun _ => after) =
      (vivify shaping location segment value).mapTarget fun _ => after := by
  have htarget := hgrown.target_eq (target_target _)
  cases habsent : (vivify shaping location segment value).target.isAbsent with
  | false =>
    apply vivify_of_present
    rw [target_mapTarget, htarget, hgrown.isAbsent_eq, habsent]
  | true =>
    obtain rfl : after = (vivify shaping location segment value).target := by
      generalize (vivify shaping location segment value).target = target at hgrown habsent
      cases target <;> first | exact hgrown | cases habsent
    rw [mapTarget_eq_self rfl]
    -- What was made is null, so that making it again makes no difference.
    cases hbefore : value.target.isAbsent with
    | false => rw [vivify_of_present hbefore, vivify_of_present hbefore]
    | true =>
      have hnull : shaping.containerAt location segment = .null := by
        rw [target_vivify hbefore] at habsent
        exact hshaping.there location segment habsent
      unfold vivify
      simp only [hnull]
      clear hgrown htarget habsent
      induction value using Value.induct with
      | ref referent ih => rw [mapTarget, mapTarget, ih hbefore]
      | _ => simp [mapTarget]

/-- Assignments of well-formed values along segments overwrite each other. -/
theorem lasting (hshaping : shaping.Firm) (hroot : .root ∉ segments) :
    Lasting shaping segments := by
  induction segments with
  | nil =>
    refine ⟨hshaping, hroot, fun _ _ hcovers strict location value tally _ hok => ⟨hok, ?_⟩⟩
    simp only [descend, assign, hcovers.assign_assign]
  | cons segment rest ih =>
    refine ⟨hshaping, hroot, ?_⟩
    intro first second hfirst hsecond hcovers strict location value tally hvalue hok
    have hsegment : segment ≠ .root := (List.ne_of_not_mem_cons hroot).symm
    have hrest := ih (List.not_mem_of_not_mem_cons hroot)
    have hmade := wellFormed_vivify hshaping location segment hvalue
    simp only [descend_assign_segment hsegment, Edit.atTarget_eq] at hok ⊢
    cases hselect : Selection.select
        { operation := .set, location, strict, create := true, searching := false }
        (vivify shaping location segment value).target segment with
    | error error =>
      rw [hselect] at hok
      cases hok
    | ok steps =>
      simp only [hselect] at hok ⊢
      have hfits : Fits steps (vivify shaping location segment value).target :=
        ⟨hmade.target, fun step hstep =>
          Selection.takes_of_select (fun _ => hmade.target.hasDistinctSteps) hselect hstep⟩
      have hgrows := grows_sequence hshaping hrest.root hfirst location
        (strict && !segment.isMultiValued) hfits {}
      have hboth := hrest.sequence_overwrites hfirst hsecond hcovers hfits hok
      refine ⟨hboth.1, ?_⟩
      have htarget := hgrows.grown.target_eq (target_target _)
      have hagain := Selection.select_again rfl hselect hgrows.grown hgrows.survives
        hgrows.fits.wellFormed
      rw [vivify_again hshaping value hgrows.grown, target_mapTarget, htarget]
      simp only [hagain, hboth.2]
      rw [mapTarget_mapTarget htarget]

end Action

namespace Value

variable {root after first second new : Value} {path : Path} {shaping : Shaping}
  {segments : List Segment} {tally : Tally} {count : Nat}

/-! ## Along a path -/

/-- What an assignment along a path without a search gives is made of what it leaves along the
segments. -/
theorem setAt_congr (hsearches : path.searches = [])
    (hsegments : path.first = segments ∨ path.first = .root :: segments)
    (hsame : Action.descend (Action.assign shaping new) none false true true segments [] after =
      Action.descend (Action.assign shaping new) none false true true segments [] root) :
    after.setAt path new shaping = root.setAt path new shaping := by
  simp only [setAt, Action.run, hsearches, Action.search, Action.descend_of_first hsegments, hsame]

/-- Assignments along a path that do the same give the same count. -/
theorem count_setAt_congr (hsearches : path.searches = [])
    (hsegments : path.first = segments ∨ path.first = .root :: segments)
    (hfirst : (Action.descend (Action.assign shaping first) none false true true segments []
      root).result = .ok tally)
    (hsecond : (Action.descend (Action.assign shaping second) none false true true segments []
      root).result = .ok tally)
    (hset : (root.setAt path first shaping).2 = .ok count) :
    (root.setAt path second shaping).2 = .ok count := by
  simp only [setAt, Action.run, hsearches, Action.search, Action.descend_of_first hsegments,
    hfirst, hsecond] at hset ⊢
  cases hmatched : tally.matched with
  | false => simp [hmatched] at hset
  | true => simpa [hmatched] using hset

/-- The last assignment along a path wins: after an assignment of what is no reference has
succeeded, another one gives and leaves what it would have given and left without the first,
whatever the path selects and makes on its way, in plain shapes or in those of a schema whose
defaults for containers do not point at nothing. -/
theorem setAt_setAt {text : String} (hparse : Path.parse text = .ok path)
    (hsearches : path.searches = []) (hroot : root.WellFormed) (hfirst : first.WellFormed)
    (hsecond : second.WellFormed) (hvalue : first.isReference = false)
    (hshaping : shaping = .plain ∨ ∃ schema : Schema, schema.HasFirmDefaults ∧
      shaping = schema.shaping)
    (hset : (root.setAt path first shaping).2 = .ok count) :
    (root.setAt path second shaping).2 = .ok count ∧
      (root.setAt path first shaping).1.setAt path second shaping =
        root.setAt path second shaping := by
  have hfirm : shaping.Firm := by
    rcases hshaping with rfl | ⟨schema, hschema, rfl⟩
    · exact Shaping.firm_plain
    · exact Schema.firm_shaping hschema
  obtain ⟨segments, hmark, _, hsegments⟩ :=
    Path.exists_segments (Path.isCanonical_of_parse hparse)
  have hpair : root.setAt path first shaping = ((root.setAt path first shaping).1, .ok count) :=
    Prod.ext rfl hset
  obtain ⟨tally, hdescend, _⟩ := setAt_eq_ok hsearches hsegments hpair
  have hdone : (Action.descend (Action.assign shaping first) none false true true segments []
      root).result = .ok tally := by rw [hdescend]
  obtain ⟨hsame, hover⟩ := (Action.lasting hfirm hmark).overwrites hfirst hsecond (.inl hvalue)
    true [] root tally hroot hdone
  rw [hdescend] at hover
  exact ⟨count_setAt_congr hsearches hsegments hdone hsame hset,
    setAt_congr hsearches hsegments hover⟩

/-- Elements of a list behind a reference, of one that is made, and of the first one again are
assigned to, and then replaced by references. -/
theorem setAt_setAt_grown :
    let root : Value := .map [("a", .ref (.ofItems #[.int 1])), ("c", .int 5)]
    let path : Path := { first := [.root, .union [.key "a", .key "b", .key "a"],
      .slice (some (-2)) (some 2) none] }
    let given : Value := .ref (.text "x")
    let after : Value := .map [("a", .ref (.ofItems #[given, given])), ("c", .int 5),
      ("b", .ofItems #[given, given])]
    Path.parse "$['a','b','a'][-2:2]" = .ok path ∧
      (root.setAt path (.int 9) .plain).2 = .ok 6 ∧
      (root.setAt path (.int 9) .plain).1.setAt path given .plain = (after, .ok 6) := by
  intro root path given after
  have hparse : Path.parse "$['a','b','a'][-2:2]" = .ok path := by
    cbv
  have hroot : root.WellFormed := by
    simp [root, ofItems, Sequence.growable, Entries.keys]
  have hset : (root.setAt path (.int 9) .plain).2 = .ok 6 := by
    cbv
  have hgiven : given.WellFormed := by
    simp [given]
  have hagain := (setAt_setAt hparse rfl hroot (by simp) hgiven rfl (.inl rfl) hset).2
  refine ⟨hparse, hset, hagain.trans ?_⟩
  cbv

/-- Where a reference to nothing stands for an absent map, the first assignment leaves the reference
and the second one goes through it: something else is left than without the first. -/
theorem setAt_setAt_nil_default :
    let schema : Schema := .single { shape := .list (some
      (.single { shape := .map none, default? := some .nilRef })) }
    let root : Value := .ofItems #[.null, .map []]
    let path : Path := { first := [.root, .wildcard, .key "c"] }
    Path.parse "$[*].c" = .ok path ∧ path.searches = [] ∧ root.WellFormed ∧
      (root.setAt path (.int 1) schema.shaping).2 = .ok 1 ∧
      (root.setAt path (.int 2) schema.shaping).1 =
        .ofItems #[.nilRef, .map [("c", .int 2)]] ∧
      ((root.setAt path (.int 1) schema.shaping).1.setAt path (.int 2) schema.shaping).1 =
        .ofItems #[.ref .nilRef, .map [("c", .int 2)]] ∧
      ((root.setAt path (.int 1) schema.shaping).1.setAt path (.int 2) schema.shaping).1 ≠
        (root.setAt path (.int 2) schema.shaping).1 := by
  intro schema root path
  have hparse : Path.parse "$[*].c" = .ok path := by
    cbv
  have hroot : root.WellFormed := by
    simp [root, ofItems, Sequence.growable, Entries.keys]
  have hfirst : root.setAt path (.int 1) schema.shaping =
      (.ofItems #[.nilRef, .map [("c", .int 1)]], .ok 1) := by
    simp only [schema, root, path]
    cbv
  have halone : (root.setAt path (.int 2) schema.shaping).1 =
      .ofItems #[.nilRef, .map [("c", .int 2)]] := by
    simp only [schema, root, path]
    cbv
  have hboth : ((root.setAt path (.int 1) schema.shaping).1.setAt path (.int 2)
      schema.shaping).1 = .ofItems #[.ref .nilRef, .map [("c", .int 2)]] := by
    rw [hfirst]
    simp only [schema, path]
    cbv
  refine ⟨hparse, rfl, hroot, by rw [hfirst], halone, hboth, ?_⟩
  rw [hboth, halone]
  simp [ofItems, Sequence.growable]

end Value

end NestedData
