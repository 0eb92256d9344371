import NestedData.Proofs.Access.Advancing
import NestedData.Proofs.Access.Sparing

/-!
# One step of an assignment, taken again

An assignment that goes on to a child leaves the container as it is, or puts what becomes of the
child in its place.  Which of the two does not depend on the value that is assigned, and once the
step has been taken, taking it again makes no more room.  Steps to different children therefore do
not disturb each other, up to the order in which entries are added, and not even that where the
child of one of them is there already.

Main results:

- `Action.put_comm_of_present`: a child that is there is replaced before or after another one is
  put.
- `Action.isAbsent_descend_assign_eq`: whether something is left where an assignment went on does
  not depend on the value.
- `Action.assignChild_of_not_abstains`, `Action.done_assignChild`: what a step of an assignment
  does.
- `Action.value_assignChild_comm`: steps that have been taken commute with others.
-/

namespace NestedData

/-- Where a key is there already, its value is replaced before or after another entry is put. -/
theorem Entries.insert_comm_of_contains {α : Type} {name other : String} (hne : name ≠ other)
    {entries : Entries α} (hname : Entries.contains entries name = true) (first second : α) :
    Entries.insert (Entries.insert entries name first) other second =
      Entries.insert (Entries.insert entries other second) name first := by
  induction entries with
  | nil => cases hname
  | cons entry rest ih =>
    obtain ⟨key, old⟩ := entry
    by_cases hkey : key = name
    · subst hkey
      simp [Entries.insert, hne]
    · have hrest : Entries.contains rest name = true := by
        simpa [Entries.contains, Entries.get?, hkey] using hname
      by_cases hother : key = other
      · subst hother
        simp [Entries.insert, hkey]
      · simp [Entries.insert, hkey, hother, ih hrest]

namespace Action

open Value

variable {shaping : Shaping} {location : Location} {strict : Bool} {rest : List Segment}
  {segment : Segment} {step other : Step} {container new : Value}

/-! ## Putting -/

/-- A child that is there is replaced before or after another one is put. -/
theorem put_comm_of_present (shaping : Shaping) (location : Location)
    (hpresent : (container.child? step).isSome = true) (hother : container.Takes other)
    (hne : step ≠ other) (first second : Value) :
    put shaping location other second (put shaping location step first container) =
      put shaping location step first (put shaping location other second container) := by
  cases container with
  | map entries =>
    cases step with
    | index position => cases hpresent
    | key name =>
      cases other with
      | index position => exact hother.elim
      | key key =>
        simp only [put_map]
        exact congrArg Value.map
          (Entries.insert_comm_of_contains (fun hsame => hne (congrArg Step.key hsame)) hpresent
            _ _)
  | record aggregate =>
    cases step with
    | index position => cases hpresent
    | key name =>
      cases other with
      | index position => exact hother.elim
      | key key =>
        simp only [put_record]
        exact congrArg Value.record
          (Record.setValue_comm (fun hsame => hne (congrArg Step.key hsame)) aggregate _ _)
  | list sequence =>
    cases step with
    | key name => cases hpresent
    | index position =>
      cases other with
      | key key => exact hother.elim
      | index index =>
        simp only [put_list]
        exact congrArg Value.list
          (set_padTo_comm shaping location (fun hsame => hne (congrArg Step.index hsame)) _ _ _)
  | _ => exact hother.elim

/-- What is found where a step leads, once room has been made there. -/
def slot (shaping : Shaping) (location : Location) (step : Step) (container : Value) : Value :=
  ((makeRoom shaping location step container).child? step).getD .null

theorem child?_makeRoom (shaping : Shaping) (location : Location) (htakes : container.Takes step) :
    (makeRoom shaping location step container).child? step =
      some (slot shaping location step container) := by
  obtain ⟨old, hold⟩ := exists_child?_makeRoom shaping location htakes
  rw [slot, hold]
  rfl

theorem slot_put (shaping : Shaping) (location : Location) (htakes : container.Takes step)
    (child : Value) :
    slot shaping location step (put shaping location step child container) = child := by
  rw [slot, child?_makeRoom_of_present (child?_put shaping location htakes child)]
  rfl

theorem slot_put_of_ne (shaping : Shaping) (location : Location) (htakes : container.Takes step)
    (hother : container.Takes other) (hne : step ≠ other) (child : Value) :
    slot shaping location other (put shaping location step child container) =
      slot shaping location other container := by
  rw [slot, child?_makeRoom_put shaping location htakes hother hne, slot]

/-- Where an entry has to be added, null is found. -/
theorem slot_of_addsEntry (hadds : addsEntry step container = true) :
    slot shaping location step container = .null := by
  cases container with
  | map entries =>
    cases step with
    | index position => cases hadds
    | key name =>
      have hnone : Entries.get? entries name = none := by
        simpa [addsEntry, Entries.contains] using hadds
      rw [slot, child?_makeRoom_map, hnone]
      rfl
  | _ => cases hadds

/-- Whether a field may be written is unchanged when a child is put. -/
theorem isReadOnly_put (htakes : container.Takes step) (child : Value) (other : Step) :
    (put shaping location step child container).isReadOnly other = container.isReadOnly other := by
  cases htakes using Takes.casesOn with
  | entry entries name =>
    rw [put_map]
    rfl
  | field aggregate name _ =>
    cases other with
    | index position => rfl
    | key key =>
      rw [put_record, isReadOnly, isReadOnly, Record.field?_setValue]
      split
      · rename_i hsame
        subst hsame
        cases aggregate.field? key <;> rfl
      · rfl
  | element sequence position _ => rfl

/-- Whether another entry has to be added is unchanged when a child is put, and the entry of the
child need not be added again. -/
theorem addsEntry_put (htakes : container.Takes step) (child : Value) (other : Step) :
    addsEntry other (put shaping location step child container) =
      (decide (other ≠ step) && addsEntry other container) := by
  cases htakes using Takes.casesOn with
  | entry entries name =>
    cases other with
    | index position => simp [put_map, addsEntry]
    | key key =>
      rw [put_map, addsEntry, addsEntry, Entries.contains, Entries.get?_insert]
      by_cases hsame : name = key
      · simp [hsame]
      · simp [hsame, Ne.symm hsame, Entries.contains]
  | field aggregate name _ => cases other <;> simp [put_record, addsEntry]
  | element sequence position _ => cases other <;> simp [put_list, addsEntry]

/-! ## What is left of a value -/

/-- Room for a child is made in a value that is there. -/
theorem isAbsent_makeRoom (shaping : Shaping) (location : Location) (step : Step)
    (container : Value) :
    (makeRoom shaping location step container).isAbsent = container.isAbsent := by
  cases container with
  | map entries =>
    cases step with
    | index position => rfl
    | key name =>
      rw [makeRoom]
      split <;> rfl
  | list sequence => cases step <;> rfl
  | _ => rfl

/-- A child is replaced in a value that is there. -/
theorem isAbsent_setChild (step : Step) (container child : Value) :
    (container.setChild step child).isAbsent = container.isAbsent := by
  cases container with
  | map entries =>
    cases step with
    | index position => rfl
    | key name =>
      rw [setChild]
      split <;> rfl
  | record aggregate => cases step <;> rfl
  | list sequence => cases step <;> rfl
  | _ => rfl

/-- An entry is taken back from a value that is there. -/
theorem isAbsent_takeBack (step : Step) (container : Value) :
    (takeBack step container).isAbsent = container.isAbsent := by
  cases container with
  | map entries =>
    cases step with
    | index position => rfl
    | key name =>
      rw [takeBack]
      split
      · split <;> rfl
      · rfl
  | _ => rfl

/-- A child is edited in a value that is there. -/
theorem isAbsent_editChild (shaping : Shaping) (location : Location)
    (edit : Location → Value → Edit) (step : Step) (container : Value) :
    (editChild (some shaping) location edit step container).value.isAbsent =
      container.isAbsent := by
  have hroomy := isAbsent_makeRoom shaping location step container
  rw [editChild]
  dsimp only
  split
  · exact hroomy
  · dsimp only
    split
    · rw [isAbsent_takeBack, isAbsent_setChild, hroomy]
    · rw [isAbsent_setChild, hroomy]

/-- A child is written in a value that is there. -/
theorem isAbsent_assignMember (shaping : Shaping) (new : Value) (location : Location)
    (strict : Bool) (step : Step) (container : Value) :
    (assignMember shaping new location strict step container).value.isAbsent =
      container.isAbsent := by
  cases container with
  | map entries => cases step <;> rfl
  | record aggregate =>
    cases step with
    | index position => rfl
    | key name =>
      rw [assignMember]
      split
      · rfl
      · split
        · rfl
        · split <;> rfl
  | list sequence =>
    cases step with
    | key name => rfl
    | index position =>
      rw [assignMember]
      split <;> rfl
  | _ => cases step <;> rfl

/-- What is left where an assignment went on is absent exactly if what it went on from is, once a
container has been made. -/
theorem isAbsent_descend_assign_eq (hsegment : segment ≠ .root) (new : Value) (strict : Bool)
    (rest : List Segment) (location : Location) (value : Value) :
    (descend (assign shaping new) none false strict true (segment :: rest) location
      value).value.isAbsent = (vivify shaping location segment value).isAbsent := by
  rw [descend_assign_segment hsegment, Edit.atTarget_eq]
  generalize vivify shaping location segment value = made
  have hmember (strict : Bool) (step : Step) (target : Value) :
      (assignChild shaping new location strict rest step target).value.isAbsent =
        target.isAbsent := by
    rw [assignChild]
    split
    · exact isAbsent_assignMember ..
    · exact isAbsent_editChild ..
  have htarget : ∀ edited : Value, edited.isAbsent = made.target.isAbsent →
      (made.mapTarget fun _ => edited).isAbsent = made.isAbsent := by
    intro edited hedited
    cases made with
    | ref referent => rfl
    | _ => exact hedited
  apply htarget
  split
  · rfl
  · let kept (current : Value) : Prop := current.isAbsent = made.target.isAbsent
    have hstart : kept made.target := rfl
    exact Edit.sequence_preserves (fun step _ current hcurrent =>
      (hmember _ step current).trans hcurrent) hstart {}

/-! ## Steps of an assignment -/

/-- An assignment leaves a container as it is at a field that may not be written, and where it would
add an entry for something absent. -/
def Abstains (shaping : Shaping) (location : Location) : List Segment → Step → Value → Prop
  | [], step, container => container.isReadOnly step = true
  | segment :: _, step, container => addsEntry step container = true ∧
      (shaping.containerAt (location.child step) segment).isAbsent = true

/-- The step has been taken: there is a child, or the container stays as it is. -/
def Settled (shaping : Shaping) (location : Location) (rest : List Segment) (step : Step)
    (container : Value) : Prop :=
  Abstains shaping location rest step container ∨ (container.child? step).isSome = true

/-- Putting a child elsewhere does not change where a container stays as it is. -/
theorem abstains_put_iff (htakes : container.Takes step) (hne : step ≠ other) (child : Value) :
    Abstains shaping location rest other (put shaping location step child container) ↔
      Abstains shaping location rest other container := by
  cases rest with
  | nil => rw [Abstains, isReadOnly_put htakes, Abstains]
  | cons segment later =>
    rw [Abstains, addsEntry_put htakes, decide_eq_true hne.symm, Bool.true_and, Abstains]

/-- Where a child has been put that the container did not stay without, it does not stay as it is.
-/
theorem not_abstains_put (htakes : container.Takes step)
    (hmoves : ¬Abstains shaping location rest step container) (child : Value) :
    ¬Abstains shaping location rest step (put shaping location step child container) := by
  cases rest with
  | nil => rwa [Abstains, isReadOnly_put htakes]
  | cons segment later =>
    rw [Abstains, addsEntry_put htakes]
    simp

/-- Steps that have been taken stay taken when a child is put. -/
theorem settled_put (htakes : container.Takes step) (child : Value)
    (hsettled : Settled shaping location rest other container) :
    Settled shaping location rest other (put shaping location step child container) := by
  by_cases hne : step = other
  · subst hne
    exact .inr (by rw [child?_put shaping location htakes]; rfl)
  · rcases hsettled with habstains | hpresent
    · exact .inl ((abstains_put_iff htakes hne child).mpr habstains)
    · obtain ⟨present, hpresent⟩ := Option.isSome_iff_exists.mp hpresent
      refine .inr ?_
      rw [put, child?_setChild_of_ne (Ne.symm hne), child?_makeRoom_of_present hpresent]
      rfl

/-- What an assignment makes of the child that a step leads to. -/
def assignSlot (shaping : Shaping) (location : Location) (strict : Bool) (rest : List Segment)
    (new : Value) (step : Step) (container : Value) : Edit :=
  descend (assign shaping new) none false strict true rest (location.child step)
    (slot shaping location step container)

/-- A step of an assignment that abstains changes nothing. -/
theorem value_assignChild_of_abstains (hroot : .root ∉ rest) (htakes : container.Takes step)
    (habstains : Abstains shaping location rest step container) :
    (assignChild shaping new location strict rest step container).value = container := by
  rw [assignChild]
  cases rest with
  | nil => exact value_assignMember_of_readOnly habstains
  | cons segment later =>
    obtain ⟨hadds, habsent⟩ := habstains
    have hsegment : segment ≠ .root := (List.ne_of_not_mem_cons hroot).symm
    rw [if_neg (by simp), editChild_creating (child?_makeRoom shaping location htakes),
      isAbsent_descend_assign_eq hsegment, slot_of_addsEntry hadds, hadds]
    exact if_pos habsent

/-- A step of an assignment that does not abstain puts what becomes of the child. -/
theorem assignChild_of_not_abstains (hroot : .root ∉ rest) (htakes : container.Takes step)
    (hmoves : ¬Abstains shaping location rest step container) :
    assignChild shaping new location strict rest step container =
      { value := put shaping location step
          (assignSlot shaping location strict rest new step container).value container
        result := (assignSlot shaping location strict rest new step container).result } := by
  have hslot := child?_makeRoom shaping location htakes
  rw [assignChild]
  cases rest with
  | nil =>
    have hwritable : container.isReadOnly step = false := by simpa [Abstains] using hmoves
    exact assignMember_eq_put strict new htakes hwritable hslot
  | cons segment later =>
    have hsegment : segment ≠ .root := (List.ne_of_not_mem_cons hroot).symm
    rw [if_neg (by simp), editChild_creating hslot, assignSlot]
    cases hadds : addsEntry step container with
    | false => rw [Bool.false_and]; rfl
    | true =>
      have hpresent : (shaping.containerAt (location.child step) segment).isAbsent = false := by
        simpa [Abstains, hadds] using hmoves
      rw [isAbsent_descend_assign_eq hsegment, slot_of_addsEntry hadds]
      rw [show (vivify shaping (location.child step) segment .null).isAbsent = false from hpresent]
      rfl

/-- What a step of an assignment has done, if it succeeds: nothing at a field that may not be
written, and otherwise what the assignment does to the child. -/
theorem done_assignChild (hroot : .root ∉ rest) (htakes : container.Takes step) :
    (assignChild shaping new location strict rest step container).result.toOption =
      if rest.isEmpty && container.isReadOnly step then
        if strict then none else some .untouched
      else (assignSlot shaping location strict rest new step container).result.toOption := by
  by_cases hmoves : Abstains shaping location rest step container
  · cases rest with
    | nil =>
      have hreadOnly : container.isReadOnly step = true := hmoves
      simp only [assignChild, List.isEmpty_nil, Bool.true_and, hreadOnly, if_true]
      cases htakes using Takes.casesOn with
      | field aggregate name _ =>
        cases hfield : aggregate.field? name with
        | none => simp [Abstains, isReadOnly, hfield] at hmoves
        | some field =>
          have hfixed : field.mutable = false := by
            simpa [Abstains, isReadOnly, hfield] using hmoves
          simp only [assignMember, hfield, hfixed, Bool.false_eq_true, if_false]
          split <;> rfl
      | _ => cases hmoves
    | cons segment later =>
      rw [if_neg (by simp), assignChild, if_neg (by simp),
        editChild_creating (child?_makeRoom shaping location htakes)]
      rfl
  · have hwrites : ¬(rest.isEmpty && container.isReadOnly step) = true := by
      cases rest with
      | nil => exact hmoves
      | cons segment later => simp
    rw [assignChild_of_not_abstains hroot htakes hmoves, if_neg hwrites]

/-! ## Laws of the steps -/

theorem takes_assignChild (hroot : .root ∉ rest) (htakes : container.Takes step)
    (hother : container.Takes other) :
    (assignChild shaping new location strict rest step container).value.Takes other := by
  by_cases habstains : Abstains shaping location rest step container
  · rwa [value_assignChild_of_abstains hroot htakes habstains]
  · rw [assignChild_of_not_abstains hroot htakes habstains]
    exact takes_put htakes _ hother

/-- What a step does is the same after a step to another child. -/
theorem done_assignChild_of_ne {first second : Value} (hroot : .root ∉ rest)
    (htakes : container.Takes step) (hother : container.Takes other) (hne : step ≠ other) :
    (assignChild shaping second location strict rest other
      (assignChild shaping first location strict rest step container).value).result.toOption =
      (assignChild shaping second location strict rest other container).result.toOption := by
  by_cases habstains : Abstains shaping location rest step container
  · rw [value_assignChild_of_abstains hroot htakes habstains]
  · rw [assignChild_of_not_abstains hroot htakes habstains,
      done_assignChild hroot (takes_put htakes _ hother), done_assignChild hroot hother,
      isReadOnly_put htakes, assignSlot, slot_put_of_ne shaping location htakes hother hne,
      assignSlot]

theorem settled_assignChild_self (hroot : .root ∉ rest) (htakes : container.Takes step) :
    Settled shaping location rest step
      (assignChild shaping new location strict rest step container).value := by
  by_cases habstains : Abstains shaping location rest step container
  · rw [value_assignChild_of_abstains hroot htakes habstains]
    exact .inl habstains
  · rw [assignChild_of_not_abstains hroot htakes habstains]
    exact .inr (by rw [child?_put shaping location htakes]; rfl)

theorem settled_assignChild (hroot : .root ∉ rest) (htakes : container.Takes step)
    (hsettled : Settled shaping location rest other container) :
    Settled shaping location rest other
      (assignChild shaping new location strict rest step container).value := by
  by_cases habstains : Abstains shaping location rest step container
  · rwa [value_assignChild_of_abstains hroot htakes habstains]
  · rw [assignChild_of_not_abstains hroot htakes habstains]
    exact settled_put htakes _ hsettled

/-- A settled step is taken before or after a step to another child. -/
theorem value_assignChild_comm (location : Location) (strict : Bool) (first second : Value)
    (hroot : .root ∉ rest) (htakes : container.Takes step) (hother : container.Takes other)
    (hne : step ≠ other)
    (hsettled : Settled shaping location rest step container) :
    (assignChild shaping second location strict rest other
      (assignChild shaping first location strict rest step container).value).value =
      (assignChild shaping first location strict rest step
        (assignChild shaping second location strict rest other container).value).value := by
  by_cases hstep : Abstains shaping location rest step container
  · rw [value_assignChild_of_abstains hroot htakes hstep]
    by_cases hmore : Abstains shaping location rest other container
    · rw [value_assignChild_of_abstains hroot hother hmore,
        value_assignChild_of_abstains hroot htakes hstep]
    · rw [assignChild_of_not_abstains hroot hother hmore,
        value_assignChild_of_abstains hroot (takes_put hother _ htakes)
          ((abstains_put_iff hother hne.symm _).mpr hstep)]
  · have hpresent := hsettled.resolve_left hstep
    rw [assignChild_of_not_abstains hroot htakes hstep]
    by_cases hmore : Abstains shaping location rest other container
    · rw [value_assignChild_of_abstains hroot (takes_put htakes _ hother)
          ((abstains_put_iff htakes hne _).mpr hmore),
        value_assignChild_of_abstains hroot hother hmore,
        assignChild_of_not_abstains hroot htakes hstep]
    · rw [assignChild_of_not_abstains hroot (takes_put htakes _ hother)
          (fun habstains => hmore ((abstains_put_iff htakes hne _).mp habstains)),
        assignChild_of_not_abstains hroot hother hmore,
        assignChild_of_not_abstains hroot (takes_put hother _ htakes)
          (fun habstains => hstep ((abstains_put_iff hother hne.symm _).mp habstains))]
      simp only [assignSlot, slot_put_of_ne shaping location htakes hother hne,
        slot_put_of_ne shaping location hother htakes hne.symm]
      exact put_comm_of_present shaping location hpresent hother hne _ _

end Action

end NestedData
