import NestedData.Proofs.Access.Obstacles
import NestedData.Proofs.Access.Room
import NestedData.Proofs.Access.Searching
import NestedData.Proofs.Access.Sparing
import NestedData.Proofs.Path.Canonical

/-!
# Assignments that write nothing

An assignment that fails on its only way, or that selects nothing, has written nothing, but
it may have made room on the way.  This module follows such an assignment: step by step it
leaves the value as it is if there is room, and otherwise leaves more in it than before.

Main results:

- `Action.editChild_madeRoom`, `Action.descend_madeRoom`, `Action.search_madeRoom`: what an
  assignment that writes nothing does on its way.
- `Value.setAt_unchanged_iff`: such an assignment changes nothing exactly if there is room.
-/

namespace NestedData

namespace Action

open Value

variable {shaping : Shaping} {shaping? : Option Shaping} {new value container child : Value}
  {location : Location} {step : Step} {steps : List Step} {segment : Segment}
  {searching strict single : Bool} {before : Tally}

/-! ## Edits that write nothing -/

/-- Nothing has been written, as far as the outcome tells: nothing was selected, or there was
a fault on the only way. -/
def Idle (single : Bool) : Except AccessError Tally → Prop
  | .ok tally => tally.matched = false
  | .error _ => single = true

/-- What has been selected before a sequence has been selected afterwards. -/
theorem matched_of_sequence {α : Type} {things : List α} {edit : α → Value → Edit} {tally : Tally}
    (hok : (Edit.sequence things edit before value).result = .ok tally)
    (hmatched : before.matched = true) : tally.matched = true := by
  induction things generalizing before value with
  | nil => exact Except.ok.inj hok ▸ hmatched
  | cons thing rest ih =>
    obtain ⟨done, _, hsequence⟩ := Edit.sequence_cons_ok hok
    rw [hsequence] at hok
    exact ih hok (by simp [Tally.add, hmatched])

/-- A sequence that has written nothing began when nothing had been written. -/
theorem Idle.begins {α : Type} {things : List α} {edit : α → Value → Edit}
    (hidle : Idle single (Edit.sequence things edit before value).result)
    (hthings : single = true → things = []) : before.matched = false := by
  cases hresult : (Edit.sequence things edit before value).result with
  | error error =>
    rw [hresult] at hidle
    rw [hthings hidle] at hresult
    cases hresult
  | ok tally =>
    rw [hresult] at hidle
    cases hmatched : before.matched with
    | false => rfl
    | true =>
      have hafter := matched_of_sequence hresult hmatched
      exact absurd hafter (by simp [show tally.matched = false from hidle])

/-- A sequence that has written nothing consists of edits that have written nothing. -/
theorem sequence_madeRoom {room : Value → Step → Prop} {edit : Step → Value → Edit}
    (hedit : ∀ step current, current.WellFormed → Idle single (edit step current).result →
      MadeRoom (room current step) current (edit step current).value)
    (hsteps : single = true → steps.length ≤ 1) (hcontainer : container.WellFormed)
    (hidle : Idle single (Edit.sequence steps edit before container).result) :
    MadeRoom (∀ step ∈ steps, room container step) container
      (Edit.sequence steps edit before container).value := by
  induction steps generalizing container before with
  | nil => exact .keep hcontainer (by simp)
  | cons step rest ih =>
    have hrest (hsingle : single = true) : rest = [] := by
      have hlength := hsteps hsingle
      rw [List.length_cons] at hlength
      exact List.length_eq_zero_iff.mp (by omega)
    rw [List.forall_mem_cons]
    rw [Edit.sequence_cons] at hidle ⊢
    cases hresult : (edit step container).result with
    | error error =>
      -- A fault writes nothing on a single way only, and no step is left on that.
      rw [hresult] at hidle
      have hfirst := hedit step container hcontainer (by rw [hresult]; exact hidle)
      exact hfirst.congr (by simp [hrest hidle])
    | ok done =>
      rw [hresult] at hidle
      dsimp only at hidle ⊢
      have hbegins := hidle.begins hrest
      rw [Tally.add, Bool.or_eq_false_iff] at hbegins
      have hfirst := hedit step container hcontainer (by rw [hresult]; exact hbegins.2)
      have hlater := ih (fun hsingle => by rw [hrest hsingle]; exact Nat.zero_le _)
        hfirst.wellFormed hidle
      exact hfirst.trans hlater fun hsame => by rw [hsame]

/-! ## One container -/

/-- Writing a child is something; a field that may not be written is a fault and stays. -/
theorem assignMember_idle (hidle : Idle single
      (assignMember shaping new location strict step container).result) :
    (assignMember shaping new location strict step container).value = container := by
  cases container with
  | map entries => cases step <;> cases hidle
  | list sequence =>
    cases step with
    | key name => cases hidle
    | index position =>
      simp only [assignMember] at hidle
      split at hidle <;> cases hidle
  | record aggregate =>
    cases step with
    | index position => cases hidle
    | key name =>
      cases hreadOnly : isReadOnly (.record aggregate) (.key name) with
      | true => exact value_assignMember_of_readOnly hreadOnly
      | false =>
        simp only [isReadOnly] at hreadOnly
        cases hfield : aggregate.field? name with
        | none =>
          simp only [assignMember, hfield] at hidle
          cases hidle
        | some field =>
          have hmutable : field.mutable = true := by simpa [hfield] using hreadOnly
          simp only [assignMember, hfield, hmutable] at hidle
          cases hidle
  | _ => cases hidle

/-- If nothing has been written, the children selected at the end of a path are none, or one
that may not be written. -/
theorem sequence_assignMember_idle (hcontainer : container.WellFormed)
    (hsteps : single = true → steps.length ≤ 1)
    (hidle : Idle single (Edit.sequence steps (assignMember shaping new location strict) before
      container).result) :
    (Edit.sequence steps (assignMember shaping new location strict) before container).value =
      container := by
  have hmade : MadeRoom (∀ step ∈ steps, True) container _ :=
    sequence_madeRoom (fun step current hcurrent hidle => by
      rw [assignMember_idle hidle]
      exact .keep hcurrent trivial) hsteps hcontainer hidle
  rcases hmade.exact with ⟨_, hsame⟩ | ⟨hroom, _⟩
  · exact hsame
  · exact absurd (fun _ _ => trivial) hroom

theorem hasRoom_of_present {create : Bool} {follow : Value → Prop}
    (hchild : container.child? step = some child) :
    HasRoom create follow container step ↔ follow child := by
  simp only [HasRoom, hchild]

/-- Going on to a child that is there replaces it. -/
theorem editChild_of_present {edit : Location → Value → Edit}
    (hchild : container.child? step = some child) :
    editChild shaping? location edit step container =
      { value := container.setChild step (edit (location.child step) child).value
        result := (edit (location.child step) child).result } := by
  cases shaping? with
  | none => simp [editChild, hchild]
  | some shaping =>
    have hadded : addsEntry step container = false := by
      cases container with
      | map entries =>
        cases step with
        | index position => rfl
        | key name =>
          have hvalue : Entries.get? entries name = some child := hchild
          simp [addsEntry, Entries.contains, hvalue]
      | _ => rfl
    have hroomy : makeRoom shaping location step container = container :=
      makeRoom_of_present (by rw [hchild]; rfl)
    rw [editChild_creating (by rwa [hroomy]), hadded, Bool.false_and,
      if_neg Bool.false_ne_true, put, hroomy]

section Following

variable {follow : Value → Prop} {edit : Location → Value → Edit}

/-- An entry that is added to a map stays if something has become of it. -/
theorem editChild_madeRoom_map {entries : Entries Value} {name : String}
    (hedit : ∀ location child, child.WellFormed → Idle single (edit location child).result →
      MadeRoom (follow child) child (edit location child).value)
    (hentries : (Value.map entries).WellFormed)
    (hmissing : Entries.contains entries name = false)
    (hidle : Idle single (editChild (some shaping) location edit (.key name)
      (.map entries)).result) :
    MadeRoom (follow .null) (.map entries)
      (editChild (some shaping) location edit (.key name) (.map entries)).value := by
  have hroomy : makeRoom shaping location (.key name) (.map entries) =
      .map (Entries.insert entries name .null) := by
    rw [makeRoom, hmissing, if_neg Bool.false_ne_true]
  have hnull : (Value.map (Entries.insert entries name .null)).child? (.key name) =
      some .null := by
    rw [child?, Entries.get?_insert, if_pos rfl]
  have hadded : addsEntry (.key name) (.map entries) = true := by simp [addsEntry, hmissing]
  rw [editChild_creating (by rwa [hroomy]), hadded, Bool.true_and] at hidle ⊢
  have hmade := hedit _ _ .null hidle
  generalize (edit (location.child (.key name)) .null).value = next at hmade
  dsimp only
  cases habsent : next.isAbsent with
  | true =>
    rw [if_pos rfl]
    have hleft : next.bulk = 1 := by
      apply bulk_of_absent
      cases next <;> first | exact habsent | cases habsent
    rcases hmade.exact with ⟨hroom, _⟩ | ⟨_, hmore⟩
    · exact .keep hentries hroom
    · have hpos := Value.null.bulk_pos
      omega
  | false =>
    -- The entry stays, so at least what became of it is more than before.
    rw [if_neg Bool.false_ne_true, put, hroomy]
    have hinserted := bulk_insert hmissing .null
    have hset := bulk_setChild hnull next
    have hafter := (hentries.insert .null name).setChild hmade.wellFormed (.key name)
    rcases hmade.exact with ⟨_, rfl⟩ | ⟨hroom, hmore⟩
    · cases habsent
    · exact .grown hafter hroom (by omega)

/-- A list that is padded stays so. -/
theorem editChild_madeRoom_list (hshaping : shaping.Sound) {sequence : Sequence Value}
    {position : Nat}
    (hedit : ∀ location child, child.WellFormed → Idle single (edit location child).result →
      MadeRoom (follow child) child (edit location child).value)
    (hsequence : (Value.list sequence).WellFormed) (hgrows : sequence.canGrow = true)
    (hmissing : sequence.size ≤ position)
    (hidle : Idle single (editChild (some shaping) location edit (.index position)
      (.list sequence)).result) :
    MadeRoom False (.list sequence)
      (editChild (some shaping) location edit (.index position) (.list sequence)).value := by
  have hroomy := hsequence.makeRoom hshaping.zero location (.index position)
  have hpadded : (Value.list sequence).bulk <
      (makeRoom shaping location (.index position) (.list sequence)).bulk := by
    rw [makeRoom, padTo, if_pos hgrows]
    exact bulk_pad (by omega) _
  obtain ⟨old, hold⟩ : ∃ old, (makeRoom shaping location (.index position)
      (.list sequence)).child? (.index position) = some old := by
    rw [← Option.isSome_iff_exists, makeRoom, isSome_child?_index, size_padTo, if_pos hgrows]
    omega
  have hadded : addsEntry (.index position) (.list sequence) = false := rfl
  rw [editChild_creating hold, hadded, Bool.false_and, if_neg Bool.false_ne_true, put] at hidle ⊢
  have hmade := hedit _ old (hroomy.child hold) hidle
  have hmore := hmade.bulk_le
  have hset := bulk_setChild hold (edit (location.child (.index position)) old).value
  exact .grown (hroomy.setChild hmade.wellFormed (.index position)) id (by dsimp only; omega)

/-- Going on to a child that has to be created leaves the container as it is if there is room,
and otherwise makes it larger. -/
theorem editChild_madeRoom_new (hshaping : shaping.Sound)
    (hedit : ∀ location child, child.WellFormed → Idle single (edit location child).result →
      MadeRoom (follow child) child (edit location child).value)
    (hcontainer : container.WellFormed) (hmissing : container.child? step = none)
    (hidle : Idle single (editChild (some shaping) location edit step container).result) :
    MadeRoom (HasRoomForNew follow container step) container
      (editChild (some shaping) location edit step container).value := by
  have hstays (hroomy : makeRoom shaping location step container = container)
      (hroom : HasRoomForNew follow container step) :
      MadeRoom (HasRoomForNew follow container step) container
        (editChild (some shaping) location edit step container).value := by
    simp only [editChild, hroomy, hmissing]
    exact .keep hcontainer hroom
  cases container with
  | map entries =>
    cases step with
    | index position => exact hstays rfl trivial
    | key name =>
      have habsent : Entries.contains entries name = false := by
        rw [Entries.contains, show Entries.get? entries name = none from hmissing]
        rfl
      exact editChild_madeRoom_map hedit hcontainer habsent hidle
  | list sequence =>
    cases step with
    | key name => exact hstays rfl trivial
    | index position =>
      have hbeyond : sequence.size ≤ position := by
        rw [← Nat.not_lt, ← isSome_child?_index, hmissing]
        exact Bool.false_ne_true
      cases hgrows : sequence.canGrow with
      | false =>
        apply hstays _ hgrows
        rw [makeRoom, padTo, hgrows, if_neg Bool.false_ne_true]
      | true =>
        refine (editChild_madeRoom_list hshaping hedit hcontainer hgrows hbeyond hidle).congr ?_
        simp [HasRoomForNew, hgrows]
  | record aggregate => exact hstays rfl trivial
  | _ => exact hstays rfl trivial

/-- Going on to a child leaves the container as it is if there is room, and otherwise makes it
larger. -/
theorem editChild_madeRoom (hshaping : ∀ shaping, shaping? = some shaping → shaping.Sound)
    (hedit : ∀ location child, child.WellFormed → Idle single (edit location child).result →
      MadeRoom (follow child) child (edit location child).value)
    (hcontainer : container.WellFormed)
    (hidle : Idle single (editChild shaping? location edit step container).result) :
    MadeRoom (HasRoom shaping?.isSome follow container step) container
      (editChild shaping? location edit step container).value := by
  cases hchild : container.child? step with
  | some child =>
    rw [editChild_of_present hchild] at hidle ⊢
    have hmade := hedit _ child (hcontainer.child hchild) hidle
    exact (hmade.setChild hcontainer hchild).congr (hasRoom_of_present hchild).symm
  | none =>
    simp only [HasRoom, hchild]
    cases shaping? with
    | none =>
      simp only [editChild, hchild]
      exact .keep hcontainer (by simp)
    | some shaping =>
      have hmade := editChild_madeRoom_new (hshaping shaping rfl) hedit hcontainer hchild hidle
      exact hmade.congr (by simp)

end Following

/-! ## Groups and searches -/

/-- Where there is room for a segment and what follows it. -/
theorem roomAlong_segment {arrive : Option (Value → Prop)} {create : Bool} {rest : List Segment}
    (hsegment : segment ≠ .root) :
    RoomAlong arrive create (segment :: rest) value ↔
      (create = true → value.target.isAbsent = false) ∧
        ((arrive.isNone && rest.isEmpty) = true ∨
          ∀ step ∈ segment.picks create value.target,
            HasRoom create (RoomAlong arrive true rest) value.target step) := by
  cases segment with
  | root => exact absurd rfl hsegment
  | _ => rfl

section Groups

variable {arrive : Option (Location → Value → Edit)} {arriveRoom : Option (Value → Prop)}
  {rest segments : List Segment}

/-- A container that is made where nothing was is more than that. -/
theorem bulk_lt_entered (hshaping : ∀ shaping, shaping? = some shaping → shaping.Sound)
    (hcreate : shaping?.isSome = true) (habsent : value.target.isAbsent = true)
    (location : Location) (segment : Segment) :
    value.bulk < (entered shaping? location segment value).target.bulk := by
  obtain ⟨shaping, rfl⟩ := Option.isSome_iff_exists.mp hcreate
  have hcontainer := (hshaping shaping rfl).container location segment
  rw [bulk_of_absent habsent]
  apply bulk_of_present
  rw [target_target, entered, target_vivify habsent, target_of_isContainer hcontainer]
  exact isAbsent_of_isContainer hcontainer

/-- A segment that writes nothing leaves the container as it is if there is room. -/
theorem onward_madeRoom (hshaping : ∀ shaping, shaping? = some shaping → shaping.Sound)
    (hsame : arriveRoom.isNone = arrive.isNone)
    (hsingle : single = true → segment.isMultiValued = false)
    (hrest : ∀ strict location child, child.WellFormed →
      Idle single (descend (assign shaping new) arrive false strict true rest location
        child).result →
      MadeRoom (RoomAlong arriveRoom true rest child) child
        (descend (assign shaping new) arrive false strict true rest location child).value)
    (hcontainer : container.WellFormed)
    (hidle : Idle single (onward (assign shaping new) arrive searching strict shaping? segment rest
      location container).result) :
    MadeRoom ((arriveRoom.isNone && rest.isEmpty) = true ∨
        ∀ step ∈ segment.picks shaping?.isSome container,
          HasRoom shaping?.isSome (RoomAlong arriveRoom true rest) container step) container
      (onward (assign shaping new) arrive searching strict shaping? segment rest location
        container).value := by
  have hpicks := segment.picks_eq
    { operation := (assign shaping new).operation, location, strict, create := shaping?.isSome,
      searching } container
  have hlength (honly : single = true) : (segment.picks shaping?.isSome container).length ≤ 1 :=
    Segment.length_picks_le (hsingle honly) _ _
  rcases (onward_cases : (∃ error, _ ∧ onward (assign shaping new) arrive searching strict shaping?
      segment rest location container = .fail container error) ∨ _) with
    ⟨error, hselect, hfails⟩ | ⟨steps, hselect, ⟨harrive, hend, hlast⟩ | ⟨hmore, hgoes⟩⟩
  · rw [hselect] at hpicks
    have hnothing : segment.picks shaping?.isSome container = [] := hpicks
    rw [hfails, hnothing]
    exact .keep hcontainer (.inr (by simp))
  · rw [hselect] at hpicks
    obtain rfl : segment.picks shaping?.isSome container = steps := hpicks
    rw [hlast] at hidle ⊢
    have hstays : ((assign shaping new).member location (strict && !segment.isMultiValued)
        (segment.picks shaping?.isSome container) container).value = container :=
      sequence_assignMember_idle hcontainer hlength hidle
    rw [hstays]
    exact .keep hcontainer (.inl (by rw [hsame, harrive, hend]; rfl))
  · rw [hselect] at hpicks
    obtain rfl : segment.picks shaping?.isSome container = steps := hpicks
    rw [hgoes] at hidle ⊢
    have hmade := sequence_madeRoom (fun step current hcurrent hidle =>
      editChild_madeRoom hshaping (hrest _) hcurrent hidle) hlength hcontainer hidle
    exact hmade.congr (by simp [hsame, hmore])

/-- A group that writes nothing leaves the value as it is if there is room. -/
theorem descend_madeRoom (hshaping : shaping.Sound)
    (hsame : arriveRoom.isNone = arrive.isNone)
    (harrive : ∀ edit room, arrive = some edit → arriveRoom = some room → ∀ location value,
      value.WellFormed → Idle single (edit location value).result →
      MadeRoom (room value) value (edit location value).value)
    (hsingle : single = true → ∀ segment ∈ segments, segment.isMultiValued = false)
    (create : Bool) (hvalue : value.WellFormed)
    (hidle : Idle single (descend (assign shaping new) arrive searching strict create segments
      location value).result) :
    MadeRoom (RoomAlong arriveRoom create segments value) value
      (descend (assign shaping new) arrive searching strict create segments location
        value).value := by
  induction segments generalizing searching strict create location value with
  | nil =>
    cases arrive with
    | none => cases hidle
    | some edit =>
      cases arriveRoom with
      | none => cases hsame
      | some room => exact harrive edit room rfl rfl location value hvalue hidle
  | cons segment rest ih =>
    have hrest : single = true → ∀ other ∈ rest, other.isMultiValued = false :=
      fun honly other hother => hsingle honly other (List.mem_cons_of_mem _ hother)
    by_cases hsegment : segment = .root
    · subst hsegment
      exact ih hrest create hvalue hidle
    · refine MadeRoom.congr ?_ (roomAlong_segment hsegment).symm
      rw [descend_segment hsegment, Edit.atTarget_eq] at hidle ⊢
      have hsound : ∀ given, (if create then (assign shaping new).shaping? else none) =
          some given → given.Sound := sound_given hshaping
      have hcreate : (if create then (assign shaping new).shaping? else none).isSome = create := by
        cases create <;> rfl
      generalize (if create then (assign shaping new).shaping? else none) = shaping? at *
      dsimp only at hidle ⊢
      have hextends : Extends .null value.target (entered shaping? location segment value).target :=
        extends_entered hsound location segment hvalue
      have honward := onward_madeRoom hsound hsame
        (fun honly => hsingle honly segment List.mem_cons_self)
        (fun strict location child hchild => ih hrest true hchild) hextends.wellFormed hidle
      rw [hcreate] at honward
      by_cases hstands : create = true → value.target.isAbsent = false
      · have hentered : entered shaping? location segment value = value := by
          cases shaping? with
          | none => rfl
          | some given => exact vivify_of_present (hstands hcreate.symm)
        rw [hentered] at honward ⊢
        exact honward.mapTarget.congr (and_iff_right hstands).symm
      · -- A container has been made: that alone is more than what was there.
        have hmore : value.bulk < (entered shaping? location segment value).target.bulk := by
          obtain ⟨rfl, habsent⟩ := Classical.not_imp.mp hstands
          exact bulk_lt_entered hsound hcreate (eq_true_of_ne_false habsent) location segment
        refine .grown honward.wellFormed.mapTarget (fun hroom => hstands hroom.1) ?_
        rw [bulk_mapTarget]
        exact Nat.lt_of_lt_of_le hmore honward.bulk_le

/-- Editing distinct children, which writes nothing, leaves the container as it is if there is
room in every one of them. -/
theorem sequence_setChild_madeRoom {things : List (Step × Value)} {room : Step × Value → Prop}
    (inner : Step × Value → Edit) (hsteps : (things.map Prod.fst).Nodup)
    (hthere : ∀ thing ∈ things, container.child? thing.1 = some thing.2)
    (hinner : ∀ thing ∈ things, Idle false (inner thing).result →
      MadeRoom (room thing) thing.2 (inner thing).value)
    (hcontainer : container.WellFormed) (before : Tally)
    (hidle : Idle false (Edit.sequence things (fun thing current =>
      { inner thing with value := current.setChild thing.1 (inner thing).value }) before
      container).result) :
    MadeRoom (∀ thing ∈ things, room thing) container
      (Edit.sequence things (fun thing current =>
        { inner thing with value := current.setChild thing.1 (inner thing).value }) before
        container).value := by
  induction things generalizing container before with
  | nil => exact .keep hcontainer (by simp)
  | cons thing rest ih =>
    have hrest := (List.nodup_cons.mp hsteps).2
    rw [List.forall_mem_cons]
    have hthing := hinner thing List.mem_cons_self
    rw [Edit.sequence_cons] at hidle ⊢
    dsimp only at hidle ⊢
    cases hresult : (inner thing).result with
    | error error =>
      rw [hresult] at hidle
      cases hidle
    | ok done =>
      rw [hresult] at hidle
      dsimp only at hidle ⊢
      have hbegins := hidle.begins (fun hsingle => absurd hsingle Bool.false_ne_true)
      rw [Tally.add, Bool.or_eq_false_iff] at hbegins
      have hfirst := (hthing (by rw [hresult]; exact hbegins.2)).setChild hcontainer
        (hthere thing List.mem_cons_self)
      exact hfirst.trans (ih hrest (child?_setChild_of_later hsteps hthere _)
        (fun other hother => hinner other (List.mem_cons_of_mem _ hother)) hfirst.wellFormed _
        hidle) fun _ => Iff.rfl

section Searches

variable {edit : Location → Value → Edit} {room : Value → Prop}

/-- Editing everything inside a container and then the container, which writes nothing, leaves
it as it is if there is room everywhere. -/
theorem throughoutContainer_madeRoom
    (hedit : ∀ location value, value.WellFormed → Idle false (edit location value).result →
      MadeRoom (room value) value (edit location value).value)
    (hchildren : ∀ child ∈ container.children, ∀ location,
      Idle false (throughout edit location child.2).result →
      MadeRoom (∀ place ∈ child.2.places [], room place.2) child.2
        (throughout edit location child.2).value)
    (hcontainer : container.WellFormed)
    (hidle : Idle false (throughoutContainer edit location container).result) :
    MadeRoom ((∀ child ∈ container.children, ∀ place ∈ child.2.places [], room place.2) ∧
      room container) container (throughoutContainer edit location container).value := by
  have hdistinct := hcontainer.hasDistinctSteps
  have hinside := sequence_setChild_madeRoom
    (fun child => throughout edit (location.child child.1) child.2) (nodup_steps hdistinct)
    (fun child hchild => (mem_children_iff hdistinct).mp hchild)
    (fun child hchild => hchildren child hchild _) hcontainer {}
  unfold throughoutContainer at hidle ⊢
  generalize Edit.sequence container.children _ {} container = inside at hinside hidle
  dsimp only at hidle ⊢
  cases hresult : inside.result with
  | error error =>
    rw [hresult] at hidle
    cases hidle
  | ok tally =>
    rw [hresult] at hinside hidle
    dsimp only at hidle ⊢
    cases hlast : (edit location inside.value).result with
    | error error =>
      rw [hlast] at hidle
      cases hidle
    | ok done =>
      rw [hlast] at hidle
      have hboth : tally.matched = false ∧ done.matched = false := by
        rw [← Bool.or_eq_false_iff]
        exact hidle
      have hfirst := hinside hboth.1
      have hsecond := hedit location inside.value hfirst.wellFormed (by rw [hlast]; exact hboth.2)
      exact hfirst.trans hsecond fun hsame => by rw [hsame]

/-- Editing everything inside a value, which writes nothing, leaves it as it is if there is room
at every place. -/
theorem throughout_madeRoom
    (hedit : ∀ location value, value.WellFormed → Idle false (edit location value).result →
      MadeRoom (room value) value (edit location value).value)
    (hvalue : value.WellFormed) (hidle : Idle false (throughout edit location value).result) :
    MadeRoom (∀ place ∈ value.places [], room place.2) value
      (throughout edit location value).value := by
  induction value using induct_children generalizing location with
  | hstep value ih =>
    rw [throughout_eq, Edit.atTarget_eq] at hidle ⊢
    have hmade := throughoutContainer_madeRoom hedit
      (fun child hmem location => ih child hmem (hvalue.target.of_mem_children hmem))
      hvalue.target hidle
    refine hmade.mapTarget.congr ?_
    rw [places_nil, List.forall_mem_cons, and_comm]
    simp only [List.mem_flatMap, List.mem_map, Location.below]
    refine and_congr_right fun _ => ⟨?_, ?_⟩
    · rintro hall _ ⟨child, hmem, place, hplace, rfl⟩
      exact hall child hmem place hplace
    · intro hall child hmem place hplace
      exact hall (Location.below [child.1] place) ⟨child, hmem, place, hplace, rfl⟩

end Searches

/-- Searching for groups one below the other, which writes nothing, leaves the value as it is if
there is room at every place. -/
theorem search_madeRoom (hshaping : shaping.Sound) (new : Value) (searches : List (List Segment)) :
    (RoomBelow searches).isNone = (search (assign shaping new) searches).isNone ∧
    ∀ edit room, search (assign shaping new) searches = some edit →
      RoomBelow searches = some room → ∀ location value, value.WellFormed →
      Idle false (edit location value).result →
      MadeRoom (room value) value (edit location value).value := by
  induction searches with
  | nil => exact ⟨rfl, fun edit room hedit => by cases hedit⟩
  | cons group rest ih =>
    refine ⟨rfl, ?_⟩
    rintro edit room hedit hroom location value hvalue hidle
    obtain rfl := Option.some.inj hedit
    obtain rfl := Option.some.inj hroom
    refine throughout_madeRoom (fun location value hvalue hidle => ?_) hvalue hidle
    exact descend_madeRoom hshaping ih.1 ih.2 (fun hsingle => absurd hsingle Bool.false_ne_true)
      false hvalue hidle

end Groups

/-- An assignment that writes nothing leaves the value as it is if there is room for the path. -/
theorem run_madeRoom (hshaping : shaping.Sound) {path : Path} {root after : Value}
    {error : AccessError} (hroot : root.WellFormed)
    (hrun : (assign shaping new).run path root = (after, .error error))
    (hidle : path.isMultiValued = false ∨ error.obstacle = .lack .nothingMatched) :
    MadeRoom (root.HasRoomFor path) root after := by
  obtain ⟨rfl, hresult⟩ := run_eq_error hrun
  cases hmultiple : path.isMultiValued with
  | false =>
    obtain ⟨hsearches, hsegments⟩ := Path.searches_eq_nil hmultiple
    rw [HasRoomFor]
    rw [hsearches] at hresult ⊢
    refine descend_madeRoom hshaping rfl (fun edit room hedit => by cases hedit)
      (fun _ : true = true => hsegments) true hroot ?_
    rw [search] at hresult ⊢
    rcases hresult with ⟨hfails, _⟩ | ⟨tally, hok, hnone, _⟩
    · rw [hfails]
      rfl
    · rw [hok]
      exact hnone
  | true =>
    have hunmatched := hidle.resolve_left (by simp [hmultiple])
    have hsearch := search_madeRoom hshaping new path.searches
    refine descend_madeRoom hshaping hsearch.1 hsearch.2
      (fun hsingle => absurd hsingle Bool.false_ne_true) true hroot ?_
    rcases hresult with ⟨_, hmet⟩ | ⟨tally, hok, hnone, _⟩
    · exact absurd hunmatched hmet
    · rw [hok]
      exact hnone

end Action

namespace Value

/-- An assignment that fails on its only way, or since the path selects nothing, changes nothing
exactly if there is room for the path. -/
theorem setAt_unchanged_iff {root new after : Value} {path : Path} {error : AccessError}
    (hroot : root.WellFormed) (hset : root.setAt path new .plain = (after, .error error))
    (hidle : path.isMultiValued = false ∨ error.obstacle = .lack .nothingMatched) :
    after = root ↔ root.HasRoomFor path :=
  (Action.run_madeRoom Shaping.sound_plain hroot hset hidle).unchanged_iff

/-- There is room for what is searched for below an entry that would have to be added: the
entry is taken back. -/
theorem setAt_unchanged_taken_back :
    let root : Value := .map [("a", .map [("x", .int 1)])]
    let path : Path := { first := [.root, .key "a", .key "b"], searches := [[.key "c"]] }
    let error : AccessError :=
      { operation := .set, path, value := root, obstacle := .lack .nothingMatched }
    Path.parse "$.a.b..c" = .ok path ∧
      root.setAt path (.int 5) .plain = (root, .error error) ∧ root.HasRoomFor path := by
  intro root path error
  have hroot : root.WellFormed := by
    simp [root, Entries.keys]
  have hset : root.setAt path (.int 5) .plain = (root, .error error) := by
    cbv
  exact ⟨by cbv, hset, (setAt_unchanged_iff hroot hset (.inr rfl)).mp rfl⟩

/-- The list that is made for a position beyond every length stays, and so does the map that is
made for a wildcard. -/
theorem setAt_leaves_container :
    let root : Value := .map []
    let path : Path := { first := [.root, .key "a", .index growthLimit] }
    let error : AccessError :=
      { operation := .set, path := { first := [.root, .key "a"] }, value := .ofItems #[],
        obstacle := .lack (.beyondGrowth growthLimit) }
    Path.parse "$.a[1048576]" = .ok path ∧ root.WellFormed ∧ path.isMultiValued = false ∧
      root.setAt path (.int 1) .plain = (.map [("a", .ofItems #[])], .error error) ∧
      Value.map [("a", .ofItems #[])] ≠ root := by
  intro root path error
  exact ⟨by cbv, by simp [root, Entries.keys], by cbv, by cbv, by simp [root]⟩

end Value

end NestedData
