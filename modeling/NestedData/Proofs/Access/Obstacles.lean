import NestedData.Access.Assign
import NestedData.Proofs.Access.Editing

/-!
# Faults met on the way

Following a path, an assignment meets faults of its segments and of fields that may not be
written.  That the path selects nothing is not among them: this is found out at the end, when
no fault has been met and no place either.

Main results:

- `Selection.metOnTheWay_of_select`: faults of a segment.
- `Action.descend_metOnTheWay`, `Action.search_metOnTheWay`: faults of a group and of searches.
- `Action.run_eq_error`: an assignment that fails has met a fault, or has found no place.
-/

namespace NestedData

/-- A fault other than that the path selects nothing. -/
def AccessError.MetOnTheWay (error : AccessError) : Prop :=
  error.obstacle ≠ .lack .nothingMatched

/-- An edit that may end with a fault met on the way only. -/
def Edit.MeetsFaults (edit : Edit) : Prop :=
  ∀ error, edit.result = .error error → error.MetOnTheWay

namespace Selection

variable {selection : Selection} {value : Value} {segment : Segment} {error : AccessError}

theorem obstacle_of_miss {obstacle : Obstacle}
    (hmiss : selection.miss value obstacle = .error error) :
    error.obstacle = obstacle := by
  unfold miss at hmiss
  split at hmiss
  · rw [← Except.error.inj hmiss, fault]
  · cases hmiss

/-- A segment that meets an obstacle has met it on the way. -/
theorem metOnTheWay_of_select (hselect : selection.select value segment = .error error) :
    error.MetOnTheWay := by
  have hmissed {value : Value} {obstacle : Obstacle}
      (hmiss : selection.miss value obstacle = .error error)
      (hother : obstacle ≠ .lack .nothingMatched) : error.MetOnTheWay := by
    rw [← obstacle_of_miss hmiss] at hother
    exact hother
  cases value with
  | map entries =>
    have hentry {key : String} (hentry : selection.selectEntry entries key = .error error) :
        error.MetOnTheWay := by
      unfold selectEntry at hentry
      split at hentry
      · cases hentry
      · exact hmissed hentry (by simp)
    cases segment with
    | key name => exact hentry hselect
    | index position => exact hentry hselect
    | wildcard => cases hselect
    | union selectors => cases hselect
    | slice start stop width => exact hmissed hselect (by simp)
    | root => exact hmissed hselect (by simp)
  | record aggregate =>
    cases segment with
    | key name =>
      simp only [select, selectInRecord] at hselect
      split at hselect
      · split at hselect
        · cases hselect
        · split at hselect
          · cases hselect
          · rw [← Except.error.inj hselect]
            simp [AccessError.MetOnTheWay, fault]
      · exact hmissed hselect (by simp)
    | wildcard => cases hselect
    | union selectors => cases hselect
    | index position => exact hmissed hselect (by simp)
    | slice start stop width => exact hmissed hselect (by simp)
    | root => exact hmissed hselect (by simp)
  | list sequence =>
    cases segment with
    | index position =>
      simp only [select, selectInList] at hselect
      split at hselect
      · cases hselect
      · split at hselect <;> exact hmissed hselect (by simp)
    | key name => exact hmissed hselect (by simp)
    | _ => cases hselect
  | _ => exact hmissed hselect (by simp)

end Selection

namespace Edit

variable {α : Type} {edit : Value → Edit} {before : Tally} {value : Value}

/-- A sequence meets the faults of its edits. -/
theorem MeetsFaults.sequence {things : List α} {edit : α → Value → Edit}
    (hedit : ∀ thing ∈ things, ∀ current, (edit thing current).MeetsFaults) :
    (Edit.sequence things edit before value).MeetsFaults := by
  induction things generalizing before value with
  | nil => exact fun error herror => by cases herror
  | cons thing rest ih =>
    rw [sequence_cons]
    cases hresult : (edit thing value).result with
    | error error =>
      intro other hother
      exact hedit thing List.mem_cons_self value other (hresult.trans hother)
    | ok done => exact ih fun later hlater => hedit later (List.mem_cons_of_mem _ hlater)

end Edit

namespace Action

variable {shaping : Shaping} {shaping? : Option Shaping} {new value container : Value}
  {location : Location} {step : Step}

/-- Writing a child meets fields that may not be written. -/
theorem assignMember_metOnTheWay {strict : Bool} :
    (assignMember shaping new location strict step container).MeetsFaults := by
  intro error herror
  cases container with
  | map entries => cases step <;> cases herror
  | list sequence =>
    cases step with
    | key name => cases herror
    | index position =>
      simp only [assignMember] at herror
      split at herror <;> cases herror
  | record aggregate =>
    cases step with
    | index position => cases herror
    | key name =>
      simp only [assignMember] at herror
      split at herror
      · cases herror
      · split at herror
        · cases herror
        · split at herror
          · rw [← Except.error.inj herror]
            simp [AccessError.MetOnTheWay]
          · cases herror
  | _ => cases herror

theorem editChild_metOnTheWay {edit : Location → Value → Edit}
    (hedit : ∀ location child, (edit location child).MeetsFaults) :
    (editChild shaping? location edit step container).MeetsFaults := by
  intro error herror
  simp only [editChild] at herror
  split at herror
  · cases herror
  · exact hedit _ _ error herror

/-- A group meets faults of its segments. -/
theorem descend_metOnTheWay {arrive : Option (Location → Value → Edit)}
    (harrive : ∀ edit, arrive = some edit → ∀ location value, (edit location value).MeetsFaults)
    {searching strict creating : Bool} {segments : List Segment} :
    (descend (assign shaping new) arrive searching strict creating segments location
      value).MeetsFaults := by
  induction segments generalizing searching strict creating location value with
  | nil =>
    cases arrive with
    | none => exact fun error herror => by cases herror
    | some edit => exact harrive edit rfl location value
  | cons segment rest ih =>
    by_cases hsegment : segment = .root
    · subst hsegment
      exact ih
    · intro error herror
      rw [descend_segment hsegment, Edit.atTarget_eq] at herror
      dsimp only at herror
      rcases onward_cases with ⟨fault, hselect, hfails⟩ | ⟨steps, _, ⟨_, _, hlast⟩ | ⟨_, hmore⟩⟩
      · rw [hfails] at herror
        rw [← Except.error.inj herror]
        exact Selection.metOnTheWay_of_select hselect
      · rw [hlast] at herror
        exact Edit.MeetsFaults.sequence (fun _ _ _ => assignMember_metOnTheWay) error herror
      · rw [hmore] at herror
        refine Edit.MeetsFaults.sequence (fun _ _ _ => ?_) error herror
        exact editChild_metOnTheWay fun _ _ => ih

/-- Editing everything inside a value meets the faults met at one of its places. -/
theorem throughout_metOnTheWay {edit : Location → Value → Edit}
    (hedit : ∀ location value, (edit location value).MeetsFaults) :
    (throughout edit location value).MeetsFaults := by
  induction value using Value.induct_children generalizing location with
  | hstep value ih =>
    intro error herror
    rw [throughout_eq, Edit.atTarget_eq] at herror
    dsimp only [throughoutContainer] at herror
    cases hinside : (Edit.sequence value.target.children (fun child container =>
        { throughout edit (location.child child.1) child.2 with
          value := container.setChild child.1 (throughout edit (location.child child.1)
            child.2).value }) {} value.target).result with
    | error fault =>
      rw [hinside] at herror
      rw [← Except.error.inj herror]
      refine Edit.MeetsFaults.sequence (fun child hchild _ => ?_) fault hinside
      exact fun fault hfault => ih child hchild fault hfault
    | ok tally =>
      rw [hinside] at herror
      dsimp only at herror
      cases hlast : (edit location _).result with
      | error fault =>
        rw [hlast] at herror
        rw [← Except.error.inj herror]
        exact hedit _ _ fault hlast
      | ok done =>
        rw [hlast] at herror
        cases herror

/-- Searches meet faults of the segments searched for. -/
theorem search_metOnTheWay {searches : List (List Segment)} {edit : Location → Value → Edit}
    (hedit : search (assign shaping new) searches = some edit) :
    (edit location value).MeetsFaults := by
  induction searches generalizing edit location value with
  | nil => cases hedit
  | cons group rest ih =>
    obtain rfl := Option.some.inj hedit
    exact throughout_metOnTheWay fun _ _ => descend_metOnTheWay fun _ hrest _ _ => ih hrest

/-- An assignment that fails has met a fault, or has come to its end and found no place. -/
theorem run_eq_error {path : Path} {root after : Value} {error : AccessError}
    (hrun : (assign shaping new).run path root = (after, .error error)) :
    let edit := descend (assign shaping new) (search (assign shaping new) path.searches) false true
      true path.first [] root
    edit.value = after ∧
      ((edit.result = .error error ∧ error.MetOnTheWay) ∨
        ∃ tally, edit.result = .ok tally ∧ tally.matched = false ∧
          error.obstacle = .lack .nothingMatched) := by
  intro edit
  have hmeets : edit.MeetsFaults := descend_metOnTheWay fun _ hedit _ _ => search_metOnTheWay hedit
  simp only [run] at hrun
  rw [show descend _ _ _ _ _ _ _ _ = edit from rfl] at hrun
  rcases edit with ⟨value, fault | tally⟩
  · cases hrun
    exact ⟨rfl, .inl ⟨rfl, hmeets error rfl⟩⟩
  · dsimp only at hrun
    split at hrun
    · cases hrun
    · rename_i hmatched
      cases hrun
      exact ⟨rfl, .inr ⟨tally, rfl, eq_false_of_ne_true hmatched, rfl⟩⟩

end Action

end NestedData
