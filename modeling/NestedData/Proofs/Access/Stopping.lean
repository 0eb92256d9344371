import NestedData.Proofs.Access.Resolving

/-!
# Traversals that a visitor ends

A traversal does not look at what its visitor collects.  Whatever the visitor is, the traversal
hands it the row of places that a visitor sees which never ends it, and at the end of the row it
meets the fault that ends the unstopped traversal, if there is one.  A visitor that ends the
traversal therefore sees a prefix of the row, and no fault behind it.

Main results:

- `Visit.descend_replays`, `Visit.search_replays`: the walkers hand over a row that does not depend
  on the visitor.
- `Value.forEach_eq_replay`: a traversal replays the visits of the unstopped one.
- `Value.visitsUntil_prefix`: a visitor that ends the traversal at its `count`-th call sees the
  first `count` visits of the unstopped one.
-/

namespace NestedData

/-! ## Handing over a row -/

namespace Progress

variable {σ α : Type}

/-- How a traversal that no visitor has ended ends: at a fault, or not yet. -/
def ending (fault : Option AccessError) (collected : σ) : Progress σ :=
  match fault with
  | none => .running collected
  | some error => .failed collected error

/-- The fault that ended a traversal. -/
def fault? : Progress σ → Option AccessError
  | .failed _ error => some error
  | .running _ | .stopped _ => none

theorem andThen_assoc (progress : Progress σ) (next more : σ → Progress σ) :
    (progress.andThen next).andThen more =
      progress.andThen fun collected => (next collected).andThen more := by
  cases progress <;> rfl

theorem andThen_ending_none (progress : Progress σ) :
    progress.andThen (ending none) = progress := by
  cases progress <;> rfl

/-- Going through two rows is going through the first and on through the second. -/
theorem through_append (first second : List α) (visit : α → σ → Progress σ) (collected : σ) :
    through (first ++ second) visit collected =
      (through first visit collected).andThen (through second visit) := by
  induction first generalizing collected with
  | nil => rfl
  | cons thing rest ih =>
    rw [List.cons_append, through_cons, through_cons, andThen_assoc]
    exact congrArg _ (funext ih)

end Progress

namespace Visit

variable {σ : Type} {visit : Visitor σ}

/-- Hands the places of a row to a visitor, one after the other. -/
def replay (visit : Visitor σ) (trace : Trace) : σ → Progress σ :=
  Progress.through trace fun place => search .forEach visit [] place.1 place.2

theorem replay_append (first second : Trace) (state : σ) :
    replay visit (first ++ second) state =
      (replay visit first state).andThen (replay visit second) :=
  Progress.through_append first second _ state

/-- One traversal records the places it is handed, the other hands the same places to a visitor, and
unless the visitor ends it they end alike. -/
def Replays (visit : Visitor σ) (recording : Trace → Progress Trace) (visiting : σ → Progress σ) :
    Prop :=
  ∃ trace fault, (∀ seen, recording seen = .ending fault (seen ++ trace)) ∧
    ∀ state, visiting state = (replay visit trace state).andThen (.ending fault)

theorem Replays.ending (fault : Option AccessError) :
    Replays visit (.ending fault) (.ending fault) :=
  ⟨[], fault, fun seen => by rw [List.append_nil], fun _ => rfl⟩

/-- One traversal after the other hands over one row after the other, or the first row alone if a
fault ends it. -/
theorem Replays.andThen {recording next whole : Trace → Progress Trace}
    {visiting more all : σ → Progress σ} (hfirst : Replays visit recording visiting)
    (hnext : Replays visit next more) (hwhole : ∀ seen, whole seen = (recording seen).andThen next)
    (hall : ∀ state, all state = (visiting state).andThen more) : Replays visit whole all := by
  obtain ⟨trace, fault, hrecord, hvisit⟩ := hfirst
  obtain ⟨others, later, hrecordNext, hvisitNext⟩ := hnext
  cases fault with
  | some error =>
    refine ⟨trace, some error, fun seen => ?_, fun state => ?_⟩
    · rw [hwhole, hrecord]
      rfl
    · rw [hall, hvisit, Progress.andThen_assoc]
      rfl
  | none =>
    refine ⟨trace ++ others, later, fun seen => ?_, fun state => ?_⟩
    · rw [hwhole, hrecord, Progress.ending, Progress.andThen_running, hrecordNext,
        List.append_assoc]
    · rw [hall, hvisit, Progress.andThen_ending_none, replay_append, Progress.andThen_assoc]
      exact congrArg _ (funext hvisitNext)

/-- Going through things that each hand over a row hands over the rows one after the other. -/
theorem Replays.through {α : Type} {things : List α} {recording : α → Trace → Progress Trace}
    {visiting : α → σ → Progress σ}
    (hvisit : ∀ thing ∈ things, Replays visit (recording thing) (visiting thing)) :
    Replays visit (Progress.through things recording) (Progress.through things visiting) := by
  induction things with
  | nil => exact .ending none
  | cons thing rest ih =>
    have hrest := ih fun other hother => hvisit other (List.mem_cons_of_mem _ hother)
    exact (hvisit thing List.mem_cons_self).andThen hrest
      (Progress.through_cons thing rest recording)
      (Progress.through_cons thing rest visiting)

/-! ## The walkers -/

/-- Following segments hands over a row that does not depend on the visitor, if what is done where
they lead does. -/
theorem descend_replays {recording : Arrival Trace} {visiting : Arrival σ}
    (harrive : ∀ location value, Replays visit (recording location value) (visiting location value))
    (operation : Operation) (searching strict : Bool) (segments : List Segment)
    (location : Location) (value : Value) :
    Replays visit (descend operation recording searching strict segments location value)
      (descend operation visiting searching strict segments location value) := by
  induction segments generalizing searching strict location value with
  | nil => exact harrive location value.target
  | cons segment rest ih =>
    by_cases hsegment : segment = .root
    · subst hsegment
      exact ih false strict location value
    · rw [funext (descend_segment hsegment operation recording searching strict rest location
          value),
        funext (descend_segment hsegment operation visiting searching strict rest location value)]
      cases Selection.select { operation, location, strict, create := false, searching }
          value.target segment with
      | error error => exact .ending (some error)
      | ok steps =>
        refine Replays.through fun step _ => ?_
        cases value.target.child? step with
        | none => exact .ending none
        | some child => exact ih _ _ _ child

theorem search_nil_replays (location : Location) (value : Value) :
    Replays visit (search .forEach (recordUntil fun _ => false) [] location value)
      (search .forEach visit [] location value) := by
  refine ⟨[(location, value)], none, fun seen => rfl, fun state => ?_⟩
  rw [Progress.andThen_ending_none, replay, Progress.through_cons]
  exact (Progress.andThen_ending_none _).symm

/-- Searching hands over a row that does not depend on the visitor. -/
theorem search_replays (searches : List (List Segment)) (location : Location) (value : Value) :
    Replays visit (search .forEach (recordUntil fun _ => false) searches location value)
      (search .forEach visit searches location value) := by
  induction searches generalizing location value with
  | nil => exact search_nil_replays location value
  | cons group rest ih =>
    exact Replays.through fun place _ => descend_replays ih .forEach true false group _ _

end Visit

namespace Value

theorem forEach_replays {σ : Type} (root : Value) (path : Path) (visit : Visitor σ) :
    Visit.Replays visit (root.forEach path (Visit.recordUntil fun _ => false))
      (root.forEach path visit) :=
  Visit.descend_replays (Visit.search_replays path.searches) .forEach false true path.first [] root

theorem visits_eq_ending (root : Value) (path : Path) :
    root.visits path = .ending (root.visits path).fault? (root.visits path).collected := by
  obtain ⟨trace, fault, hrecord, _⟩ := forEach_replays root path (Visit.recordUntil fun _ => false)
  have hvisits : root.visits path = .ending fault trace := hrecord []
  rw [hvisits]
  cases fault <;> rfl

/-- A traversal hands its visitor the visits of the unstopped traversal, and unless the visitor ends
it before, it ends as that one does. -/
theorem forEach_eq_replay {σ : Type} (root : Value) (path : Path) (visit : Visitor σ)
    (initial : σ) :
    root.forEach path visit initial =
      (Visit.replay visit (root.visits path).collected initial).andThen
        (.ending (root.visits path).fault?) := by
  obtain ⟨trace, fault, hrecord, hvisit⟩ := forEach_replays root path visit
  have hvisits : root.visits path = .ending fault trace := hrecord []
  rw [hvisits, hvisit]
  cases fault <;> rfl

end Value

/-! ## Ending the traversal at one call -/

namespace Visit

theorem search_recordUntil (operation : Operation) (halts : Trace → Bool) (location : Location)
    (value : Value) (seen : Trace) :
    search operation (recordUntil halts) [] location value seen =
      if halts (seen ++ [(location, value)]) then .stopped (seen ++ [(location, value)])
      else .running (seen ++ [(location, value)]) := by
  rw [search, recordUntil]
  cases halts (seen ++ [(location, value)]) <;> rfl

/-- A recorder that ends the traversal at one of its calls keeps the first places of the row, and is
still running if the row is too short for that call. -/
theorem replay_recordUntil {count : Nat} (trace : Trace) {seen : Trace}
    (hseen : seen.length < count) :
    replay (recordUntil fun seen => seen.length == count) trace seen =
      if count ≤ seen.length + trace.length then .stopped ((seen ++ trace).take count)
      else .running (seen ++ trace) := by
  induction trace generalizing seen with
  | nil =>
    rw [List.length_nil, Nat.add_zero, if_neg (by omega), List.append_nil]
    rfl
  | cons place rest ih =>
    have hlength : (seen ++ [place]).length = seen.length + 1 := by simp
    have happend : seen ++ place :: rest = (seen ++ [place]) ++ rest := by simp
    rw [replay, Progress.through_cons, search_recordUntil, hlength, List.length_cons, happend]
    by_cases hlast : seen.length + 1 = count
    · rw [if_pos (beq_iff_eq.mpr hlast), if_pos (by omega),
        List.take_append_of_le_length (by omega), List.take_of_length_le (by omega)]
      rfl
    · have hmore := ih (show (seen ++ [place]).length < count by omega)
      rw [hlength, Nat.add_right_comm, Nat.add_assoc] at hmore
      rw [if_neg (fun hsame => hlast (beq_iff_eq.mp hsame))]
      exact hmore

end Visit

namespace Value

/-- A visitor that ends the traversal at its `count`-th call is handed the first `count` visits of
the traversal that no visitor ends, and no fault behind them is met; if there are fewer visits, the
traversal ends as the unstopped one does. -/
theorem visitsUntil_prefix (root : Value) (path : Path) {count : Nat} (hcount : 0 < count) :
    let unstopped := root.visits path
    let stopping := root.visitsUntil (fun seen => seen.length == count) path
    stopping.collected = unstopped.collected.take count ∧
      (count ≤ unstopped.collected.length → stopping.outcome = .ok ()) ∧
      (unstopped.collected.length < count → stopping.outcome = unstopped.outcome) := by
  intro unstopped stopping
  have hstopping : stopping = (Visit.replay (Visit.recordUntil fun seen => seen.length == count)
      unstopped.collected []).andThen (.ending unstopped.fault?) :=
    forEach_eq_replay root path _ []
  rw [Visit.replay_recordUntil unstopped.collected hcount] at hstopping
  simp only [List.length_nil, Nat.zero_add, List.nil_append] at hstopping
  by_cases hlength : count ≤ unstopped.collected.length
  · rw [if_pos hlength] at hstopping
    rw [hstopping]
    exact ⟨rfl, fun _ => rfl, fun hfew => absurd hlength (by omega)⟩
  · rw [if_neg hlength, Progress.andThen_running] at hstopping
    have hsame : stopping = unstopped := hstopping.trans (visits_eq_ending root path).symm
    rw [hsame, List.take_of_length_le (by omega)]
    exact ⟨rfl, fun hmany => absurd hmany hlength, fun _ => rfl⟩

/-- A visitor that ends the traversal at its first call sees the field of the first item, and the
hidden field of the second is no fault; one that would end it at its second call meets the fault. -/
theorem visitsUntil_prefix_hidden :
    let item (exported : Bool) : Value :=
      .record { name := "Item", fields := [{ name := "b", exported, value := .int 1 }] }
    let root := Value.ofItems #[item true, item false]
    let path : Path := { first := [.root, .wildcard, .key "b"] }
    let first := root.visitsUntil (fun seen => seen.length == 1) path
    let second := root.visitsUntil (fun seen => seen.length == 2) path
    first.collected = [([.index 0, .key "b"], .int 1)] ∧ first.outcome = .ok () ∧
      second.outcome = (root.visits path).outcome ∧ (root.visits path).outcome ≠ .ok () := by
  intro item root path first second
  have hvisits : (root.visits path).collected = [([.index 0, .key "b"], .int 1)] := by
    cbv
  obtain ⟨hfirst, hok, _⟩ := visitsUntil_prefix root path (by decide : 0 < 1)
  obtain ⟨_, _, hsame⟩ := visitsUntil_prefix root path (by decide : 0 < 2)
  rw [hvisits] at hfirst hok hsame
  refine ⟨hfirst, hok (by decide), hsame (by decide), fun hnone => ?_⟩
  have hfault : (root.visits path).outcome.toBool = false := by
    cbv
  rw [hnone] at hfault
  cases hfault

end Value

end NestedData
