/-!
# Outcomes that may be faults

This module takes successful computations apart: what a sequence of steps gives
comes from the steps, and a loop succeeds exactly when its rounds do.

Main results:

- `bind_eq_ok_iff`: two steps succeed when the first and then the second does.
- `forM_eq_ok_iff`: a loop over a list succeeds when every round does.
- `foldlM_preserves`: a property that every round keeps holds of the result.
- `foldlM_zipIdx_preserves`: the same where the property counts the rounds.
- `exists_round_of_foldlM`: a loop that succeeds has succeeded in every round.
- `exists_of_foldlM`: a loop succeeds if every round does, whatever has been made before.
- `foldlM_eq_foldl`: a loop whose rounds cannot fail is a plain loop.
- `mapError_bind`, `forM_map_eq_mapError`: a fault may be changed where it arises.
- `agree_of_mapError`: outcomes whose faults are seen alike agree.
- `FailsOnlyWith.bind`, `FailsOnlyWith.forM`: what is true of the faults of all steps is true of the
  fault of the whole.
- `FailsOnlyWith.foldlM`: the same for a loop in which only the rounds count that it comes to.
-/

namespace NestedData.Outcome

variable {ε ε' α β : Type}

theorem exists_of_isOk {outcome : Except ε α} (hok : outcome.isOk = true) :
    ∃ result, outcome = .ok result := by
  cases outcome with
  | error fault => cases hok
  | ok result => exact ⟨result, rfl⟩

/-- Two steps succeed exactly when the first one does and then the second. -/
theorem bind_eq_ok_iff {first : Except ε α} {next : α → Except ε β} {result : β} :
    (first >>= next) = .ok result ↔ ∃ value, first = .ok value ∧ next value = .ok result := by
  cases first with
  | error fault => simp [bind, Except.bind]
  | ok value => simp [bind, Except.bind]

theorem both_eq_ok_iff {first next : Except ε Unit} :
    (do first; next) = .ok () ↔ first = .ok () ∧ next = .ok () := by
  cases first with
  | error fault => simp [bind, Except.bind]
  | ok done => simp [bind, Except.bind]

theorem exists_bind {first : Except ε α} {next : α → Except ε β}
    (hfirst : ∃ value, first = .ok value) (hnext : ∀ value, ∃ result, next value = .ok result) :
    ∃ result, (first >>= next) = .ok result := by
  obtain ⟨value, hvalue⟩ := hfirst
  obtain ⟨result, hresult⟩ := hnext value
  exact ⟨result, bind_eq_ok_iff.mpr ⟨value, hvalue, hresult⟩⟩

theorem map_eq_ok_iff {first : Except ε α} {f : α → β} {result : β} :
    first.map f = .ok result ↔ ∃ value, first = .ok value ∧ f value = result := by
  cases first with
  | error fault => simp [Except.map]
  | ok value => simp [Except.map]

/-- A change of the fault does not change what succeeds. -/
theorem mapError_eq_ok_iff {first : Except ε α} {f : ε → ε'} {result : α} :
    first.mapError f = .ok result ↔ first = .ok result := by
  cases first with
  | error fault =>
    constructor
    · intro h
      cases h
    · intro h
      cases h
  | ok value =>
    constructor
    · intro h
      cases h
      rfl
    · intro h
      cases h
      rfl

/-! ## Loops -/

/-- A loop over a list succeeds exactly when every round does. -/
theorem forM_eq_ok_iff {items : List α} {round : α → Except ε Unit} :
    items.forM round = .ok () ↔ ∀ item ∈ items, round item = .ok () := by
  induction items with
  | nil => simp [pure, Except.pure]
  | cons item rest ih =>
    rw [List.forM, both_eq_ok_iff, List.forall_mem_cons, ih]

/-- A property that every round keeps holds of the result of a loop. -/
theorem foldlM_preserves {motive : β → Prop} {round : β → α → Except ε β} {items : List α}
    {start result : β} (hstart : motive start)
    (hround : ∀ done, motive done → ∀ item ∈ items, ∀ next,
      round done item = .ok next → motive next)
    (hfold : items.foldlM round start = .ok result) : motive result := by
  induction items generalizing start with
  | nil =>
    cases hfold
    exact hstart
  | cons item rest ih =>
    rw [List.foldlM_cons, bind_eq_ok_iff] at hfold
    rcases hfold with ⟨next, hnext, hrest⟩
    have hmotive : motive next := hround start hstart item List.mem_cons_self next hnext
    refine ih hmotive ?_ hrest
    intro done hdone later hlater
    exact hround done hdone later (List.mem_cons_of_mem _ hlater)

/-- A property of the number of rounds and what has been made so far holds of the
result of a loop if every round keeps it. -/
theorem foldlM_zipIdx_preserves {motive : Nat → β → Prop} {round : β → α × Nat → Except ε β}
    {items : List α} {position : Nat} {start result : β} (hstart : motive position start)
    (hround : ∀ position done, motive position done → ∀ item next,
      round done (item, position) = .ok next → motive (position + 1) next)
    (hfold : (items.zipIdx position).foldlM round start = .ok result) :
    motive (position + items.length) result := by
  induction items generalizing position start with
  | nil =>
    cases hfold
    exact hstart
  | cons item rest ih =>
    rw [List.zipIdx_cons, List.foldlM_cons, bind_eq_ok_iff] at hfold
    rcases hfold with ⟨next, hnext, hrest⟩
    have hmotive := ih (hround position start hstart item next hnext) hrest
    rwa [List.length_cons, Nat.add_comm rest.length, ← Nat.add_assoc]

/-- A loop that succeeds has succeeded in every round. -/
theorem exists_round_of_foldlM {round : β → α → Except ε β} {items : List α}
    {start result : β} (hfold : items.foldlM round start = .ok result) {item : α}
    (hmem : item ∈ items) : ∃ done next, round done item = .ok next := by
  induction items generalizing start with
  | nil => cases hmem
  | cons first rest ih =>
    rw [List.foldlM_cons, bind_eq_ok_iff] at hfold
    obtain ⟨next, hnext, hrest⟩ := hfold
    rcases List.mem_cons.mp hmem with rfl | hlater
    · exact ⟨start, next, hnext⟩
    · exact ih hrest hlater

/-- A loop succeeds if every round does, whatever has been made before. -/
theorem exists_of_foldlM {round : β → α → Except ε β} {items : List α}
    (hround : ∀ done, ∀ item ∈ items, ∃ next, round done item = .ok next) (start : β) :
    ∃ result, items.foldlM round start = .ok result := by
  induction items generalizing start with
  | nil => exact ⟨start, rfl⟩
  | cons first rest ih =>
    obtain ⟨next, hnext⟩ := hround start first List.mem_cons_self
    obtain ⟨result, hresult⟩ :=
      ih (fun done item hlater => hround done item (List.mem_cons_of_mem _ hlater)) next
    exact ⟨result, by rw [List.foldlM_cons, bind_eq_ok_iff]; exact ⟨next, hnext, hresult⟩⟩

/-- A loop whose rounds cannot fail is a plain loop. -/
theorem foldlM_eq_foldl {round : β → α → Except ε β} {f : β → α → β} {items : List α}
    (hround : ∀ done, ∀ item ∈ items, round done item = .ok (f done item)) (start : β) :
    items.foldlM round start = .ok (items.foldl f start) := by
  induction items generalizing start with
  | nil => rfl
  | cons first rest ih =>
    rw [List.foldlM_cons, hround start first List.mem_cons_self]
    exact ih (fun done item hlater => hround done item (List.mem_cons_of_mem _ hlater)) _

/-! ## Changes of the fault -/

/-- The fault of two steps is changed where it arises. -/
theorem mapError_bind {first : Except ε α} {next : α → Except ε β} {f : ε → ε'} :
    (first >>= next).mapError f = first.mapError f >>= fun value => (next value).mapError f := by
  cases first <;> rfl

/-- A loop over other items, in each of which the fault of a round is another one, has another fault. -/
theorem forM_map_eq_mapError {items : List α} {move : α → β} {round : β → Except ε' Unit}
    {other : α → Except ε Unit} {f : ε → ε'}
    (hround : ∀ item ∈ items, round (move item) = (other item).mapError f) :
    (items.map move).forM round = (items.forM other).mapError f := by
  induction items with
  | nil => rfl
  | cons item rest ih =>
    rw [List.map_cons, List.forM, List.forM, mapError_bind, hround item List.mem_cons_self,
      ih fun later hlater => hround later (List.mem_cons_of_mem _ hlater)]

/-! ## Outcomes that agree -/

/-- Two outcomes agree: both are successes with related results, or both are related faults. -/
inductive Agree (faults : ε → ε' → Prop) (results : α → β → Prop) : Except ε α → Except ε' β → Prop
  /-- Both succeed. -/
  | ok {result : α} {other : β} (hresults : results result other) :
      Agree faults results (.ok result) (.ok other)
  /-- Both fail. -/
  | error {fault : ε} {other : ε'} (hfaults : faults fault other) :
      Agree faults results (.error fault) (.error other)

variable {results : α → β → Prop} {faults : ε → ε' → Prop}

theorem Agree.imp {fewer : ε → ε' → Prop} {looser : α → β → Prop} {outcome : Except ε α}
    {other : Except ε' β} (hagree : Agree faults results outcome other)
    (hfaults : ∀ fault other, faults fault other → fewer fault other)
    (hresults : ∀ result other, results result other → looser result other) :
    Agree fewer looser outcome other := by
  cases hagree with
  | ok hsame => exact .ok (hresults _ _ hsame)
  | error hsame => exact .error (hfaults _ _ hsame)

/-- Outcomes that agree still do when related results are changed into related ones. -/
theorem Agree.map {γ δ : Type} {later : γ → δ → Prop} {f : α → γ} {g : β → δ} {outcome : Except ε α}
    {other : Except ε' β} (hagree : Agree faults results outcome other)
    (hresults : ∀ result other, results result other → later (f result) (g other)) :
    Agree faults later (outcome.map f) (other.map g) := by
  cases hagree with
  | ok hsame => exact .ok (hresults _ _ hsame)
  | error hsame => exact .error hsame

/-- Outcomes agree whose results are equal and whose faults look the same. -/
theorem agree_of_mapError {f : ε → ε'} {outcome other : Except ε α}
    (hsame : outcome.mapError f = other.mapError f) :
    Agree (fun fault other => f fault = f other) Eq outcome other := by
  cases outcome with
  | ok result =>
    cases other with
    | ok _ => exact .ok (Except.ok.inj hsame)
    | error _ => cases hsame
  | error fault =>
    cases other with
    | ok _ => cases hsame
    | error _ => exact .error (Except.error.inj hsame)

/-! ## What is true of faults -/

/-- The property holds of the fault, if the outcome is one. -/
def FailsOnlyWith (motive : ε → Prop) : Except ε α → Prop
  | .ok _ => True
  | .error fault => motive fault

variable {motive : ε → Prop}

theorem FailsOnlyWith.of_eq {outcome : Except ε α} {fault : ε}
    (houtcome : FailsOnlyWith motive outcome) (hfault : outcome = .error fault) : motive fault := by
  subst hfault
  exact houtcome

/-- Two steps fail as the first one does, or as the second does after it. -/
theorem FailsOnlyWith.bind {first : Except ε α} {next : α → Except ε β}
    (hfirst : FailsOnlyWith motive first)
    (hnext : ∀ value, first = .ok value → FailsOnlyWith motive (next value)) :
    FailsOnlyWith motive (first >>= next) := by
  cases first with
  | error fault => exact hfirst
  | ok value => exact hnext value rfl

theorem FailsOnlyWith.map {outcome : Except ε α} (houtcome : FailsOnlyWith motive outcome)
    (f : α → β) : FailsOnlyWith motive (outcome.map f) := by
  cases outcome with
  | error fault => exact houtcome
  | ok value => trivial

/-- A loop over a list fails as one of its rounds does. -/
theorem FailsOnlyWith.forM {items : List α} {round : α → Except ε Unit}
    (hround : ∀ item ∈ items, FailsOnlyWith motive (round item)) :
    FailsOnlyWith motive (items.forM round) := by
  induction items with
  | nil => trivial
  | cons item rest ih =>
    rw [List.forM]
    exact (hround item List.mem_cons_self).bind fun _ _ =>
      ih fun later hlater => hround later (List.mem_cons_of_mem _ hlater)

/-- What is noted of items that are taken in turn, up to and including the first one that ends the
row. -/
def inTurn {γ : Type} (ends : α → Bool) (noted : α → List γ) : List α → List γ
  | [] => []
  | item :: rest => noted item ++ if ends item then [] else inTurn ends noted rest

/-- A loop that makes something fails as one of the rounds does that it comes to: if nothing is noted
of the items up to the one that ends it, as a round does of whose item nothing is noted. -/
theorem FailsOnlyWith.foldlM {γ : Type} {ends : α → Bool} {noted : α → List γ}
    {round : β → α → Except ε β} {items : List α} {start : β}
    (hends : ∀ done, ∀ item ∈ items, ∀ next, round done item = .ok next → ends item = false)
    (hround : ∀ done, ∀ item ∈ items, noted item = [] → FailsOnlyWith motive (round done item))
    (hquiet : inTurn ends noted items = []) : FailsOnlyWith motive (items.foldlM round start) := by
  induction items generalizing start with
  | nil => trivial
  | cons item rest ih =>
    obtain ⟨hitem, hrest⟩ := List.append_eq_nil_iff.mp hquiet
    rw [List.foldlM_cons]
    refine (hround start item List.mem_cons_self hitem).bind fun next hnext => ?_
    rw [hends start item List.mem_cons_self next hnext, if_neg Bool.false_ne_true] at hrest
    exact ih (fun done later hlater => hends done later (List.mem_cons_of_mem _ hlater))
      (fun done later hlater => hround done later (List.mem_cons_of_mem _ hlater)) hrest

end NestedData.Outcome
