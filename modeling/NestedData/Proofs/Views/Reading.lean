import NestedData.Access.Visit
import NestedData.Proofs.Access.Visits
import NestedData.Proofs.Outcome
import NestedData.Proofs.Views.Basic

/-!
# Reading in a view

Two values that are seen alike are read alike: a segment selects the same steps from both or fails in
the same way, a traversal visits places that are seen alike, in the same order, and what a path selects
is seen alike.  The module proves this for every view, along every path.

Main results:

- `AccessError.Alike.message`: if references are shown, faults that are seen alike have one message.
- `Selection.select_alike`: a segment selects the same steps from values that are seen alike.
- `Visit.descend_alike`, `Visit.search_alike`: traversals of values that are seen alike stay alike.
- `Value.getAt_alike`, `Value.visits_alike`: a path selects and visits what is seen alike.
-/

namespace NestedData

open Outcome

/-! ## Faults -/

/-- Two faults are seen alike: they are about the same obstacle at the same path, and the values found
there are seen alike. -/
structure AccessError.Alike (view : View) (error other : AccessError) : Prop where
  /-- The same was to be done. -/
  operation : error.operation = other.operation
  /-- The path up to the obstacle is the same. -/
  path : error.path = other.path
  /-- The values found there are seen alike. -/
  value : view.seen error.value = view.seen other.value
  /-- The same stands in the way. -/
  obstacle : error.obstacle = other.obstacle

/-- If references are shown, faults that are seen alike have the same message. -/
theorem AccessError.Alike.message {view : View} {error other : AccessError}
    (halike : error.Alike view other) (hreferences : view.references = true) :
    error.message = other.message := by
  have hsnapshot : error.value.snapshot = other.value.snapshot := by
    rw [← View.snapshot_seen hreferences, halike.value, View.snapshot_seen hreferences]
  simp only [AccessError.message, halike.operation, halike.path, halike.obstacle, hsnapshot]

namespace View

variable {view : View} {value other : Value}

/-- What is seen of a fault. -/
def fault (view : View) (error : AccessError) : AccessError :=
  { error with value := view.seen error.value }

theorem alike_of_fault {error other : AccessError} (hsame : view.fault error = view.fault other) :
    error.Alike view other := by
  obtain ⟨hoperation, hpath, hvalue, hobstacle⟩ := AccessError.mk.inj hsame
  exact ⟨hoperation, hpath, hvalue, hobstacle⟩

end View

/-! ## Selecting -/

namespace Selection

variable {view : View} {value other : Value}

theorem miss_seen (selection : Selection) (view : View) (value : Value) (obstacle : Obstacle) :
    selection.miss (view.seen value) obstacle =
      (selection.miss value obstacle).mapError view.fault := by
  unfold miss
  split <;> rfl

theorem selectInMap_seen (selection : Selection) (view : View) (entries : Entries Value)
    (segment : Segment) :
    selection.selectInMap (Entries.mapValues view.seen entries) segment =
      (selection.selectInMap entries segment).mapError view.fault := by
  have hmiss (obstacle : Obstacle) := selection.miss_seen view (.map entries) obstacle
  rw [View.seen_map] at hmiss
  have hentry (key : String) : selection.selectEntry (Entries.mapValues view.seen entries) key =
      (selection.selectEntry entries key).mapError view.fault := by
    rw [selectEntry, selectEntry, Entries.contains_mapValues, hmiss]
    split <;> rfl
  cases segment with
  | key name => exact hentry name
  | index position => exact hentry _
  | wildcard => simp [selectInMap, Entries.keys_mapValues, Except.mapError]
  | union selectors => simp [selectInMap, Entries.contains_mapValues, Except.mapError]
  | _ => exact hmiss _

theorem selectInRecord_seen (selection : Selection) (view : View) (aggregate : Record Value)
    (segment : Segment) :
    selection.selectInRecord (view.record aggregate) segment =
      (selection.selectInRecord aggregate segment).mapError view.fault := by
  have hmiss (obstacle : Obstacle) := selection.miss_seen view (.record aggregate) obstacle
  rw [View.seen_record] at hmiss
  cases segment with
  | key name =>
    rw [selectInRecord, selectInRecord, View.field?_record]
    cases aggregate.field? name with
    | none => exact hmiss _
    | some field =>
      cases hexported : field.exported <;> cases selection.searching <;>
        simp [View.field, hexported, Except.mapError, fault, View.fault, View.record]
  | wildcard =>
    simp [selectInRecord, View.exportedFields_record, Except.mapError, View.field, Function.comp_def]
  | union selectors =>
    have hfield : fieldOf? (view.record aggregate) = fieldOf? aggregate := by
      funext selector
      cases selector <;> simp [fieldOf?, View.get?_record, Function.comp_def]
    simp [selectInRecord, hfield, Except.mapError]
  | _ => exact hmiss _

theorem selectInList_seen (selection : Selection) (view : View) (sequence : Sequence Value)
    (segment : Segment) :
    selection.selectInList (sequence.map view.seen) segment =
      (selection.selectInList sequence segment).mapError view.fault := by
  have hmiss (obstacle : Obstacle) := selection.miss_seen view (.list sequence) obstacle
  rw [View.seen_list] at hmiss
  have hgrows : selection.mayGrow (sequence.map view.seen) = selection.mayGrow sequence := rfl
  have hreaches : selection.reaches (sequence.map view.seen) = selection.reaches sequence := by
    funext position
    rw [reaches, reaches, Sequence.size_map, hgrows]
  cases segment with
  | index position =>
    simp only [selectInList, hreaches, hgrows, hmiss, Sequence.size_map]
    split
    · rfl
    · split <;> rfl
  | wildcard => simp [selectInList, Except.mapError]
  | union selectors =>
    have hposition : selection.positionOf? (sequence.map view.seen) =
        selection.positionOf? sequence := by
      funext selector
      cases selector <;> simp [positionOf?, hreaches]
    simp [selectInList, hposition, Except.mapError]
  | slice start stop step =>
    simp [selectInList, sliceLength, hreaches, hgrows, Except.mapError]
  | key name => exact hmiss _
  | root => rfl

/-- A segment selects from what is seen as it does from the value. -/
theorem select_seen (selection : Selection) (hvalue : value.target = value) (segment : Segment) :
    selection.select (view.seen value) segment =
      (selection.select value segment).mapError view.fault := by
  have hmiss (obstacle : Obstacle) := selection.miss_seen view value obstacle
  cases value with
  | map entries =>
    rw [View.seen_map]
    exact selection.selectInMap_seen view entries segment
  | record aggregate =>
    rw [View.seen_record]
    exact selection.selectInRecord_seen view aggregate segment
  | list sequence =>
    rw [View.seen_list]
    exact selection.selectInList_seen view sequence segment
  | ref referent => exact absurd hvalue (Value.target_ne_ref _ _)
  | nilRef =>
    rw [View.seen_nilRef] at hmiss ⊢
    split at hmiss <;> rename_i hreferences <;> simp only [hreferences] <;> exact hmiss _
  | _ =>
    rw [View.seen_of_plain rfl rfl] at hmiss ⊢
    exact hmiss _

/-- A segment selects the same steps from values that are seen alike, or fails alike. -/
theorem select_alike (selection : Selection) (hsame : view.Same value other) (segment : Segment) :
    Agree (AccessError.Alike view) Eq (selection.select value segment)
      (selection.select other segment) := by
  refine (agree_of_mapError ?_).imp (fun _ _ => View.alike_of_fault) fun _ _ heq => heq
  rw [← select_seen selection hsame.target, ← select_seen selection hsame.other_target, hsame.seen]

end Selection

/-! ## Traversals -/

/-- Two traversals have come equally far: what they have collected is related, and if a fault ended
them, the faults are seen alike. -/
inductive Progress.Alike {σ τ : Type} (view : View) (related : σ → τ → Prop) :
    Progress σ → Progress τ → Prop
  /-- Both are still running. -/
  | running {collected : σ} {other : τ} (hcollected : related collected other) :
      Alike view related (.running collected) (.running other)
  /-- A visitor has ended both. -/
  | stopped {collected : σ} {other : τ} (hcollected : related collected other) :
      Alike view related (.stopped collected) (.stopped other)
  /-- A fault has ended both. -/
  | failed {collected : σ} {other : τ} {error fault : AccessError}
      (hcollected : related collected other) (herror : error.Alike view fault) :
      Alike view related (.failed collected error) (.failed other fault)

section Traversals

variable {σ τ : Type} {view : View} {related : σ → τ → Prop}

namespace Progress

theorem Alike.collected {progress : Progress σ} {other : Progress τ}
    (halike : progress.Alike view related other) : related progress.collected other.collected := by
  cases halike <;> assumption

theorem Alike.outcome {progress : Progress σ} {other : Progress τ}
    (halike : progress.Alike view related other) :
    Agree (AccessError.Alike view) Eq progress.outcome other.outcome := by
  cases halike with
  | failed _ herror => exact .error herror
  | _ => exact .ok rfl

/-- Going through things that are paired comes equally far if every pair is visited alike. -/
theorem through_alike {α β : Type} {paired : α → β → Prop} {things : List α} {others : List β}
    {visit : α → σ → Progress σ} {revisit : β → τ → Progress τ}
    (hthings : List.Forall₂ paired things others)
    (hvisit : ∀ thing other, paired thing other → ∀ collected found, related collected found →
      (visit thing collected).Alike view related (revisit other found))
    {collected : σ} {found : τ} (hcollected : related collected found) :
    (through things visit collected).Alike view related (through others revisit found) := by
  induction hthings generalizing collected found with
  | nil => exact .running hcollected
  | @cons thing other rest others hpair _ ih =>
    rw [through_cons, through_cons]
    have hfirst := hvisit thing other hpair collected found hcollected
    generalize visit thing collected = progress at hfirst ⊢
    generalize revisit other found = outcome at hfirst ⊢
    cases hfirst with
    | running hmore => exact ih hmore
    | stopped hmore => exact .stopped hmore
    | failed hmore herror => exact .failed hmore herror

end Progress

namespace Visit

/-- What is done at a place, and what is done at the same place of another value, comes equally far if
the values are seen alike. -/
def Arrival.Alike (view : View) (related : σ → τ → Prop) (arrive : Arrival σ) (other : Arrival τ) :
    Prop :=
  ∀ location before after, view.seen before = view.seen after →
    ∀ collected found, related collected found →
      (arrive location before collected).Alike view related (other location after found)

/-- Following segments comes equally far from values that are seen alike. -/
theorem descend_alike {arrive : Arrival σ} {other : Arrival τ}
    (harrive : Arrival.Alike view related arrive other) (operation : Operation)
    (searching strict : Bool) (segments : List Segment) :
    Arrival.Alike view related (descend operation arrive searching strict segments)
      (descend operation other searching strict segments) := by
  induction segments generalizing searching strict with
  | nil =>
    intro location before after hsame collected found hcollected
    exact harrive location _ _ (View.same_target hsame).seen collected found hcollected
  | cons segment rest ih =>
    intro location before after hsame collected found hcollected
    by_cases hsegment : segment = .root
    · subst hsegment
      exact ih false strict location before after hsame collected found hcollected
    · rw [descend_segment hsegment, descend_segment hsegment]
      have htarget := View.same_target hsame
      have hselect := Selection.select_alike
        { operation, location, strict, create := false, searching } htarget segment
      generalize Selection.select _ before.target segment = selected at hselect ⊢
      generalize Selection.select _ after.target segment = reselected at hselect ⊢
      cases hselect with
      | error herror => exact .failed hcollected herror
      | @ok steps _ hsteps =>
        subst hsteps
        refine Progress.through_alike (List.forall₂_eq_eq_eq ▸ rfl) ?_ hcollected
        rintro step _ rfl collected found hcollected
        have hchild := htarget.child step
        generalize before.target.child? step = child at hchild ⊢
        generalize after.target.child? step = next at hchild ⊢
        cases hchild with
        | none => exact .running hcollected
        | some hseen => exact ih _ _ _ _ _ hseen collected found hcollected

/-- Searching comes equally far in values that are seen alike if the places found are visited alike. -/
theorem search_alike {operation : Operation} {visit : Visitor σ} {other : Visitor τ}
    (hvisit : Arrival.Alike view related (search operation visit []) (search operation other []))
    (searches : List (List Segment)) :
    Arrival.Alike view related (search operation visit searches) (search operation other searches) := by
  induction searches with
  | nil => exact hvisit
  | cons group rest ih =>
    intro location before after hsame collected found hcollected
    refine Progress.through_alike (View.places_alike hsame location) ?_ hcollected
    rintro ⟨place, value⟩ ⟨_, next⟩ ⟨rfl, hseen⟩ collected found hcollected
    exact descend_alike ih _ _ _ _ place value next hseen collected found hcollected

/-- A path is followed equally far into values that are seen alike if the places it selects are visited
alike. -/
theorem follow_alike {operation : Operation} {visit : Visitor σ} {other : Visitor τ}
    (hvisit : Arrival.Alike view related (search operation visit []) (search operation other []))
    (path : Path) {before after : Value} (hsame : view.seen before = view.seen after)
    {collected : σ} {found : τ} (hcollected : related collected found) :
    (follow operation path visit before collected).Alike view related
      (follow operation path other after found) :=
  descend_alike (search_alike hvisit path.searches) operation false true path.first [] before after
    hsame collected found hcollected

end Visit

end Traversals

namespace Value

variable {view : View} {root other : Value}

/-- A path selects from values that are seen alike what is seen alike, or fails alike. -/
theorem getAt_alike (hsame : view.seen root = view.seen other) (path : Path) :
    Agree (AccessError.Alike view) (fun found value => view.seen found = view.seen value)
      (root.getAt path) (other.getAt path) := by
  have hfollow : (Visit.follow .get path (fun _ value found => .yield (found.push value)) root
      #[]).Alike view (fun found others : Array Value => found.map view.seen = others.map view.seen)
      (Visit.follow .get path (fun _ value found => .yield (found.push value)) other #[]) :=
    Visit.follow_alike (fun _ _ _ hseen _ _ hfound => .running (by simp [hfound, hseen]))
      path hsame rfl
  unfold getAt
  generalize Visit.follow _ _ _ root _ = progress at hfollow ⊢
  generalize Visit.follow _ _ _ other _ = outcome at hfollow ⊢
  cases hfollow with
  | failed _ herror => exact .error herror
  | @running found others hfound | @stopped found others hfound =>
    have hfirst : found[0]?.map view.seen = others[0]?.map view.seen := by
      rw [← Array.getElem?_map, ← Array.getElem?_map, hfound]
    dsimp only
    cases hone : found[0]? with
    | none =>
      cases hother : others[0]? with
      | none => exact .error ⟨rfl, rfl, hsame, rfl⟩
      | some _ => simp [hone, hother] at hfirst
    | some first =>
      cases hother : others[0]? with
      | none => simp [hone, hother] at hfirst
      | some _ =>
        dsimp only
        split
        · exact .ok (by simp [ofItems, Sequence.growable, Sequence.map, hfound])
        · exact .ok (by simpa [hone, hother] using hfirst)

/-- A path visits, in values that are seen alike, the same places in the same order, with values that
are seen alike, and comes to the same end. -/
theorem visits_alike (hsame : view.seen root = view.seen other) (path : Path) :
    (root.visits path).Alike view
      (fun visited others => List.Forall₂ view.SameAt visited others) (other.visits path) :=
  Visit.follow_alike (fun location before after hseen _ _ hvisited =>
    have hplace : view.SameAt (location, before) (location, after) := ⟨rfl, hseen⟩
    .running (List.rel_append hvisited (.cons hplace .nil))) path hsame .nil

end Value

end NestedData
