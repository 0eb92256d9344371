import NestedData.Access.Select

/-!
# Visiting places

This module follows a path into a value and hands every place it selects to a visitor, with the value
there.  Places are visited in order: children in the order in which they are selected, and for a search
every container before what is inside it.  A visitor may end the traversal; a fault ends it as well, and
what has been collected so far is kept in either case.

Main results:

- `Progress.andThen_running`: a traversal that is still running goes on with what follows.
- `Progress.through_cons`: how a traversal goes through a list of things.
-/

namespace NestedData

/-! ## Traversals that may end early -/

/-- How far a traversal has got, with what it has collected. -/
inductive Progress (σ : Type)
  /-- It is still running. -/
  | running (collected : σ)
  /-- The visitor ended it. -/
  | stopped (collected : σ)
  /-- A fault ended it. -/
  | failed (collected : σ) (error : AccessError)

namespace Progress

variable {σ α : Type}

/-- What has been collected. -/
def collected : Progress σ → σ
  | .running collected => collected
  | .stopped collected => collected
  | .failed collected _ => collected

/-- Whether the traversal came to its end without a fault. -/
def outcome : Progress σ → Except AccessError Unit
  | .running _ => .ok ()
  | .stopped _ => .ok ()
  | .failed _ error => .error error

/-- Goes on with a traversal that is still running. -/
def andThen (progress : Progress σ) (next : σ → Progress σ) : Progress σ :=
  match progress with
  | .running collected => next collected
  | ended => ended

/-- A traversal that is still running goes on with what follows. -/
@[simp]
theorem andThen_running (collected : σ) (next : σ → Progress σ) :
    andThen (.running collected) next = next collected := rfl

/-- Goes through a list of things, as long as the traversal is running. -/
def through (things : List α) (visit : α → σ → Progress σ) (collected : σ) : Progress σ :=
  match things with
  | [] => .running collected
  | thing :: rest =>
    match visit thing collected with
    | .running collected => through rest visit collected
    | ended => ended

/-- Going through a list is visiting its head and going on with its tail. -/
theorem through_cons (thing : α) (rest : List α) (visit : α → σ → Progress σ) (collected : σ) :
    through (thing :: rest) visit collected = (visit thing collected).andThen (through rest visit) := by
  simp only [through, andThen]

end Progress

/-! ## Following a path -/

/-- A visitor of places: it says what is collected then and whether the traversal goes on. -/
abbrev Visitor (σ : Type) := Location → Value → σ → ForInStep σ

namespace Visit

variable {σ : Type}

/-- What is done at the places a group of segments leads to. -/
abbrev Arrival (σ : Type) := Location → Value → σ → Progress σ

/-- Follows the segments of a group from a place and does `arrive` wherever they lead.  `searching`
says that the first segment is being searched for, `strict` that misses are faults. -/
def descend (operation : Operation) (arrive : Arrival σ) (searching strict : Bool) :
    List Segment → Arrival σ
  | [], location, value, collected => arrive location value.target collected
  | .root :: rest, location, value, collected =>
    descend operation arrive false strict rest location value collected
  | segment :: rest, location, value, collected =>
    let selection : Selection := { operation, location, strict, create := false, searching }
    match selection.select value.target segment with
    | .error error => .failed collected error
    | .ok steps =>
      Progress.through steps (fun step collected =>
        match value.target.child? step with
        | some child =>
          descend operation arrive false (strict && !segment.isMultiValued) rest
            (location.child step) child collected
        | none => .running collected) collected

/-- Searches for the groups one below the other and hands the places found to the visitor. -/
def search (operation : Operation) (visit : Visitor σ) : List (List Segment) → Arrival σ
  | [], location, value, collected =>
    match visit location value collected with
    | .yield collected => .running collected
    | .done collected => .stopped collected
  | group :: rest, location, value, collected =>
    Progress.through (value.places location) (fun place =>
      descend operation (search operation visit rest) true false group place.1 place.2) collected

/-- Follows a path from the root and hands the places it selects to the visitor. -/
def follow (operation : Operation) (path : Path) (visit : Visitor σ) (root : Value)
    (collected : σ) : Progress σ :=
  descend operation (search operation visit path.searches) false true path.first [] root collected

end Visit

namespace Value

/-- Visits the places that a path selects. -/
def forEach {σ : Type} (root : Value) (path : Path) (visit : Visitor σ) (initial : σ) :
    Progress σ :=
  Visit.follow .forEach path visit root initial

/-- The value that a path selects; if the path may match several places, the list of all values
found. -/
def getAt (root : Value) (path : Path) : Except AccessError Value :=
  match Visit.follow .get path (fun _ value found => .yield (found.push value)) root #[] with
  | .failed _ error => .error error
  | .running found | .stopped found =>
    match found[0]? with
    | none => .error { operation := .get, path, value := root, obstacle := .lack .nothingFound }
    | some first => if path.isMultiValued then .ok (.ofItems found) else .ok first

end Value

end NestedData
