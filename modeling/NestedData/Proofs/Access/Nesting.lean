import NestedData.Path.Parser
import NestedData.Proofs.Access.Faults
import NestedData.Proofs.Access.Sought

/-!
# Assigning by searches one below the other

This module follows an assignment that searches for a name, below each place found for the
next name, and so on.  Every search goes inside out, so what the later names are searched in
has been searched from farther inside before, and written.  Unless this hides places or adds
some, the assignment overwrites the places that a visit finds and counts the visits.

Main results:

- `Visit.Overwritable.overwritten`: what has been written does not matter to the later names.
- `Action.throughout_assign_key`: a search for a name overwrites what is found if the searches
  below it do.
- `Value.setAt_searches`: an assignment by searches for names overwrites what a visit finds,
  counts the visits, and fails without a change when there are none.
-/

namespace NestedData

namespace Visit

open Value

variable {front rest names : List String} {last name : String} {value other child new : Value}
  {step : Step} {location below : Location}

/-! ## What is found and overwritten -/

/-- Whether searches for names find a place. -/
def seeks (names : List String) (value : Value) (location : Location) : Bool :=
  (sought names value).contains location

theorem seeks_iff : seeks names value location = true ↔ location ∈ sought names value :=
  List.contains_iff_mem

theorem seeks_congr (hsame : sought names value = sought names other) :
    seeks names value = seeks names other := by
  funext location
  rw [seeks, hsame, seeks]

theorem seeks_of_later (hvalue : value.WellFormed) (hrest : rest ≠ [])
    (hlocation : seeks (name :: rest) value location = true) :
    seeks rest value location = true :=
  seeks_iff.mpr (sought_of_later hvalue hrest (seeks_iff.mp hlocation))

/-- What is found below a child of a container. -/
theorem cons_mem_sought_iff (hvalue : value.WellFormed) (hrest : rest ≠ [])
    (hchild : value.target.child? step = some child) :
    step :: below ∈ sought (name :: rest) value ↔
      below ∈ sought (if step = .key name then rest else name :: rest) child := by
  constructor
  · intro hmem
    obtain ⟨other, found, later, hsame, hfound, hbelow⟩ := exists_of_sought_cons hvalue hmem
    obtain ⟨rfl, rfl⟩ := List.cons.inj hsame
    obtain rfl : found = child := Option.some.inj (hfound.symm.trans hchild)
    by_cases hkey : step = .key name
    · rw [if_pos hkey]
      exact hbelow.elim And.right (sought_of_later (hvalue.target.child hchild) hrest)
    · rw [if_neg hkey]
      exact hbelow.resolve_left fun hboth => hkey hboth.1
  · intro hmem
    by_cases hkey : step = .key name
    · subst hkey
      rw [if_pos rfl] at hmem
      exact sought_of_key hchild hmem
    · rw [if_neg hkey] at hmem
      exact sought_of_child (List.cons_ne_nil _ _) hchild hmem

/-- Overwriting what is found in a container is overwriting what is found in its children: the
names after the first in the child of the first name, and all of them in the others. -/
theorem overwrite_seeks (hvalue : value.WellFormed) (htarget : value.target = value)
    (hrest : rest ≠ []) :
    value.overwrite new (seeks (name :: rest) value) =
      value.rebuild fun step child =>
        some (child.overwrite new
          (seeks (if step = .key name then rest else name :: rest) child)) := by
  rw [overwrite_eq_rebuild htarget]
  refine rebuild_congr fun child hmem => congrArg some ?_
  have hchild := (mem_children_iff hvalue.hasDistinctSteps).mp hmem
  have hbelow (below : Location) : seeks (name :: rest) value (child.1 :: below) =
      seeks (if child.1 = .key name then rest else name :: rest) child.2 below := by
    rw [Bool.eq_iff_iff, seeks_iff, seeks_iff]
    exact cons_mem_sought_iff hvalue hrest (by rwa [htarget])
  have hhere : seeks (name :: rest) value [child.1] = false := by
    rw [hbelow, Bool.eq_false_iff, Ne, seeks_iff]
    intro hnil
    exact ne_nil_of_sought (hvalue.child hchild) (by split <;> simp [hrest]) hnil rfl
  rw [overwriteChild, hhere, if_neg Bool.false_ne_true]
  exact overwrite_congr child.2 fun below _ => hbelow below

/-- As many places are found below the child of the first name, and in children, as in a
container. -/
theorem counting_sought (htarget : value.target = value) :
    Tally.counting (sought (name :: rest) value) =
      (Tally.counting (value.children.flatMap fun child => sought (name :: rest) child.2)).add
        (.counting ((value.child? (.key name)).toList.flatMap (sought rest))) := by
  rw [sought_cons, htarget, Tally.counting_append, Tally.add_comm]
  congr 1 <;> exact Tally.counting_flatMap_congr fun child _ => by simp

/-- What searches for names find in a well-formed value may be written, and is settled. -/
structure Overwritable (names : List String) (last : String) (value new : Value) : Prop where
  /-- The value is well-formed. -/
  wellFormed : value.WellFormed
  /-- What is found may be written. -/
  writable : ∀ location ∈ sought names value, value.readOnlyAt location = false
  /-- Writing a place that is found several times hides and adds none. -/
  settled : Settled (sought names value) last new

/-- What is found inside a child may be overwritten, too. -/
theorem Overwritable.inside (hvalue : Overwritable (name :: rest) last value new)
    (hchild : value.target.child? step = some child) :
    Overwritable (name :: rest) last child new where
  wellFormed := hvalue.wellFormed.target.child hchild
  writable location hlocation := by
    have hwell := hvalue.wellFormed.target.child hchild
    rw [← readOnlyAt_cons hchild (ne_nil_of_sought hwell (List.cons_ne_nil _ _) hlocation)]
    exact hvalue.writable _ (sought_of_child (List.cons_ne_nil _ _) hchild hlocation)
  settled := hvalue.settled.of_sublist (sublist_sought_of_child hchild)

/-- Once all names have been searched for in the child of the first name, the others are found
there as before, and may be overwritten. -/
theorem Overwritable.overwritten (hnew : new.WellFormed)
    (hvalue : Overwritable (name :: (front ++ [last])) last value new)
    (hchild : value.target.child? (.key name) = some child) :
    let left := child.overwrite new (seeks (name :: (front ++ [last])) child)
    Overwritable (front ++ [last]) last left new ∧
      sought (front ++ [last]) left = sought (front ++ [last]) child := by
  intro left
  have hrest : front ++ [last] ≠ [] := by simp
  have hwell := hvalue.wellFormed.target.child hchild
  -- What has been written here is found from inside and again from outside, so it is settled.
  have hindifferent := hvalue.settled.indifferent hvalue.wellFormed hrest hchild
    fun location (hlocation : seeks (name :: (front ++ [last])) child location = true) =>
      seeks_iff.mp hlocation
  have hsame : sought (front ++ [last]) left = sought (front ++ [last]) child :=
    sought_overwrite hnew hwell hindifferent
  refine ⟨⟨hwell.overwrite hnew _, fun location hlocation => ?_, ?_⟩, hsame⟩
  · rw [hsame] at hlocation
    rw [readOnlyAt_overwrite child fun above habove =>
      hindifferent.hides above habove location hlocation]
    rw [← readOnlyAt_cons hchild (ne_nil_of_sought hwell hrest hlocation)]
    exact hvalue.writable _ (sought_of_key hchild hlocation)
  · rw [hsame]
    exact hvalue.settled.of_sublist (sublist_sought_of_key hchild)

end Visit

namespace Action

open Value Visit

variable {shaping : Shaping} {new value container : Value} {name last : String}
  {rest front : List String} {edit : Location → Value → Edit} {location : Location}

/-! ## Searches for names -/

/-- An edit overwrites the places where names are found in a value, and counts them. -/
def Overwrites (edit : Location → Value → Edit) (names : List String) (value new : Value) : Prop :=
  ∀ location, edit location value =
    { value := value.overwrite new (seeks names value)
      result := .ok (.counting (sought names value)) }

/-- Where the first name leads to a child, what follows is done in the child. -/
theorem descend_key (edit : Location → Value → Edit) (location : Location)
    (htarget : container.target = container) :
    descend (assign shaping new) (some edit) true false false [.key name] location container =
      match container.child? (.key name) with
      | some child =>
        { value := container.setChild (.key name) (edit (location.child (.key name)) child).value
          result := (edit (location.child (.key name)) child).result }
      | none => .keep container := by
  have hplain (referent : Value) : container ≠ .ref referent :=
    htarget ▸ target_ne_ref container referent
  have hselect : Selection.select
      { operation := (assign shaping new).operation, location, strict := false, create := false,
        searching := true } container (.key name) = .ok ((Segment.key name).steps container) :=
    Selection.select_of_searching rfl rfl rfl container _
  rw [descend_segment (by simp), if_neg Bool.false_ne_true, entered,
    Edit.atTarget_of_not_ref hplain]
  simp only [onward, Option.isSome_none, hselect, steps_key]
  cases hchild : container.child? (.key name) with
  | none => rfl
  | some child =>
    simp only [Option.isSome_some, Option.isNone_some, Bool.false_and, Bool.false_eq_true, if_true,
      if_false, Edit.sequence_cons, Edit.sequence_nil, editChild, hchild, Option.isSome_none,
      descend]
    cases (edit (location.child (.key name)) child).result with
    | error error => rfl
    | ok done => simp [Tally.empty_add]

/-- A search for a name overwrites what is found in a container if it does in its children, and
what follows does in the child of the name. -/
theorem throughoutContainer_assign_key (hcontainer : container.WellFormed)
    (htarget : container.target = container) (hrest : rest ≠ [])
    (hchildren : ∀ child ∈ container.children, Overwrites
      (throughout (descend (assign shaping new) (some edit) true false false [.key name]))
      (name :: rest) child.2 new)
    (hkey : ∀ child, container.child? (.key name) = some child → ∀ location,
      edit location (child.overwrite new (seeks (name :: rest) child)) =
        { value := child.overwrite new (seeks rest child)
          result := .ok (.counting (sought rest child)) }) :
    Overwrites (throughoutContainer
        (descend (assign shaping new) (some edit) true false false [.key name]))
      (name :: rest) container new := by
  intro location
  have hdistinct := hcontainer.hasDistinctSteps
  -- The children come first, the one that the name leads to among them.
  have hinside := sequence_overwrite
    (fun child => throughout (descend (assign shaping new) (some edit) true false false [.key name])
      (location.child child.1) child.2)
    (sought (name :: rest)) hdistinct fun child hchild => hchildren child hchild _
  rw [throughoutContainer, hinside]
  dsimp only
  -- Then the name leads to its child, in which all the names have been searched for by now.
  rw [descend_key edit location (target_rebuild htarget), child?_rebuild,
    overwrite_seeks hcontainer htarget hrest, counting_sought htarget]
  cases hchild : container.child? (.key name) with
  | none =>
    simp only [Option.map_none, Edit.keep, Option.toList_none, List.flatMap_nil, Except.map]
    congr 1
    refine rebuild_congr fun child hmem => ?_
    have hstep := (mem_children_iff hdistinct).mp hmem
    have hother : child.1 ≠ .key name := by
      intro hsame
      rw [hsame, hchild] at hstep
      cases hstep
    rw [if_neg hother]
  | some child =>
    simp only [Option.map_some, hkey child hchild, Option.toList_some, List.flatMap_singleton,
      Except.map]
    congr 1
    rw [setChild_eq_rebuild hdistinct.rebuild (by rw [child?_rebuild, hchild]; rfl),
      rebuild_keep_keep]
    refine rebuild_congr fun other hmem => ?_
    by_cases hsame : other.1 = .key name
    · have hstep := (mem_children_iff hdistinct).mp hmem
      rw [hsame, hchild] at hstep
      rw [if_pos hsame, if_pos hsame, Option.some.inj hstep]
    · rw [if_neg hsame, if_neg hsame]

/-- A search for a name overwrites what is found if the searches below it do. -/
theorem throughout_assign_key (hnew : new.WellFormed)
    (hvalue : Overwritable (name :: (front ++ [last])) last value new)
    (hedit : ∀ value, Overwritable (front ++ [last]) last value new →
      Overwrites edit (front ++ [last]) value new) :
    Overwrites (throughout (descend (assign shaping new) (some edit) true false false [.key name]))
      (name :: (front ++ [last])) value new := by
  induction value using induct_children with
  | hstep value ih =>
    have hrest : front ++ [last] ≠ [] := by simp
    have hwell := hvalue.wellFormed.target
    have hcontainer := throughoutContainer_assign_key hwell
      (target_target value) hrest
      (fun child hmem => ih child hmem
        (hvalue.inside ((mem_children_iff hwell.hasDistinctSteps).mp hmem)))
      (fun child hchild location => by
        obtain ⟨hleft, hsame⟩ := hvalue.overwritten hnew hchild
        rw [hedit _ hleft, seeks_congr hsame, hsame, overwrite_overwrite child fun _ =>
          seeks_of_later (hwell.child hchild) hrest])
    intro location
    rw [throughout_eq, Edit.atTarget_eq, hcontainer location, seeks_congr (sought_target _ value),
      sought_target, overwrite_eq_mapTarget value]
    congr 1
    exact mapTarget_congr rfl

/-- Searches for names, one below the other, overwrite what they find. -/
theorem search_assign (hnew : new.WellFormed)
    (hvalue : Overwritable (front ++ [last]) last value new)
    (hedit : search (assign shaping new) (searchesFor (front ++ [last])) = some edit) :
    Overwrites edit (front ++ [last]) value new := by
  induction front generalizing value edit with
  | nil =>
    obtain rfl := Option.some.inj hedit
    intro location
    have hfinds : finds (.key last) value = seeks [last] value := by
      funext place
      rw [Bool.eq_iff_iff, seeks_iff, finds, decide_eq_true_iff]
      rfl
    have hlast : (.key last : Segment) ≠ .root := by simp
    rw [List.nil_append, sought, Tally.counting_map, ← hfinds]
    exact throughout_assign hlast hvalue.wellFormed
      (fun place hplace => hvalue.writable place (of_decide_eq_true hplace)) location
  | cons name front ih =>
    obtain ⟨inner, hinner⟩ : ∃ inner,
        search (assign shaping new) (searchesFor (front ++ [last])) = some inner := by
      cases front <;> exact ⟨_, rfl⟩
    have hsearch : throughout (descend (assign shaping new) (some inner) true false false
        [.key name]) = edit := by
      rw [← hinner]
      exact Option.some.inj hedit
    rw [← hsearch]
    exact throughout_assign_key hnew hvalue fun value hvalue => ih hvalue hinner

end Action

namespace Value

variable {root new : Value} {front : List String} {last : String}

/-! ## Assignments by searches for names -/

/-- A visit by searches for names sees the places that they find. -/
theorem visits_searches (hroot : root.WellFormed) (names : List String) :
    let path : Path := { first := [.root], searches := Visit.searchesFor names }
    (root.visits path).outcome = .ok () ∧
      (root.visits path).collected.map Prod.fst = Visit.sought names root := by
  intro path
  have hfaultless (steps : Location) {value : Value} :
      ¬SearchFaults (Visit.searchesFor names) value steps := by
    intro hfault
    induction names generalizing value steps with
    | nil => cases hfault
    | cons name rest ih =>
      cases hfault with
      | here hrun hfault =>
        cases hfault with
        | here hselect =>
          rw [Selection.select_of_searching rfl rfl rfl] at hselect
          cases hselect
        | step hstep hchild hrest => cases hrest
      | later hrun hown hlater => exact ih _ hlater
  have hok : (root.visits path).outcome = .ok () := by
    refine outcome_visits hroot (List.not_mem_nil) (fun group hgroup => ?_) (.inr rfl) ?_
    · obtain ⟨name, _, rfl⟩ := List.mem_map.mp hgroup
      simp
    · rintro steps (hfault | ⟨_, _, _, _, hfault, _⟩)
      · cases hfault
      · exact hfaultless _ hfault
  refine ⟨hok, ?_⟩
  rw [collected_visits hok]
  exact Visit.sought_target names root

/-- An assignment that searches for names one below the other, in a value without fields that
may not be written.  Suppose that below a place that a visit sees several times it sees no
other, and that the last name is not found in what is written at such a place.  If a visit sees
nothing, the assignment fails and changes nothing; otherwise it overwrites what the visit sees,
and counts the visits. -/
theorem setAt_searches (hroot : root.WellFormed)
    (hwritable : ∀ location, root.readOnlyAt location = false) (hnew : new.WellFormed)
    (front : List String) (last : String) (shaping : Shaping) :
    let path : Path := { first := [.root], searches := Visit.searchesFor (front ++ [last]) }
    let seen := (root.visits path).collected.map Prod.fst
    Visit.Settled seen last new →
    (root.visits path).outcome = .ok () ∧
    (seen = [] → ∃ error, root.setAt path new shaping = (root, .error error)) ∧
    (seen ≠ [] → root.setAt path new shaping =
      (root.overwrite new fun location => decide (location ∈ seen), .ok seen.length)) := by
  intro path seen hsettled
  obtain ⟨hok, hseen⟩ : (root.visits path).outcome = .ok () ∧
      seen = Visit.sought (front ++ [last]) root := visits_searches hroot (front ++ [last])
  refine ⟨hok, ?_⟩
  obtain ⟨edit, hedit⟩ : ∃ edit, Action.search (Action.assign shaping new) path.searches =
      some edit := by
    cases front <;> exact ⟨_, rfl⟩
  have hoverwritable : Visit.Overwritable (front ++ [last]) last root new :=
    ⟨hroot, fun location _ => hwritable location, hseen ▸ hsettled⟩
  have hassigned : edit [] root =
      { value := root.overwrite new fun location => decide (location ∈ seen)
        result := .ok (.counting seen) } := by
    rw [Action.search_assign hnew hoverwritable hedit [], ← hseen]
    congr 2
    funext location
    rw [Bool.eq_iff_iff, Visit.seeks_iff, hseen, decide_eq_true_iff]
  have hset : root.setAt path new shaping =
      (root.overwrite new fun location => decide (location ∈ seen),
        if seen = [] then .error
          { operation := .set, path,
            value := root.overwrite new fun location => decide (location ∈ seen),
            obstacle := .lack .nothingMatched }
        else .ok seen.length) := by
    have hfirst : path.first = [.root] := rfl
    rw [setAt, Action.run, hedit, hfirst, Action.descend, Action.descend, hassigned]
    generalize seen = places
    cases places <;> rfl
  refine ⟨fun hnothing => ?_, fun hsome => ?_⟩
  · rw [hset, if_pos hnothing, overwrite_nothing root fun location _ => by simp [hnothing]]
    exact ⟨_, rfl⟩
  · rw [hset, if_neg hsome]

/-- A place seen once below each of two others is written twice and counted twice. -/
theorem setAt_searches_twice :
    let root : Value := .map [("x", .map [("x", .map [("y", .int 1)]), ("z", .int 2)])]
    let path : Path := { first := [.root], searches := Visit.searchesFor ["x", "y"] }
    let seen := (root.visits path).collected.map Prod.fst
    let after : Value := .map [("x", .map [("x", .map [("y", .int 5)]), ("z", .int 2)])]
    Path.parse "$..x..y" = .ok path ∧
      seen = [[.key "x", .key "x", .key "y"], [.key "x", .key "x", .key "y"]] ∧
      root.setAt path (.int 5) .plain = (after, .ok 2) ∧ 2 = seen.length := by
  intro root path seen after
  have hroot : root.WellFormed := by
    simp [root, Entries.keys]
  have hwritable : ∀ location, root.readOnlyAt location = false := by
    have hint (number : Int64) := readOnlyAt_eq_false (.int number) (fun _ => rfl)
      (by simp [target, children])
    have hinner := readOnlyAt_eq_false (.map [("y", .int 1)]) (fun _ => rfl)
      (by simp [target, children, hint])
    have houter := readOnlyAt_eq_false (.map [("x", .map [("y", .int 1)]), ("z", .int 2)])
      (fun _ => rfl) (by simp [target, children, hint, hinner])
    exact readOnlyAt_eq_false root (fun _ => rfl) (by simp [root, target, children, houter])
  have hseen : (root.visits path).collected.map Prod.fst =
      [[.key "x", .key "x", .key "y"], [.key "x", .key "x", .key "y"]] := by
    cbv
  have hset : root.setAt path (.int 5) .plain = (after, .ok 2) := by
    cbv
  have hsettled : Visit.Settled seen "y" (.int 5) := by
    refine ⟨fun above habove location hlocation _ => ?_, fun _ _ => by cbv⟩
    have hthere := habove.mem
    simp only [seen, hseen, List.mem_cons, List.not_mem_nil, or_false, or_self] at hthere hlocation
    rw [hthere, hlocation]
  obtain ⟨_, _, hsome⟩ := setAt_searches hroot hwritable (.int 5) ["x"] "y" .plain hsettled
  have hwritten : root.setAt path (.int 5) .plain = (_, .ok seen.length) :=
    hsome fun hnothing => List.cons_ne_nil _ _ (hseen.symm.trans hnothing)
  rw [hset] at hwritten
  exact ⟨by cbv, hseen, hset, Except.ok.inj (Prod.mk.inj hwritten).2⟩

/-- What has been written is searched again from farther outside, and places below what has been
written are no longer found there. -/
theorem setAt_searches_miscounts :
    let nested : Value := .map [("x", .map [("x", .map [("x", .int 1)])])]
    let again : Path := { first := [.root], searches := Visit.searchesFor ["x", "x"] }
    let hidden : Value := .map [("a", .map [("a", .map [("b", .map [("b", .int 1)])])])]
    let lost : Path := { first := [.root], searches := Visit.searchesFor ["a", "b"] }
    Path.parse "$..x..x" = .ok again ∧ Path.parse "$..a..b" = .ok lost ∧
      (∀ location, nested.readOnlyAt location = false ∧ hidden.readOnlyAt location = false) ∧
      (nested.visits again).collected.length = 3 ∧
      nested.setAt again (.map [("x", .int 0)]) .plain =
        (.map [("x", .map [("x", .map [("x", .int 0)])])], .ok 4) ∧
      (hidden.visits lost).collected.length = 4 ∧
      (hidden.setAt lost (.int 5) .plain).2 = .ok 3 := by
  intro nested again hidden lost
  have hint (number : Int64) := readOnlyAt_eq_false (.int number) (fun _ => rfl)
    (by simp [target, children])
  have hentry (name : String) {value : Value}
      (hvalue : ∀ location, value.readOnlyAt location = false) :
      ∀ location, (Value.map [(name, value)]).readOnlyAt location = false :=
    readOnlyAt_eq_false _ (fun _ => rfl) (by simp [target, children, hvalue])
  have hnested := hentry "x" (hentry "x" (hentry "x" (hint 1)))
  have hhidden := hentry "a" (hentry "a" (hentry "b" (hentry "b" (hint 1))))
  exact ⟨by cbv, by cbv, fun location => ⟨hnested location, hhidden location⟩, by cbv, by cbv,
    by cbv, by cbv⟩

end Value

end NestedData
