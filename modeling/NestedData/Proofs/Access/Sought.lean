import NestedData.Proofs.Access.Searching

/-!
# Names searched for one below the other

This module describes the places found by searching for a name, then below each place found
for the next name, and so on.  A place is found once for every way of cutting its location
at the names, so it may be found several times.  What is searched may have been overwritten
already: if no name is below what has been written, and nothing is found inside it, the same
places are found again.

Main results:

- `Visit.sought_cons`: what is found is found below a child of the first name, or inside a
  child.
- `Visit.sought_of_later`: the names after the first are found wherever all of them are.
- `Visit.sought_overwrite`: overwriting does not matter where it hides and adds nothing.
-/

namespace NestedData

namespace Value

variable {new : Value} {chosen : Location → Bool} {location : Location}

/-- Unless the place is below a chosen one, whether it may be written does not change. -/
theorem readOnlyAt_overwrite (value : Value)
    (hbelow : ∀ above, chosen above = true → above <+: location → above = location) :
    (value.overwrite new chosen).readOnlyAt location = value.readOnlyAt location := by
  induction location generalizing value chosen with
  | nil => rfl
  | cons step rest ih =>
    cases rest with
    | nil =>
      simp only [readOnlyAt, target_overwrite, overwrite_eq_rebuild (target_target value),
        isReadOnly_rebuild]
    | cons next later =>
      have hspared : chosen [step] = false := by
        by_contra hchosen
        have hsame := hbelow [step] (eq_true_of_ne_false hchosen) (by simp)
        cases hsame
      simp only [readOnlyAt, child?_overwrite]
      cases value.target.child? step with
      | none => rfl
      | some child =>
        simp only [Option.map_some, overwriteChild, hspared, Bool.false_eq_true, if_false]
        refine ih child fun above hchosen hbegins => ?_
        have hsame := hbelow (step :: above) hchosen (List.cons_prefix_cons.mpr ⟨rfl, hbegins⟩)
        exact (List.cons.inj hsame).2

end Value

namespace Visit

open Value

variable {name last : String} {names rest : List String} {value child new : Value} {step : Step}
  {location : Location} {chosen : Location → Bool}

/-- The searches for names, one below the other. -/
def searchesFor (names : List String) : List (List Segment) :=
  names.map fun name => [.key name]

/-- The places found by searching for names, one below the other, in the order of the
traversal. -/
def sought (names : List String) (value : Value) : List Location :=
  (found (searchesFor names) value).map Prod.fst

@[simp]
theorem sought_target (names : List String) (value : Value) :
    sought names value.target = sought names value := by
  cases names with
  | nil => rfl
  | cons name rest => rw [sought, sought, searchesFor, List.map_cons, found_target]

theorem steps_key (name : String) (container : Value) :
    (Segment.key name).steps container =
      if (container.child? (.key name)).isSome then [.key name] else [] := by
  cases container with
  | map entries => rw [Segment.steps_map]; rfl
  | record aggregate => rw [Segment.steps_record]; rfl
  | list sequence => rw [Segment.steps_list]; rfl
  | _ => rfl

/-- The first name is found as a child, below which the others are searched for, or inside a
child. -/
theorem sought_cons (name : String) (rest : List String) (value : Value) :
    sought (name :: rest) value =
      ((value.target.child? (.key name)).toList.flatMap fun child =>
        (sought rest child).map (.key name :: ·)) ++
      value.target.children.flatMap fun child =>
        (sought (name :: rest) child.2).map (child.1 :: ·) := by
  have hbelow (step : Step) (trace : Trace) :
      (trace.map (Location.below [step])).map Prod.fst = (trace.map Prod.fst).map (step :: ·) := by
    simp [Function.comp_def, Location.below]
  rw [sought, searchesFor, List.map_cons, found_cons, List.map_append, List.map_flatMap]
  congr 1
  · rw [reach_segment (by simp), List.map_flatMap, steps_key]
    cases hchild : value.target.child? (.key name) with
    | none => rfl
    | some child =>
      rw [Option.isSome_some, if_pos rfl, List.flatMap_singleton, Option.toList_some,
        List.flatMap_singleton, hbelow, hchild]
      exact congrArg (List.map _) (sought_target rest child)
  · refine List.flatMap_congr fun child _ => ?_
    exact hbelow child.1 (found (searchesFor (name :: rest)) child.2)

theorem sought_of_key (hchild : value.target.child? (.key name) = some child)
    (hlocation : location ∈ sought rest child) :
    .key name :: location ∈ sought (name :: rest) value := by
  rw [sought_cons, hchild]
  exact List.mem_append_left _ (by simpa using hlocation)

theorem sought_of_child (hnames : names ≠ []) (hchild : value.target.child? step = some child)
    (hlocation : location ∈ sought names child) : step :: location ∈ sought names value := by
  obtain ⟨name, rest, rfl⟩ := List.exists_cons_of_ne_nil hnames
  rw [sought_cons]
  refine List.mem_append_right _ (List.mem_flatMap.mpr ⟨(step, child), ?_, ?_⟩)
  · exact mem_children_of_child? hchild
  · exact List.mem_map_of_mem hlocation

/-- A place found is one step and what is found below it or inside the child there. -/
theorem exists_of_sought_cons (hvalue : value.WellFormed)
    (hlocation : location ∈ sought (name :: rest) value) :
    ∃ step child below, location = step :: below ∧ value.target.child? step = some child ∧
      ((step = .key name ∧ below ∈ sought rest child) ∨ below ∈ sought (name :: rest) child) := by
  rw [sought_cons, List.mem_append] at hlocation
  rcases hlocation with hkey | hinside
  · obtain ⟨child, hchild, hmem⟩ := List.mem_flatMap.mp hkey
    obtain ⟨below, hbelow, rfl⟩ := List.mem_map.mp hmem
    exact ⟨.key name, child, below, rfl, by simpa using hchild, .inl ⟨rfl, hbelow⟩⟩
  · obtain ⟨⟨step, child⟩, hchild, hmem⟩ := List.mem_flatMap.mp hinside
    obtain ⟨below, hbelow, rfl⟩ := List.mem_map.mp hmem
    have hstep := (mem_children_iff hvalue.target.hasDistinctSteps).mp hchild
    exact ⟨step, child, below, rfl, hstep, .inr hbelow⟩

theorem ne_nil_of_sought (hvalue : value.WellFormed) (hnames : names ≠ [])
    (hlocation : location ∈ sought names value) : location ≠ [] := by
  obtain ⟨name, rest, rfl⟩ := List.exists_cons_of_ne_nil hnames
  obtain ⟨step, child, below, rfl, _⟩ := exists_of_sought_cons hvalue hlocation
  exact List.cons_ne_nil step below

/-- The names after the first are found wherever all of them are. -/
theorem sought_of_later (hvalue : value.WellFormed) (hrest : rest ≠ [])
    (hlocation : location ∈ sought (name :: rest) value) : location ∈ sought rest value := by
  induction value using induct_children generalizing location with
  | hstep value ih =>
    obtain ⟨step, child, below, rfl, hchild, hfound⟩ := exists_of_sought_cons hvalue hlocation
    refine sought_of_child hrest hchild (hfound.elim And.right fun hbelow => ?_)
    exact ih (step, child) (mem_children_of_child? hchild) (hvalue.target.child hchild) hbelow

/-- Where the last name is not found, names that end with it are not. -/
theorem sought_eq_nil (hvalue : value.WellFormed) (hlast : sought [last] value = [])
    (front : List String) : sought (front ++ [last]) value = [] := by
  induction front with
  | nil => exact hlast
  | cons name front ih =>
    rw [List.eq_nil_iff_forall_not_mem] at ih ⊢
    exact fun location hlocation => ih location (sought_of_later hvalue (by simp) hlocation)

/-! ## Searching what has been overwritten -/

/-- Overwriting the chosen places does not matter to a search that finds these places, for
names that end with the last one: it hides none of them, and adds none. -/
structure Indifferent (found : List Location) (last : String) (new : Value)
    (chosen : Location → Bool) : Prop where
  /-- Nothing that is found is below a chosen place. -/
  hides : ∀ above, chosen above = true → ∀ location ∈ found, above <+: location → above = location
  /-- Where a place is chosen, the last name is not found in what is written. -/
  adds : ∀ above, chosen above = true → sought [last] new = []

variable {front : List String} {found : List Location}

/-- To what is found below a step, what is overwritten there does not matter either. -/
theorem Indifferent.below {above : List Location} (habove : Indifferent above last new chosen)
    (hfound : ∀ location ∈ found, step :: location ∈ above) :
    Indifferent found last new fun below => chosen (step :: below) where
  hides first hchosen location hlocation hbegins := by
    have hsame := habove.hides _ hchosen _ (hfound location hlocation)
      (List.cons_prefix_cons.mpr ⟨rfl, hbegins⟩)
    exact (List.cons.inj hsame).2
  adds first hchosen := habove.adds _ hchosen

/-- A child that has been overwritten is searched as it was before. -/
theorem sought_overwriteChild {above : List Location} (hnew : new.WellFormed)
    (hchild : child.WellFormed) (habove : Indifferent above last new chosen)
    (hfound : ∀ location ∈ sought (front ++ [last]) child, step :: location ∈ above)
    (hinside : sought (front ++ [last]) (child.overwrite new fun below => chosen (step :: below)) =
      sought (front ++ [last]) child) :
    sought (front ++ [last]) (overwriteChild new chosen step child) =
      sought (front ++ [last]) child := by
  unfold overwriteChild
  split
  · rename_i hchosen
    have hnothing : sought (front ++ [last]) child = [] := by
      rw [List.eq_nil_iff_forall_not_mem]
      intro location hlocation
      have hhere := habove.hides [step] hchosen _ (hfound location hlocation) (by simp)
      exact ne_nil_of_sought hchild (by simp) hlocation (List.cons.inj hhere).2.symm
    rw [hnothing, ← sought_target, target_assign, sought_target]
    exact sought_eq_nil hnew (habove.adds _ hchosen) front
  · exact hinside

/-- What has been overwritten is searched as it was before if its children are. -/
theorem sought_overwrite_of_children
    (hkey : ∀ child, value.target.child? (.key name) = some child →
      sought rest (overwriteChild new chosen (.key name) child) = sought rest child)
    (hinside : ∀ child ∈ value.target.children,
      sought (name :: rest) (overwriteChild new chosen child.1 child.2) =
        sought (name :: rest) child.2) :
    sought (name :: rest) (value.overwrite new chosen) = sought (name :: rest) value := by
  have hchildren : (value.overwrite new chosen).target.children =
      value.target.children.map fun child =>
        (child.1, overwriteChild new chosen child.1 child.2) := by
    rw [target_overwrite, overwrite_eq_rebuild (target_target value), children_rebuild_keep]
  rw [sought_cons, sought_cons, child?_overwrite, hchildren, List.flatMap_map]
  congr 1
  · cases hchild : value.target.child? (.key name) with
    | none => rfl
    | some child => simp [hkey child hchild]
  · exact List.flatMap_congr fun child hchild => by rw [hinside child hchild]

/-- Overwriting does not matter if it does not to the search below children of the first
name. -/
theorem sought_overwrite_of_key (hnames : front ++ [last] = name :: rest) (hnew : new.WellFormed)
    (hkey : ∀ {value child : Value} {chosen : Location → Bool}, value.WellFormed →
      Indifferent (sought (front ++ [last]) value) last new chosen →
      value.target.child? (.key name) = some child →
      sought rest (overwriteChild new chosen (.key name) child) = sought rest child)
    (hvalue : value.WellFormed)
    (hsame : Indifferent (sought (front ++ [last]) value) last new chosen) :
    sought (front ++ [last]) (value.overwrite new chosen) = sought (front ++ [last]) value := by
  induction value using induct_children generalizing chosen with
  | hstep value ih =>
    rw [hnames]
    refine sought_overwrite_of_children (fun child hchild => hkey hvalue hsame hchild) ?_
    rintro ⟨step, child⟩ hmem
    have hchild := (mem_children_iff hvalue.target.hasDistinctSteps).mp hmem
    have hwell := hvalue.target.child hchild
    have hfound : ∀ location ∈ sought (front ++ [last]) child,
        step :: location ∈ sought (front ++ [last]) value :=
      fun location => sought_of_child (by simp) hchild
    rw [← hnames]
    exact sought_overwriteChild hnew hwell hsame hfound (ih _ hmem hwell (hsame.below hfound))

/-- Overwriting does not matter where it hides and adds nothing. -/
theorem sought_overwrite (hnew : new.WellFormed) (hvalue : value.WellFormed)
    (hsame : Indifferent (sought (front ++ [last]) value) last new chosen) :
    sought (front ++ [last]) (value.overwrite new chosen) = sought (front ++ [last]) value := by
  -- By induction on the names: below the child of the first one, fewer are left.
  induction front generalizing value chosen with
  | nil => exact sought_overwrite_of_key rfl hnew (fun _ _ _ => rfl) hvalue hsame
  | cons name front ih =>
    refine sought_overwrite_of_key rfl hnew ?_ hvalue hsame
    intro value child chosen hvalue hsame hchild
    have hwell := hvalue.target.child hchild
    have hfound : ∀ location ∈ sought (front ++ [last]) child,
        .key name :: location ∈ sought (name :: (front ++ [last])) value :=
      fun location => sought_of_key hchild
    exact sought_overwriteChild hnew hwell hsame hfound (ih hwell (hsame.below hfound))

/-! ## Places found several times -/

/-- Where a place is found several times, nothing else is found below it, and the last name is
not found in what is written. -/
structure Settled (found : List Location) (last : String) (new : Value) : Prop where
  /-- Nothing is found below a place that is found several times. -/
  hides : ∀ above, List.Duplicate above found → ∀ location ∈ found,
    above <+: location → above = location
  /-- Where a place is found several times, the last name is not found in what is written. -/
  adds : ∀ above, List.Duplicate above found → sought [last] new = []

theorem duplicate_of_sublist {above : List Location} (hduplicate : List.Duplicate location found)
    (hsublist : (found.map (step :: ·)).Sublist above) :
    List.Duplicate (step :: location) above := by
  rw [List.duplicate_iff_sublist] at hduplicate ⊢
  exact (hduplicate.map (step :: ·)).trans hsublist

/-- What is found below a step is settled if all that is found is. -/
theorem Settled.of_sublist {above : List Location} (habove : Settled above last new)
    (hsublist : (found.map (step :: ·)).Sublist above) : Settled found last new where
  hides first hfirst location hlocation hbegins := by
    have hfound := hsublist.mem (List.mem_map_of_mem hlocation)
    have hsame := habove.hides _ (duplicate_of_sublist hfirst hsublist) _ hfound
      (List.cons_prefix_cons.mpr ⟨rfl, hbegins⟩)
    exact (List.cons.inj hsame).2
  adds first hfirst := habove.adds _ (duplicate_of_sublist hfirst hsublist)

theorem sublist_sought_of_child (hchild : value.target.child? step = some child) :
    ((sought (name :: rest) child).map (step :: ·)).Sublist (sought (name :: rest) value) := by
  rw [sought_cons name rest value, List.flatMap_def]
  refine (List.sublist_flatten_of_mem ?_).trans (List.sublist_append_right _ _)
  exact List.mem_map.mpr ⟨(step, child), mem_children_of_child? hchild, rfl⟩

theorem sublist_sought_of_key (hchild : value.target.child? (.key name) = some child) :
    ((sought rest child).map (.key name :: ·)).Sublist (sought (name :: rest) value) := by
  rw [sought_cons, hchild, Option.toList_some, List.flatMap_singleton]
  exact List.sublist_append_left _ _

/-- What is found inside the child of the first name is found below it, too. -/
theorem duplicate_of_key (hvalue : value.WellFormed)
    (hchild : value.target.child? (.key name) = some child) (hrest : rest ≠ [])
    (hlocation : location ∈ sought (name :: rest) child) :
    List.Duplicate (.key name :: location) (sought (name :: rest) value) := by
  have hlater := sought_of_later (hvalue.target.child hchild) hrest hlocation
  rw [List.duplicate_iff_sublist, sought_cons, hchild, Option.toList_some, List.flatMap_singleton]
  refine List.Sublist.append (List.singleton_sublist.mpr (List.mem_map_of_mem hlater))
    (List.singleton_sublist.mpr (List.mem_flatMap.mpr ⟨(.key name, child), ?_, ?_⟩))
  · exact mem_children_of_child? hchild
  · exact List.mem_map_of_mem hlocation

/-- What has been overwritten inside the child of the first name does not matter to the search
below it. -/
theorem Settled.indifferent (hvalue : value.WellFormed) (hrest : rest ≠ [])
    (hsettled : Settled (sought (name :: rest) value) last new)
    (hchild : value.target.child? (.key name) = some child)
    (hchosen : ∀ location, chosen location = true → location ∈ sought (name :: rest) child) :
    Indifferent (sought rest child) last new chosen where
  hides above habove location hlocation hbegins := by
    have htwice := duplicate_of_key hvalue hchild hrest (hchosen above habove)
    have hsame := hsettled.hides _ htwice _ (sought_of_key hchild hlocation)
      (List.cons_prefix_cons.mpr ⟨rfl, hbegins⟩)
    exact (List.cons.inj hsame).2
  adds above habove :=
    hsettled.adds _ (duplicate_of_key hvalue hchild hrest (hchosen above habove))

end Visit

end NestedData
