import NestedData.Proofs.Value.Pruning

/-!
# Pruning what has been pruned

This module looks into values of which children have been pruned away already.  An entry
that is doomed is gone, and a doomed field or element of a list of fixed length is empty;
as long as no element of a growable list itself is gone, steps still lead where they led.

Main results:

- `prune_of_zeroed`, `vacate_of_zeroed`: nothing is deleted from an empty value.
- `prune_congr_of_shadowed`: what is doomed below a doomed place does not matter.
- `prune_eq_prune_vacate`: the doomed children may be vacated before the rest is pruned.
- `child?_prune_of_spared`, `steps_prune_eq_filter`, `setChild_prune_of_spared`: what steps
  lead to, what segments pick, and putting back one more pruned child.
-/

namespace NestedData

namespace Value

variable {value child : Value} {doomed more : Location → Bool} {step : Step}

/-! ## Empty values -/

/-- The children of an empty value are empty. -/
theorem zeroed_of_mem_children (hzeroed : value.zeroed = value) {child : Step × Value}
    (hchild : child ∈ value.children) : child.2.zeroed = child.2 := by
  rw [← hzeroed] at hchild
  cases value with
  | record aggregate =>
    simp only [zeroed, children, List.mem_map] at hchild
    obtain ⟨field, hfield, rfl⟩ := hchild
    obtain ⟨other, _, rfl⟩ := List.mem_map.mp (List.mem_filter.mp hfield).1
    exact zeroed_zeroed other.value
  | list sequence =>
    rcases sequence with ⟨extent, items⟩
    cases extent with
    | growable => simp [zeroed, children, Sequence.growable] at hchild
    | fixed =>
      simp only [zeroed, children, Sequence.fixed, List.mem_map] at hchild
      obtain ⟨slot, hslot, rfl⟩ := hchild
      have hitem := List.fst_mem_of_mem_zipIdx hslot
      rw [Array.toList_map] at hitem
      obtain ⟨item, _, hsame⟩ := List.mem_map.mp hitem
      rw [← hsame, zeroed_zeroed]
  | _ => simp [zeroed, children] at hchild

/-- A change that leaves empty children as they are leaves an empty value as it is. -/
theorem rebuild_of_zeroed {f : Step → Value → Option Value} (hzeroed : value.zeroed = value)
    (hempty : ∀ child ∈ value.children, (f child.1 child.2).getD child.2 = child.2) :
    value.rebuild f = value := by
  have hkept (hmap : ∀ entries, value ≠ .map entries) (hfixed : value.isGrowable = false) :
      value.rebuild f = value := by
    rw [rebuild_getD hmap hfixed]
    refine (rebuild_congr fun child hchild => ?_).trans (rebuild_id value)
    rw [zeroed_of_mem_children hzeroed hchild, hempty child hchild]
  cases value with
  | map entries =>
    have hnothing : entries = [] := by simpa [zeroed, eq_comm] using hzeroed
    rw [hnothing]
    rfl
  | list sequence =>
    rcases sequence with ⟨extent, items⟩
    cases extent with
    | growable =>
      have hnothing : items = #[] := by simpa [zeroed, Sequence.growable, eq_comm] using hzeroed
      rw [hnothing]
      rfl
    | fixed => exact hkept (by simp) rfl
  | _ => exact hkept (by simp) rfl

/-- Nothing is vacated in an empty value. -/
theorem vacate_of_zeroed (hzeroed : value.zeroed = value) (gone : Step → Bool) :
    value.vacate gone = value := by
  refine rebuild_of_zeroed hzeroed fun child _ => ?_
  cases gone child.1 <;> rfl

/-- Nothing is pruned from an empty value. -/
theorem prune_of_zeroed (hzeroed : value.zeroed = value) (doomed : Location → Bool) :
    value.prune doomed = value := by
  induction value using induct_children generalizing doomed with
  | hstep value ih =>
    cases htarget : value with
    | ref referent => simp [htarget, zeroed] at hzeroed
    | _ =>
      rw [← htarget]
      have hvalue : value.target = value := by
        rw [htarget]
        rfl
      rw [prune_eq_rebuild hvalue]
      refine rebuild_of_zeroed hzeroed fun child hchild => ?_
      unfold pruneChild
      split
      · rfl
      · have hempty := zeroed_of_mem_children hzeroed hchild
        rw [Option.getD_some, ih child (by rwa [hvalue]) hempty]

/-- What is left of a well-formed value when it is emptied is well-formed. -/
theorem WellFormed.zeroed (hvalue : value.WellFormed) : value.zeroed.WellFormed := by
  induction hvalue with
  | @list sequence hitems ih =>
    rcases sequence with ⟨extent, items⟩
    cases extent with
    | growable => simp [Value.zeroed, Sequence.growable]
    | fixed => simpa [Value.zeroed, Sequence.fixed] using ih
  | @record aggregate hnames hvalues ih =>
    simpa [Value.zeroed, Record.names, Function.comp_def] using ⟨hnames, ih⟩
  | map hkeys hvalues => simp [Value.zeroed, Entries.keys]
  | _ => simp [Value.zeroed]

/-! ## Vacated children -/

theorem target_vacate {gone : Step → Bool} (hvalue : value.target = value) :
    (value.vacate gone).target = value.vacate gone :=
  target_rebuild hvalue

theorem vacate_eq_rebuild (hmap : ∀ entries, value ≠ .map entries)
    (hfixed : value.isGrowable = false) (gone : Step → Bool) :
    value.vacate gone =
      value.rebuild fun step child => some (if gone step then child.zeroed else child) := by
  rw [vacate, rebuild_getD hmap hfixed]
  refine rebuild_congr fun child _ => ?_
  split <;> rfl

theorem get?_filter_of_gone {gone : Step → Bool} {name : String} (hgone : gone (.key name) = true)
    (entries : Entries Value) :
    Entries.get? (entries.filter fun entry => !gone (.key entry.1)) name = none := by
  rw [Option.eq_none_iff_forall_ne_some]
  intro found hfound
  have hmem := (List.mem_filter.mp (Entries.mem_of_get? hfound)).2
  simp [hgone] at hmem

/-- What is left of a child that is vacated is the emptied child. -/
theorem exists_of_child?_vacate {gone : Step → Bool} (hfixed : value.isGrowable = false)
    (hgone : gone step = true) (hchild : (value.vacate gone).child? step = some child) :
    ∃ old, value.child? step = some old ∧ child = old.zeroed := by
  have hempty (hmap : ∀ entries, value ≠ .map entries) :
      ∃ old, value.child? step = some old ∧ child = old.zeroed := by
    rw [vacate_eq_rebuild hmap hfixed, child?_rebuild] at hchild
    obtain ⟨old, hold, rfl⟩ := Option.map_eq_some_iff.mp hchild
    exact ⟨old, hold, if_pos hgone⟩
  cases value with
  | map entries =>
    cases step with
    | index position => cases hchild
    | key name =>
      rw [vacate_map, child?, get?_filter_of_gone hgone] at hchild
      cases hchild
  | _ => exact hempty (by simp)

/-- Of the entries that a segment picks from a map, it picks those that are left. -/
theorem steps_filter (gone : Step → Bool) (segment : Segment) (entries : Entries Value) :
    let left := entries.filter fun entry => !gone (.key entry.1)
    segment.steps (.map left) =
      (segment.steps (.map entries)).filter fun step => ((Value.map left).child? step).isSome := by
  intro left
  have hget (name : String) : Entries.get? left name =
      if gone (.key name) then none else Entries.get? entries name := by
    split
    · exact get?_filter_of_gone ‹_› entries
    · rename_i hstays
      exact get?_filter (by simpa using hstays) entries
  have hthere (name : String) : ((Value.map left).child? (.key name)).isSome =
      Entries.contains left name := rfl
  have hsubset {name : String} (hpresent : Entries.contains left name = true) :
      Entries.contains entries name = true := by
    rw [Entries.contains, hget] at hpresent
    split at hpresent
    · cases hpresent
    · exact hpresent
  have hone (name : String) : (if Entries.contains left name then [Step.key name] else []) =
      (if Entries.contains entries name then [Step.key name] else []).filter
        fun step => ((Value.map left).child? step).isSome := by
    cases hpresent : Entries.contains left name with
    | true => simp [hsubset hpresent, hthere, hpresent]
    | false =>
      rw [if_neg Bool.false_ne_true]
      split <;> simp [hthere, hpresent]
  rw [Segment.steps_map, Segment.steps_map]
  cases segment with
  | key name => exact hone name
  | index position => exact hone _
  | union selectors =>
    rw [List.filter_map, List.filter_filter]
    refine congrArg (List.map Step.key) (List.filter_congr fun name _ => ?_)
    rw [Function.comp_apply, hthere]
    cases hpresent : Entries.contains left name with
    | true => rw [hsubset hpresent, Bool.and_self]
    | false => rw [Bool.false_and]
  | wildcard =>
    have hkeys : Entries.keys left =
        (Entries.keys entries).filter fun name => !gone (.key name) := by
      rw [Entries.keys, Entries.keys, List.filter_map]
      rfl
    rw [List.filter_map, hkeys]
    refine congrArg (List.map Step.key) (List.filter_congr fun name hname => ?_)
    have hpresent := (Entries.contains_iff_mem_keys entries name).mpr hname
    rw [Function.comp_apply, child?, hget]
    cases gone (.key name) with
    | true => rfl
    | false => exact hpresent.symm
  | _ => rfl

/-- A segment picks the children that it picked, as far as they are still there. -/
theorem steps_vacate (hvalue : value.WellFormed) (hfixed : value.isGrowable = false)
    (gone : Step → Bool) (segment : Segment) :
    segment.steps (value.vacate gone) =
      (segment.steps value).filter fun step => ((value.vacate gone).child? step).isSome := by
  have hall (hmap : ∀ entries, value ≠ .map entries) : segment.steps (value.vacate gone) =
      (segment.steps value).filter fun step => ((value.vacate gone).child? step).isSome := by
    rw [vacate_eq_rebuild hmap hfixed, steps_rebuild, eq_comm, List.filter_eq_self]
    intro step hstep
    rw [child?_rebuild, Option.isSome_map]
    exact ((Segment.mem_steps_iff hvalue).mp hstep).1
  cases value with
  | map entries =>
    rw [vacate_map]
    exact steps_filter gone segment entries
  | _ => exact hall (by simp)

/-! ## Doomed children -/

/-- What is doomed below a doomed place does not matter. -/
theorem prune_congr_of_shadowed {other : Location → Bool} (value : Value)
    (hsame : ∀ location, location ≠ [] → (∀ above, above ≠ [] → above <+: location →
      above ≠ location → doomed above = false) → doomed location = other location) :
    value.prune doomed = value.prune other := by
  induction value using induct_children generalizing doomed other with
  | hstep value ih =>
    rw [prune_eq_mapTarget, prune_eq_mapTarget value other]
    apply mapTarget_congr
    rw [prune_eq_rebuild (target_target value), prune_eq_rebuild (target_target value)]
    refine rebuild_congr fun child hchild => ?_
    have hstep : doomed [child.1] = other [child.1] := by
      refine hsame [child.1] (List.cons_ne_nil _ _) fun above hne hbegins hother => ?_
      rcases List.prefix_cons_iff.mp hbegins with rfl | ⟨rest, rfl, hrest⟩
      · exact absurd rfl hne
      · rw [List.prefix_nil] at hrest
        exact absurd (by rw [hrest]) hother
    rw [pruneChild, pruneChild, ← hstep]
    cases hdoomed : doomed [child.1] with
    | true => rfl
    | false =>
      have hbelow : (child.2.prune fun rest => doomed (child.1 :: rest)) =
          child.2.prune fun rest => other (child.1 :: rest) := by
        refine ih child hchild fun rest hrest hspared => ?_
        refine hsame (child.1 :: rest) (List.cons_ne_nil _ _) fun above hne hbegins hother => ?_
        rcases List.prefix_cons_iff.mp hbegins with rfl | ⟨later, rfl, hlater⟩
        · exact absurd rfl hne
        · cases later with
          | nil => exact hdoomed
          | cons next later =>
            exact hspared (next :: later) (List.cons_ne_nil _ _) hlater fun hall =>
              hother (by rw [hall])
      rw [hbelow]

/-- The doomed places that are not children. -/
def deeper (doomed : Location → Bool) (location : Location) : Bool :=
  decide (1 < location.length) && doomed location

theorem sparesChildren_deeper (doomed : Location → Bool) : SparesChildren (deeper doomed) :=
  fun _ => rfl

theorem prune_deeper (child : Value) (doomed : Location → Bool) (step : Step) :
    (child.prune fun rest => deeper doomed (step :: rest)) =
      child.prune fun rest => doomed (step :: rest) := by
  refine prune_congr child fun rest hrest => ?_
  cases rest with
  | nil => exact absurd rfl hrest
  | cons next later => simp [deeper]

/-- No element of a growable list is doomed as a child, so that positions keep their
meaning. -/
def KeepsPositions (value : Value) (doomed : Location → Bool) : Prop :=
  value.isGrowable = true → SparesChildren doomed

/-- The doomed children may be vacated before the rest is pruned. -/
theorem prune_eq_prune_vacate (hvalue : value.target = value)
    (hkeeps : value.KeepsPositions doomed) :
    value.prune doomed = (value.vacate fun step => doomed [step]).prune (deeper doomed) := by
  cases hgrows : value.isGrowable with
  | true =>
    have hspares := hkeeps hgrows
    have hnothing : (fun step => doomed [step]) = fun _ : Step => false := funext hspares
    rw [hnothing, vacate_nothing]
    refine prune_congr value fun location hlocation => ?_
    match location with
    | [] => exact absurd rfl hlocation
    | [step] => exact hspares step
    | step :: next :: rest => simp [deeper]
  | false =>
    rw [prune_eq_rebuild hvalue, prune_eq_rebuild (target_vacate hvalue), vacate]
    refine (rebuild_rebuild_of_fixed hgrows (fun step child hnone => ?_)
      fun step child remade hsome => ?_).symm
    · cases hdoomed : doomed [step] with
      | false => simp [hdoomed] at hnone
      | true => simp [pruneChild, hdoomed, deeper, prune_of_zeroed]
    · cases hdoomed : doomed [step] with
      | true => simp [hdoomed] at hsome
      | false =>
        obtain rfl : child = remade := by simpa [hdoomed] using hsome
        have hchild := prune_deeper child doomed step
        simp [pruneChild, hdoomed, sparesChildren_deeper doomed step, hchild]

/-- A step to a child that is not doomed leads to the pruned child. -/
theorem child?_prune_of_spared (hvalue : value.target = value)
    (hkeeps : value.KeepsPositions doomed) (hspared : doomed [step] = false) :
    (value.prune doomed).child? step =
      (value.child? step).map fun child => child.prune fun rest => doomed (step :: rest) := by
  cases hgrows : value.isGrowable with
  | true => exact child?_prune hvalue (hkeeps hgrows) step
  | false =>
    rw [prune_eq_prune_vacate hvalue hkeeps,
      child?_prune (target_vacate hvalue) (sparesChildren_deeper doomed),
      child?_vacate hgrows hspared]
    simp only [prune_deeper]

/-- What is left of a doomed child is the emptied child. -/
theorem exists_of_child?_prune (hvalue : value.target = value)
    (hkeeps : value.KeepsPositions doomed) (hdoomed : doomed [step] = true)
    (hchild : (value.prune doomed).child? step = some child) :
    ∃ old, value.child? step = some old ∧ child = old.zeroed := by
  cases hgrows : value.isGrowable with
  | true =>
    rw [hkeeps hgrows step] at hdoomed
    cases hdoomed
  | false =>
    rw [prune_eq_prune_vacate hvalue hkeeps,
      child?_prune (target_vacate hvalue) (sparesChildren_deeper doomed)] at hchild
    obtain ⟨left, hleft, rfl⟩ := Option.map_eq_some_iff.mp hchild
    obtain ⟨old, hold, rfl⟩ := exists_of_child?_vacate hgrows hdoomed hleft
    exact ⟨old, hold, prune_of_zeroed (zeroed_zeroed old) _⟩

theorem isSome_child?_prune (hvalue : value.target = value) (hkeeps : value.KeepsPositions doomed)
    (step : Step) : ((value.prune doomed).child? step).isSome =
      ((value.vacate fun other => doomed [other]).child? step).isSome := by
  rw [prune_eq_prune_vacate hvalue hkeeps,
    child?_prune (target_vacate hvalue) (sparesChildren_deeper doomed), Option.isSome_map]

theorem HasDistinctSteps.prune_of_keeps (hdistinct : value.HasDistinctSteps)
    (hvalue : value.target = value) (hkeeps : value.KeepsPositions doomed) :
    (value.prune doomed).HasDistinctSteps := by
  rw [prune_eq_prune_vacate hvalue hkeeps]
  exact hdistinct.vacate.prune (target_vacate hvalue) (sparesChildren_deeper doomed)

theorem isReadOnly_prune_of_keeps (hvalue : value.target = value)
    (hkeeps : value.KeepsPositions doomed) (step : Step) :
    (value.prune doomed).isReadOnly step = value.isReadOnly step := by
  rw [prune_eq_prune_vacate hvalue hkeeps,
    isReadOnly_prune (target_vacate hvalue) (sparesChildren_deeper doomed), isReadOnly_vacate]

/-- A segment picks the children that it picked, as far as they are still there. -/
theorem steps_prune_eq_filter (hvalue : value.WellFormed) (htarget : value.target = value)
    (hkeeps : value.KeepsPositions doomed) (segment : Segment) :
    segment.steps (value.prune doomed) =
      (segment.steps value).filter fun step => ((value.prune doomed).child? step).isSome := by
  cases hgrows : value.isGrowable with
  | true =>
    rw [steps_prune htarget (hkeeps hgrows), eq_comm, List.filter_eq_self]
    intro step hstep
    rw [child?_prune htarget (hkeeps hgrows), Option.isSome_map]
    exact ((Segment.mem_steps_iff hvalue).mp hstep).1
  | false =>
    have hspares := sparesChildren_deeper doomed
    rw [prune_eq_prune_vacate htarget hkeeps, steps_prune (target_vacate htarget) hspares,
      steps_vacate hvalue hgrows]
    refine List.filter_congr fun step _ => ?_
    rw [child?_prune (target_vacate htarget) hspares, Option.isSome_map]

/-- Putting back one more child that has been pruned, if it is not doomed itself. -/
theorem setChild_prune_of_spared (more : Location → Bool) (hvalue : value.WellFormed)
    (htarget : value.target = value) (hkeeps : value.KeepsPositions doomed)
    (hchild : value.child? step = some child)
    (hspared : doomed [step] = false) (hchildren : ∀ other, more [other] = doomed [other])
    (hothers : ∀ other, other ≠ step → ∀ rest, more (other :: rest) = doomed (other :: rest)) :
    (value.prune doomed).setChild step (child.prune fun rest => more (step :: rest)) =
      value.prune more := by
  have hkeepsMore : value.KeepsPositions more := by
    intro hgrows other
    rw [hchildren, hkeeps hgrows]
  have hgone : (fun other => more [other]) = fun other => doomed [other] := funext hchildren
  have hleft : (value.vacate fun other => doomed [other]).child? step = some child := by
    cases hgrows : value.isGrowable with
    | false => rw [child?_vacate hgrows hspared, hchild]
    | true =>
      have hnothing : (fun other => doomed [other]) = fun _ : Step => false :=
        funext (hkeeps hgrows)
      rw [hnothing, vacate_nothing, hchild]
  rw [prune_eq_prune_vacate htarget hkeeps, prune_eq_prune_vacate htarget hkeepsMore, hgone,
    ← prune_deeper]
  refine setChild_prune hvalue.hasDistinctSteps.vacate (target_vacate htarget) hleft
    (sparesChildren_deeper doomed) (sparesChildren_deeper more) fun other hother rest => ?_
  rw [deeper, deeper, hothers other hother]

/-- Vacating children that are pruned already is pruning the children too. -/
theorem vacate_prune_of_keeps {gone : Step → Bool} (hvalue : value.target = value)
    (hkeeps : value.KeepsPositions doomed)
    (hgone : ∀ step, more [step] = (doomed [step] || gone step))
    (hbelow : ∀ step rest, rest ≠ [] → more (step :: rest) = doomed (step :: rest)) :
    (value.prune doomed).vacate gone = value.prune more := by
  cases hgrows : value.isGrowable with
  | true =>
    refine vacate_prune hvalue (hkeeps hgrows) (fun step => ?_) hbelow
    rw [hgone, hkeeps hgrows, Bool.false_or]
  | false =>
    rw [prune_eq_rebuild hvalue, prune_eq_rebuild hvalue, vacate]
    refine rebuild_rebuild_of_fixed hgrows (fun step child hnone => ?_)
      fun step child remade hsome => ?_
    · cases hdoomed : doomed [step] with
      | false => simp [pruneChild, hdoomed] at hnone
      | true =>
        refine ⟨by simp [pruneChild, hgone, hdoomed], ?_⟩
        cases gone step <;> rfl
    · cases hdoomed : doomed [step] with
      | true => simp [pruneChild, hdoomed] at hsome
      | false =>
        obtain rfl : child.prune (fun rest => doomed (step :: rest)) = remade := by
          simpa [pruneChild, hdoomed] using hsome
        refine ⟨?_, zeroed_prune _ _⟩
        rw [pruneChild, hgone, hdoomed, prune_congr child fun rest hrest => hbelow step rest hrest]
        rfl

end Value

end NestedData
