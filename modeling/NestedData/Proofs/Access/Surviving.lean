import NestedData.Proofs.Access.Growing

/-!
# What a write leaves standing

This module says when a container has only been added to: a map begins with the keys it
had, a record declares the same fields and keeps the hidden ones, and a list is as long as
it was or has grown within the limit.  A datum is unchanged, and where nothing was there
may be a container.  A value in which something is written keeps every place unless the
written value stands there or above it.

Main results:

- `Value.Survives.trans`, `Value.Keeps.trans`: what survives a change and then another one
  survives both.
- `Value.Keeps.of_retains`: a container that keeps its children keeps the places in it.
- `Value.Retains.setChild`, `Value.Retains.makeRoom`: replacing a child and making room
  for one are such changes.
- `Value.WellFormed.setChild`, `Value.WellFormed.makeRoom`: they keep a value well-formed.
-/

namespace NestedData

/-- The fields that paths do not see, in declaration order. -/
def Record.hiddenFields {α : Type} (record : Record α) : List (Field α) :=
  record.fields.filter fun field => !field.exported

/-- Assigning to a field that paths see keeps the others that they do not see. -/
theorem Record.hiddenFields_setValue {α : Type} {record : Record α} {name : String}
    (hseen : (record.get? name).isSome = true) (value : α) :
    (record.setValue name value).hiddenFields = record.hiddenFields := by
  rcases record with ⟨typeName, fields⟩
  simp only [hiddenFields, setValue, modifyField, get?, field?] at hseen ⊢
  induction fields with
  | nil => rfl
  | cons field rest ih =>
    rw [modifyField.go]
    by_cases hname : field.name = name
    · have hexported : field.exported = true := by
        rw [List.find?_cons_of_pos (by simpa using hname)] at hseen
        cases hexported : field.exported with
        | true => rfl
        | false => simp [hexported] at hseen
      simp [hname, hexported]
    · rw [List.find?_cons_of_neg (by simpa using hname)] at hseen
      rw [if_neg hname, List.filter_cons, List.filter_cons, ih hseen]

namespace Value

/-! ## What is left of one container -/

/-- What stood at a place has only been added to. -/
inductive Survives : Value → Value → Prop
  /-- Anything may be unchanged. -/
  | same (value : Value) : Survives value value
  /-- A container may stand where nothing was. -/
  | appeared {before after : Value} (habsent : before.isAbsent = true)
      (hafter : after.kind.isContainer = true) : Survives before after
  /-- A map begins with the keys it had. -/
  | map {before after : Entries Value} (hkeys : Entries.keys before <+: Entries.keys after) :
      Survives (.map before) (.map after)
  /-- A record declares the same fields and keeps the hidden ones. -/
  | record {before after : Record Value} (hname : after.name = before.name)
      (hdeclarations : after.declarations = before.declarations)
      (hhidden : after.hiddenFields = before.hiddenFields) :
      Survives (.record before) (.record after)
  /-- A list has become no shorter, and no longer than it may grow. -/
  | list {before after : Sequence Value} (hextent : after.extent = before.extent)
      (hlength : before.size ≤ after.size)
      (hlimit : after.size ≤ if before.canGrow then max before.size growthLimit else before.size) :
      Survives (.list before) (.list after)

variable {before middle after container child next new value : Value} {step : Step}

theorem isContainer_list (sequence : Sequence Value) :
    (Value.list sequence).kind.isContainer = true := by
  rcases sequence with ⟨extent, items⟩
  cases extent <;> rfl

theorem target_of_isContainer (hvalue : value.kind.isContainer = true) : value.target = value := by
  cases value <;> first | rfl | cases hvalue

theorem isAbsent_of_isContainer (hvalue : value.kind.isContainer = true) :
    value.isAbsent = false := by
  cases value <;> first | rfl | cases hvalue

namespace Survives

theorem isContainer (hsurvives : before.Survives after) (hbefore : before.kind.isContainer = true) :
    after.kind.isContainer = true := by
  cases hsurvives with
  | same => exact hbefore
  | appeared _ hafter => exact hafter
  | map => rfl
  | record => rfl
  | list => exact isContainer_list _

/-- A datum is unchanged. -/
theorem eq_of_isScalar (hsurvives : before.Survives after)
    (hscalar : before.kind.isScalar = true) : after = before := by
  cases hsurvives with
  | same => rfl
  | appeared habsent _ =>
    cases before <;> first | exact absurd habsent Bool.false_ne_true | cases hscalar
  | map => cases hscalar
  | record => cases hscalar
  | @list sequence =>
    rcases sequence with ⟨extent, items⟩
    cases extent <;> cases hscalar

theorem target_eq (hsurvives : before.Survives after) (hbefore : before.target = before) :
    after.target = after := by
  cases hsurvives with
  | same => exact hbefore
  | appeared _ hafter => exact target_of_isContainer hafter
  | _ => rfl

/-- Where steps led from a container, they still lead. -/
theorem takes (hsurvives : before.Survives after) (htakes : before.Takes step) :
    after.Takes step := by
  cases hsurvives with
  | same => exact htakes
  | appeared habsent _ =>
    cases before <;> first | exact htakes.elim | exact absurd habsent Bool.false_ne_true
  | map =>
    cases step with
    | key name => trivial
    | index position => exact htakes.elim
  | record _ hdeclarations _ =>
    cases step with
    | key name => exact (isSome_get?_of_declarations hdeclarations name).trans htakes
    | index position => exact htakes.elim
  | list hextent hlength _ =>
    cases step with
    | key name => exact htakes.elim
    | index position =>
      rcases htakes with hinside | ⟨hgrows, hlimit⟩
      · exact .inl (by omega)
      · exact .inr ⟨by rwa [Sequence.canGrow, hextent], hlimit⟩

/-- What survives a change and then another one survives both. -/
theorem trans (hfirst : before.Survives middle) (hsecond : middle.Survives after) :
    before.Survives after := by
  cases hfirst with
  | same => exact hsecond
  | appeared habsent hmiddle => exact .appeared habsent (hsecond.isContainer hmiddle)
  | map hkeys =>
    cases hsecond with
    | same => exact .map hkeys
    | appeared habsent _ => cases habsent
    | map hkeys' => exact .map (hkeys.trans hkeys')
  | record hname hdeclarations hhidden =>
    cases hsecond with
    | same => exact .record hname hdeclarations hhidden
    | appeared habsent _ => cases habsent
    | record hname' hdeclarations' hhidden' =>
      exact .record (hname'.trans hname) (hdeclarations'.trans hdeclarations)
        (hhidden'.trans hhidden)
  | @list sequence between hextent hlength hlimit =>
    cases hsecond with
    | same => exact .list hextent hlength hlimit
    | appeared habsent _ => cases habsent
    | list hextent' hlength' hlimit' =>
      apply Survives.list (hextent'.trans hextent) (Nat.le_trans hlength hlength')
      rw [Sequence.canGrow, hextent, ← Sequence.canGrow] at hlimit'
      split at hlimit <;> rename_i hgrows
      · rw [if_pos hgrows] at hlimit' ⊢
        omega
      · rw [if_neg hgrows] at hlimit' ⊢
        omega

end Survives

/-! ## What is left of all places -/

/-- Every place is kept unless the new value stands there or above it. -/
def Keeps (new before after : Value) : Prop :=
  ∀ location found, before.valueAt? location = some found →
    (∃ above, above <+: location ∧ after.valueAt? above = some new) ∨
      ∃ left, after.valueAt? location = some left ∧ found.Survives left

/-- A container survives, and the places in its children are kept. -/
structure Retains (new before after : Value) : Prop where
  /-- The container has only been added to. -/
  survives : before.Survives after
  /-- Every child is there still, with the places in it. -/
  child : ∀ step child, before.child? step = some child →
    ∃ left, after.child? step = some left ∧ Keeps new child left

namespace Keeps

theorem refl (new value : Value) : Keeps new value value :=
  fun _ found hfound => .inr ⟨found, hfound, .same found⟩

theorem of_written (hafter : after.target = new) (before : Value) : Keeps new before after :=
  fun location _ _ => .inl ⟨[], List.nil_prefix, by rw [← hafter]; rfl⟩

theorem target_iff : Keeps new before.target after.target ↔ Keeps new before after := by
  simp [Keeps]

/-- A container that keeps its children keeps the places in it. -/
theorem of_retains (hretains : Retains new before.target after.target) :
    Keeps new before after := by
  intro location found hfound
  cases location with
  | nil =>
    obtain rfl := Option.some.inj hfound
    exact .inr ⟨after.target, rfl, hretains.survives⟩
  | cons step rest =>
    obtain ⟨child, hchild, hrest⟩ := Option.bind_eq_some_iff.mp hfound
    obtain ⟨left, hleft, hkeeps⟩ := hretains.child step child hchild
    have hbelow (location : Location) :
        after.valueAt? (step :: location) = left.valueAt? location := by
      rw [valueAt?, hleft, Option.bind_some]
    rcases hkeeps rest found hrest with ⟨above, habove, hnew⟩ | ⟨last, hlast, hsurvives⟩
    · refine .inl ⟨step :: above, ?_, (hbelow above).trans hnew⟩
      exact List.cons_prefix_cons.mpr ⟨rfl, habove⟩
    · exact .inr ⟨last, (hbelow rest).trans hlast, hsurvives⟩

/-- Places that are kept by a change and then by another one are kept by both, since the
new value, being a datum, is not changed itself. -/
theorem trans (hnew : new.kind.isScalar = true) (hfirst : Keeps new before middle)
    (hsecond : Keeps new middle after) : Keeps new before after := by
  intro location found hfound
  rcases hfirst location found hfound with ⟨above, habove, hstands⟩ | ⟨left, hleft, hsurvives⟩
  · rcases hsecond above new hstands with ⟨higher, hhigher, hstill⟩ | ⟨last, hlast, hsame⟩
    · exact .inl ⟨higher, hhigher.trans habove, hstill⟩
    · rw [hsame.eq_of_isScalar hnew] at hlast
      exact .inl ⟨above, habove, hlast⟩
  · rcases hsecond location left hleft with hwritten | ⟨last, hlast, hmore⟩
    · exact .inl hwritten
    · exact .inr ⟨last, hlast, hsurvives.trans hmore⟩

end Keeps

namespace Retains

theorem refl (new container : Value) : Retains new container container where
  survives := .same container
  child := fun _ child hchild => ⟨child, hchild, .refl new child⟩

/-- Children that are kept by a change and then by another one are kept by both. -/
theorem trans (hnew : new.kind.isScalar = true) (hfirst : Retains new before middle)
    (hsecond : Retains new middle after) : Retains new before after where
  survives := hfirst.survives.trans hsecond.survives
  child := by
    intro step child hchild
    obtain ⟨between, hbetween, hkept⟩ := hfirst.child step child hchild
    obtain ⟨left, hleft, hstill⟩ := hsecond.child step between hbetween
    exact ⟨left, hleft, hkept.trans hnew hstill⟩

theorem of_absent (habsent : before.isAbsent = true) (hafter : after.kind.isContainer = true) :
    Retains new before after where
  survives := .appeared habsent hafter
  child := by
    intro step child hchild
    cases before <;> first | cases hchild | cases habsent

/-- Replacing a child by one that keeps its places keeps the children. -/
theorem setChild (hchild : container.child? step = some child) (hkeeps : Keeps new child next) :
    Retains new container (container.setChild step next) where
  survives := by
    cases container with
    | map entries =>
      cases step with
      | index position => cases hchild
      | key name =>
        have hpresent : Entries.contains entries name = true :=
          Option.isSome_of_eq_some hchild
        have hkeys : Entries.keys (Entries.insert entries name next) = Entries.keys entries := by
          rw [Entries.keys_insert, if_pos hpresent]
        rw [Value.setChild, if_pos hpresent]
        exact Survives.map (hkeys ▸ List.prefix_refl _)
    | record aggregate =>
      cases step with
      | index position => cases hchild
      | key name =>
        have hseen : (aggregate.get? name).isSome = true :=
          Option.isSome_of_eq_some hchild
        rw [Value.setChild]
        exact Survives.record (by rfl) (Record.declarations_setValue _ _ _)
          (Record.hiddenFields_setValue hseen next)
    | list sequence =>
      cases step with
      | key name => cases hchild
      | index position =>
        rw [Value.setChild]
        apply Survives.list (Sequence.extent_set _ _ _) <;> rw [Sequence.size_set]
        split <;> omega
    | _ => cases hchild
  child := by
    intro other old hold
    by_cases hother : other = step
    · subst hother
      rw [hchild] at hold
      obtain rfl := Option.some.inj hold
      exact ⟨next, child?_setChild_of_present (by rw [hchild]; rfl) next, hkeeps⟩
    · exact ⟨old, (child?_setChild_of_ne hother _ _).trans hold, .refl new old⟩

/-- Making room for a child keeps the children. -/
theorem makeRoom (shaping : Shaping) (location : Location) (htakes : container.Takes step) :
    Retains new container (Action.makeRoom shaping location step container) where
  survives := by
    cases htakes using Takes.casesOn with
    | entry entries name =>
      rw [Action.makeRoom]
      split
      · exact .same _
      · rename_i habsent
        apply Survives.map
        rw [Entries.keys_insert, if_neg habsent]
        exact List.prefix_append _ _
    | field aggregate name _ => exact .same _
    | element sequence position hroom =>
      apply Survives.list (Action.extent_padTo _ _ _ _) <;> rw [Action.size_padTo]
      · split <;> omega
      · rcases hroom with hinside | ⟨_, hlimit⟩ <;> split <;> omega
  child := fun _ old hold => ⟨old, Action.child?_makeRoom_of_present hold, .refl new old⟩

end Retains

/-! ## Values stay well-formed -/

namespace WellFormed

theorem mapTarget (hnext : next.WellFormed) : (value.mapTarget fun _ => next).WellFormed := by
  induction value using induct with
  | ref referent ih => exact .ref ih
  | _ => exact hnext

theorem insert {entries : Entries Value} (hentries : (Value.map entries).WellFormed)
    (hnext : next.WellFormed) (name : String) :
    (Value.map (Entries.insert entries name next)).WellFormed := by
  rw [wellFormed_map_iff] at hentries ⊢
  refine ⟨Entries.nodup_keys_insert hentries.1 name next, fun entry hentry => ?_⟩
  rcases Entries.mem_insert hentry with rfl | hother
  · exact hnext
  · exact hentries.2 entry hother

/-- A container stays well-formed when a child is replaced. -/
theorem setChild (hcontainer : container.WellFormed) (hnext : next.WellFormed) (step : Step) :
    (container.setChild step next).WellFormed := by
  cases container with
  | map entries =>
    cases step with
    | index position => exact hcontainer
    | key name =>
      rw [Value.setChild]
      split
      · exact hcontainer.insert hnext name
      · exact hcontainer
  | record aggregate =>
    cases step with
    | index position => exact hcontainer
    | key name =>
      rw [Value.setChild, wellFormed_record_iff, Record.names_setValue]
      rw [wellFormed_record_iff] at hcontainer
      refine ⟨hcontainer.1, fun field hfield => ?_⟩
      rcases Record.mem_fields_setValue hfield with hother | ⟨old, _, _, rfl⟩
      · exact hcontainer.2 field hother
      · exact hnext
  | list sequence =>
    cases step with
    | key name => exact hcontainer
    | index position =>
      rw [wellFormed_list_iff] at hcontainer
      rw [Value.setChild, wellFormed_list_iff]
      intro item hitem
      rcases Array.mem_or_eq_of_mem_setIfInBounds hitem with hother | rfl
      · exact hcontainer item hother
      · exact hnext
  | _ => exact hcontainer

/-- A container stays well-formed when room is made with well-formed values. -/
theorem makeRoom {shaping : Shaping} (hshaping : ∀ location, (shaping.zeroAt location).WellFormed)
    (hcontainer : container.WellFormed) (location : Location) (step : Step) :
    (Action.makeRoom shaping location step container).WellFormed := by
  cases container with
  | map entries =>
    cases step with
    | index position => exact hcontainer
    | key name =>
      rw [Action.makeRoom]
      split
      · exact hcontainer
      · exact hcontainer.insert .null name
  | list sequence =>
    cases step with
    | key name => exact hcontainer
    | index position =>
      rw [wellFormed_list_iff] at hcontainer
      rw [Action.makeRoom, wellFormed_list_iff, Action.padTo]
      intro item hitem
      split at hitem
      · obtain ⟨index, hindex⟩ := Array.mem_iff_getElem?.mp hitem
        rcases Sequence.getElem?_pad hindex with hthere | rfl
        · exact hcontainer item (Array.mem_of_getElem? hthere)
        · exact hshaping _
      · exact hcontainer item hitem
  | _ => exact hcontainer

end WellFormed

end Value

end NestedData
