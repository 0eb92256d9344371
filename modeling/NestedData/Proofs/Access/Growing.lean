import NestedData.Access.Assign
import NestedData.Proofs.Access.Reaching
import NestedData.Proofs.Value.Assembly
import NestedData.Proofs.Value.Rebuild

/-!
# Containers that make room

This module says what becomes of a container when an assignment goes on to its children:
room is made for the children that are missing, and the children are replaced.  Other
children stay where they are, a list grows no further than it has to, and a record keeps
its declarations.

Main results:

- `Value.GrownBy.append`: containers grow step by step.
- `Action.assignMember_eq_put`, `Action.editChild_creating`: assigning to a child, and going
  on to it, makes room for it and replaces it.
- `Action.sequence_reworks`: a sequence of such edits reworks the container.
-/

namespace NestedData

/-- An element of a list is still there when the list is padded. -/
theorem Sequence.getElem?_pad_of_present {α : Type} {sequence : Sequence α} {position : Nat}
    {item : α} (hitem : sequence.items[position]? = some item) (length : Nat) (fill : Nat → α) :
    (sequence.pad length fill).items[position]? = some item := by
  have hfold (positions : List Nat) : ∀ items : Array α, items[position]? = some item →
      (positions.foldl (fun items index => items.push (fill index)) items)[position]? =
        some item := by
    induction positions with
    | nil => exact fun _ hitem => hitem
    | cons first rest ih =>
      intro items hitem
      apply ih
      have hinside := (Array.getElem?_eq_some_iff.mp hitem).1
      rw [Array.getElem?_push, if_neg (Nat.ne_of_lt hinside), hitem]
  exact hfold _ _ hitem

/-- Inserting a value under a key twice is inserting the later one. -/
theorem Entries.insert_insert {α : Type} (entries : Entries α) (name : String) (first second : α) :
    Entries.insert (Entries.insert entries name first) name second =
      Entries.insert entries name second := by
  induction entries with
  | nil => simp [Entries.insert]
  | cons entry rest ih =>
    by_cases hsame : entry.1 = name <;> simp [Entries.insert, hsame, ih]

/-- Inserting a value under a missing key and removing it again changes nothing. -/
theorem Entries.erase_insert {α : Type} {entries : Entries α} {name : String}
    (habsent : Entries.contains entries name = false) (value : α) :
    Entries.erase (Entries.insert entries name value) name = entries := by
  induction entries with
  | nil => simp [Entries.insert, Entries.erase]
  | cons entry rest ih =>
    by_cases hsame : entry.1 = name
    · simp [Entries.contains, Entries.get?, hsame] at habsent
    · have hrest : Entries.contains rest name = false := by
        simpa [Entries.contains, Entries.get?, hsame] using habsent
      simp [Entries.insert, Entries.erase, hsame, ih hrest]

/-- What a record says about its fields besides their values. -/
def Record.declarations {α : Type} (record : Record α) : List (String × Bool × Bool) :=
  record.fields.map fun field => (field.name, field.exported, field.mutable)

theorem Record.find?_declarations {α : Type} (record : Record α) (name : String) :
    (record.declarations.find? fun declared => declared.1 == name) =
      (record.field? name).map fun field => (field.name, field.exported, field.mutable) := by
  rw [declarations, List.find?_map]
  rfl

/-- Assigning a value keeps the declarations. -/
@[simp]
theorem Record.declarations_setValue {α : Type} (record : Record α) (name : String) (value : α) :
    (record.setValue name value).declarations = record.declarations := by
  unfold setValue modifyField declarations
  induction record.fields with
  | nil => rfl
  | cons field rest ih =>
    rw [modifyField.go]
    split
    · rfl
    · rw [List.map_cons, List.map_cons, ih]

/-- The field of a name after an assignment. -/
theorem Record.field?_setValue {α : Type} (record : Record α) (name other : String) (value : α) :
    (record.setValue name value).field? other =
      if other = name then (record.field? name).map fun field => { field with value }
      else record.field? other := by
  unfold setValue modifyField field?
  induction record.fields with
  | nil => simp [modifyField.go]
  | cons field rest ih =>
    rw [modifyField.go]
    by_cases hname : field.name = name <;> by_cases hother : other = name <;>
      by_cases hfield : field.name = other <;>
      simp_all

namespace Value

/-! ## Growth -/

/-- A step of a container leads to a child, or to where room can be made for one. -/
def Takes : Value → Step → Prop
  | .map _, .key _ => True
  | .record aggregate, .key name => (aggregate.get? name).isSome = true
  | .list sequence, .index position =>
    position < sequence.size ∨ (sequence.canGrow = true ∧ position < growthLimit)
  | _, _ => False

/-- A container has grown by no more than the steps ask for: only keys that they name are
new, a list ends where it did or with an element that they name, and a record declares the
same fields. -/
def GrownBy (steps : List Step) : Value → Value → Prop
  | .map before, .map after =>
    ∀ name, Entries.contains after name = true →
      Entries.contains before name = true ∨ .key name ∈ steps
  | .record before, .record after =>
    after.name = before.name ∧ after.declarations = before.declarations
  | .list before, .list after =>
    after.extent = before.extent ∧ before.size ≤ after.size ∧
      (after.size = before.size ∨ ∃ position, .index position ∈ steps ∧ after.size = position + 1)
  | before, after => after = before

variable {before middle after : Value} {first second steps : List Step} {step : Step}

/-- A step that a container takes is a key of a map, an exported field of a record, or a
position of a list that lies inside it or can be reached by growing. -/
theorem Takes.casesOn {motive : (container : Value) → (step : Step) → container.Takes step → Prop}
    {container : Value} {step : Step} (htakes : container.Takes step)
    (entry : ∀ entries name, motive (.map entries) (.key name) trivial)
    (field : ∀ (aggregate : Record Value) name (hfield : (aggregate.get? name).isSome = true),
      motive (.record aggregate) (.key name) hfield)
    (element : ∀ (sequence : Sequence Value) position
      (hroom : position < sequence.size ∨ (sequence.canGrow = true ∧ position < growthLimit)),
      motive (.list sequence) (.index position) hroom) :
    motive container step htakes := by
  cases container <;> cases step <;>
    first
    | exact htakes.elim
    | exact entry _ _
    | exact field _ _ htakes
    | exact element _ _ htakes

theorem GrownBy.refl (steps : List Step) (value : Value) : GrownBy steps value value := by
  cases value with
  | map entries => exact fun _ hpresent => .inl hpresent
  | record aggregate => exact ⟨rfl, rfl⟩
  | list sequence => exact ⟨rfl, Nat.le_refl _, .inl rfl⟩
  | _ => rfl

/-- Containers grow step by step. -/
theorem GrownBy.append (hfirst : GrownBy first before middle)
    (hsecond : GrownBy second middle after) : GrownBy (first ++ second) before after := by
  cases before with
  | map entries =>
    cases middle with
    | map _ =>
      cases after with
      | map _ =>
        intro name hpresent
        rw [List.mem_append]
        rcases hsecond name hpresent with hbetween | hmem
        · exact (hfirst name hbetween).imp_right .inl
        · exact .inr (.inr hmem)
      | _ => cases hsecond
    | _ => cases hfirst
  | record aggregate =>
    cases middle with
    | record _ =>
      cases after with
      | record _ => exact ⟨hsecond.1.trans hfirst.1, hsecond.2.trans hfirst.2⟩
      | _ => cases hsecond
    | _ => cases hfirst
  | list sequence =>
    cases middle with
    | list between =>
      cases after with
      | list final =>
        obtain ⟨hextent, hsize, hlast⟩ := hfirst
        obtain ⟨hextent', hsize', hlast'⟩ := hsecond
        refine ⟨hextent'.trans hextent, Nat.le_trans hsize hsize', ?_⟩
        rcases hlast' with hsame | ⟨position, hmem, hsame⟩
        · rw [hsame]
          rcases hlast with hsame | ⟨position, hmem, hsame⟩
          · exact .inl hsame
          · exact .inr ⟨position, List.mem_append_left _ hmem, hsame⟩
        · exact .inr ⟨position, List.mem_append_right _ hmem, hsame⟩
      | _ => cases hsecond
    | _ => cases hfirst
  | _ =>
    obtain rfl : middle = _ := hfirst
    obtain rfl : after = _ := hsecond
    rfl

theorem GrownBy.target_eq (hgrown : GrownBy steps before after) (hbefore : before.target = before) :
    after.target = after := by
  cases before <;> cases after <;> first | rfl | cases hgrown
  exact hbefore

theorem GrownBy.isAbsent_eq (hgrown : GrownBy steps before after) :
    after.isAbsent = before.isAbsent := by
  cases before <;> cases after <;> first | rfl | cases hgrown

/-- A list that grows can do so as before. -/
theorem GrownBy.canGrow {sequence grown : Sequence Value}
    (hgrown : GrownBy steps (.list sequence) (.list grown)) : grown.canGrow = sequence.canGrow := by
  rw [Sequence.canGrow, Sequence.canGrow, hgrown.1]

/-- A datum does not grow. -/
theorem GrownBy.eq_of_isScalar (hgrown : GrownBy steps before after)
    (hscalar : before.kind.isScalar = true) : after = before := by
  cases before with
  | list sequence =>
    rcases sequence with ⟨extent, items⟩
    cases extent <;> cases hscalar
  | map entries => cases hscalar
  | record aggregate => cases hscalar
  | _ => exact hgrown

/-- Whether there is a value under a name does not depend on the values. -/
theorem isSome_get?_of_declarations {before after : Record Value}
    (hsame : after.declarations = before.declarations) (name : String) :
    (after.get? name).isSome = (before.get? name).isSome := by
  have hget (record : Record Value) : (record.get? name).isSome =
      (record.declarations.find? fun declared => declared.1 == name).any fun declared =>
        declared.2.1 := by
    rw [Record.find?_declarations, Option.any_map, Record.get?]
    cases record.field? name with
    | none => rfl
    | some field => cases hexported : field.exported <;> simp [hexported]
  rw [hget, hget, hsame]

/-- A segment picks the same fields of records with the same declarations. -/
theorem steps_of_declarations {before after : Record Value}
    (hsame : after.declarations = before.declarations) (segment : Segment) :
    segment.steps (.record after) = segment.steps (.record before) := by
  have hget := isSome_get?_of_declarations hsame
  rw [Segment.steps_record, Segment.steps_record]
  cases segment with
  | key name => simp only [hget]
  | wildcard =>
    have hnames (record : Record Value) :
        record.exportedFields.map (fun field => Step.key field.name) =
          (record.declarations.filter fun declared => declared.2.1).map fun declared =>
            .key declared.1 := by
      rw [Record.declarations, List.filter_map, List.map_map]
      rfl
    rw [hnames, hnames, hsame]
  | union selectors =>
    refine List.filterMap_congr fun selector _ => ?_
    cases selector with
    | index position => rfl
    | key name =>
      have hname := hget name
      cases hbefore : before.get? name <;> cases hafter : after.get? name <;>
        simp_all [Selection.fieldOf?]
  | _ => rfl

/-- Where steps led before a container grew, they lead afterwards. -/
theorem GrownBy.takes (hgrown : GrownBy steps before after) (htakes : before.Takes step) :
    after.Takes step := by
  cases before with
  | map entries =>
    cases after with
    | map _ =>
      cases step with
      | key name => trivial
      | index position => exact htakes
    | _ => cases hgrown
  | record aggregate =>
    cases after with
    | record _ =>
      cases step with
      | key name =>
        exact (isSome_get?_of_declarations hgrown.2 name).trans htakes
      | index position => exact htakes
    | _ => cases hgrown
  | list sequence =>
    cases after with
    | list final =>
      cases step with
      | key name => exact htakes
      | index position =>
        rcases htakes with hinside | ⟨hgrows, hlimit⟩
        · exact .inl (Nat.lt_of_lt_of_le hinside hgrown.2.1)
        · exact .inr ⟨hgrown.canGrow.trans hgrows, hlimit⟩
    | _ => cases hgrown
  | _ => exact htakes.elim

/-- A child that has been replaced is found again. -/
theorem child?_setChild_of_present {step : Step} {container : Value}
    (hpresent : (container.child? step).isSome = true) (child : Value) :
    (container.setChild step child).child? step = some child := by
  cases container with
  | map entries =>
    cases step with
    | index position => simp [child?] at hpresent
    | key name => exact child?_setChild_key hpresent child
  | record aggregate =>
    cases step with
    | index position => simp [child?] at hpresent
    | key name =>
      obtain ⟨old, hold⟩ := Option.isSome_iff_exists.mp hpresent
      obtain ⟨field, hfield, hexported, _⟩ := Record.get?_eq_some_iff.mp hold
      simp [setChild, child?, Record.get?, Record.field?_setValue, hfield, hexported]
  | list sequence =>
    cases step with
    | key name => simp [child?] at hpresent
    | index position => exact child?_setChild_index (isSome_child?_index.mp hpresent) child
  | _ => simp [child?] at hpresent

/-- Replacing a child leaves the others. -/
theorem child?_setChild_of_ne {step other : Step} (hother : other ≠ step)
    (container child : Value) :
    (container.setChild step child).child? other = container.child? other := by
  cases container with
  | map entries =>
    cases step with
    | index position => rfl
    | key name =>
      rw [setChild]
      split
      · cases other with
        | index position => rfl
        | key key =>
          have hne : name ≠ key := fun hsame => hother (by rw [hsame])
          rw [child?, Entries.get?_insert, if_neg hne, child?]
      · rfl
  | record aggregate =>
    cases step with
    | index position => rfl
    | key name =>
      cases other with
      | index position => rfl
      | key key =>
        have hne : key ≠ name := fun hsame => hother (by rw [hsame])
        simp [setChild, child?, Record.get?, Record.field?_setValue, hne]
  | list sequence =>
    cases step with
    | key name => rfl
    | index position =>
      cases other with
      | key key => rfl
      | index index =>
        have hne : position ≠ index := fun hsame => hother (by rw [hsame])
        simp [setChild, child?, Sequence.get?, Sequence.set, hne]
  | _ => rfl

/-- Of distinct children, those after the first are there still when the first is replaced. -/
theorem child?_setChild_of_later {container : Value} {first : Step × Value}
    {later : List (Step × Value)} (hsteps : ((first :: later).map Prod.fst).Nodup)
    (hthere : ∀ child ∈ first :: later, container.child? child.1 = some child.2) (next : Value) :
    ∀ child ∈ later, (container.setChild first.1 next).child? child.1 = some child.2 := by
  intro child hchild
  have hne : child.1 ≠ first.1 := fun hsame =>
    (List.nodup_cons.mp hsteps).1 (hsame ▸ List.mem_map_of_mem hchild)
  rw [child?_setChild_of_ne hne]
  exact hthere child (List.mem_cons_of_mem _ hchild)

/-! ## Children that are reworked -/

/-- A container has grown so that the steps lead to children, and there the children have
changed; the other children are what they were.  Of a child that was missing, what made
room for it has changed. -/
structure Reworked (change : Value → Value → Prop) (steps : List Step) (before after : Value) :
    Prop where
  grown : GrownBy steps before after
  changed : ∀ step ∈ steps, ∃ old child, after.child? step = some child ∧ change old child ∧
    ∀ present, before.child? step = some present → old = present
  kept : ∀ step, step ∉ steps → ∀ child, before.child? step = some child →
    after.child? step = some child

variable {change : Value → Value → Prop}

theorem Reworked.nil (value : Value) : Reworked change [] value value where
  grown := .refl [] value
  changed := by simp
  kept := fun _ _ _ hchild => hchild

/-- A child that was there before has been changed or kept. -/
theorem Reworked.changed_or_kept {steps : List Step} {step : Step} {child : Value}
    (hreworked : Reworked change steps before after) (hchild : before.child? step = some child) :
    (step ∈ steps ∧ ∃ next, after.child? step = some next ∧ change child next) ∨
      (step ∉ steps ∧ after.child? step = some child) := by
  by_cases hstep : step ∈ steps
  · obtain ⟨old, next, hnext, hchange, hold⟩ := hreworked.changed step hstep
    rw [hold child hchild] at hchange
    exact .inl ⟨hstep, next, hnext, hchange⟩
  · exact .inr ⟨hstep, hreworked.kept step hstep child hchild⟩

/-- A child that a step leads to has been changed from what was there, if something was. -/
theorem Reworked.exists_changed {steps : List Step} {step : Step} {child : Value}
    (hreworked : Reworked change steps before after) (hstep : step ∈ steps)
    (hchild : after.child? step = some child) :
    ∃ old, change old child ∧ ∀ present, before.child? step = some present → old = present := by
  obtain ⟨old, other, hother, hchange, hold⟩ := hreworked.changed step hstep
  rw [hchild] at hother
  obtain rfl := Option.some.inj hother
  exact ⟨old, hchange, hold⟩

/-- A container is reworked step by step; where two steps lead to the same child, the
changes add up. -/
theorem Reworked.append (htrans : ∀ a b c, change a b → change b c → change a c)
    (hfirst : Reworked change first before middle)
    (hsecond : Reworked change second middle after) :
    Reworked change (first ++ second) before after where
  grown := hfirst.grown.append hsecond.grown
  changed := by
    intro step hstep
    by_cases hlater : step ∈ second
    · obtain ⟨between, child, hchild, hchange, hpresent⟩ := hsecond.changed step hlater
      by_cases hearlier : step ∈ first
      · obtain ⟨old, other, hother, hbefore, hold⟩ := hfirst.changed step hearlier
        rw [hpresent other hother] at hchange
        exact ⟨old, child, hchild, htrans _ _ _ hbefore hchange, hold⟩
      · refine ⟨between, child, hchild, hchange, fun present hbefore => ?_⟩
        exact hpresent present (hfirst.kept step hearlier present hbefore)
    · obtain ⟨old, child, hchild, hchange, hold⟩ :=
        hfirst.changed step ((List.mem_append.mp hstep).resolve_right hlater)
      exact ⟨old, child, hsecond.kept step hlater child hchild, hchange, hold⟩
  kept := by
    intro step hstep child hchild
    rw [List.mem_append, not_or] at hstep
    exact hsecond.kept step hstep.2 child (hfirst.kept step hstep.1 child hchild)

end Value

namespace Action

open Value

variable {shaping : Shaping} {location : Location} {step : Step} {container child : Value}

/-! ## Making room for a child and replacing it -/

/-- A container in which room has been made for a child and the child been replaced. -/
def put (shaping : Shaping) (location : Location) (step : Step) (child container : Value) : Value :=
  (makeRoom shaping location step container).setChild step child

/-- Putting a child into a map is inserting it. -/
theorem put_map (shaping : Shaping) (location : Location) (name : String) (child : Value)
    (entries : Entries Value) :
    put shaping location (.key name) child (.map entries) =
      .map (Entries.insert entries name child) := by
  rw [put, makeRoom]
  split
  · rename_i hpresent
    rw [setChild, if_pos hpresent]
  · rw [setChild, if_pos, Entries.insert_insert]
    simp [Entries.contains, Entries.get?_insert]

theorem put_record (shaping : Shaping) (location : Location) (name : String) (child : Value)
    (aggregate : Record Value) :
    put shaping location (.key name) child (.record aggregate) =
      .record (aggregate.setValue name child) := rfl

theorem put_list (shaping : Shaping) (location : Location) (position : Nat) (child : Value)
    (sequence : Sequence Value) :
    put shaping location (.index position) child (.list sequence) =
      .list ((padTo shaping location position sequence).set position child) := rfl

theorem child?_makeRoom_map (shaping : Shaping) (location : Location) (name : String)
    (entries : Entries Value) :
    (makeRoom shaping location (.key name) (.map entries)).child? (.key name) =
      some ((Entries.get? entries name).getD .null) := by
  rw [makeRoom, Entries.contains]
  cases hvalue : Entries.get? entries name <;> simp [child?, hvalue, Entries.get?_insert]

theorem size_padTo (shaping : Shaping) (location : Location) (position : Nat)
    (sequence : Sequence Value) :
    (padTo shaping location position sequence).size =
      if sequence.canGrow then max (position + 1) sequence.size else sequence.size := by
  unfold padTo
  split
  · rw [Sequence.size_pad]
  · rfl

theorem extent_padTo (shaping : Shaping) (location : Location) (position : Nat)
    (sequence : Sequence Value) :
    (padTo shaping location position sequence).extent = sequence.extent := by
  unfold padTo
  split <;> rfl

/-- Making room keeps the children that are there. -/
theorem child?_makeRoom_of_present {other : Step} {present : Value}
    (hpresent : container.child? other = some present) :
    (makeRoom shaping location step container).child? other = some present := by
  cases container with
  | map entries =>
    cases step with
    | index position => exact hpresent
    | key name =>
      cases other with
      | index position => simp [child?] at hpresent
      | key key =>
        have hvalue : Entries.get? entries key = some present := hpresent
        rw [makeRoom]
        split
        · exact hpresent
        · rename_i habsent
          rw [child?, Entries.get?_insert, if_neg, hvalue]
          rintro rfl
          exact habsent (by simp [Entries.contains, hvalue])
  | list sequence =>
    cases step with
    | key name => exact hpresent
    | index position =>
      cases other with
      | key name => simp [child?] at hpresent
      | index index =>
        rw [makeRoom, padTo]
        split
        · exact Sequence.getElem?_pad_of_present hpresent _ _
        · exact hpresent
  | _ => exact hpresent

/-- There is a child once room has been made for it. -/
theorem exists_child?_makeRoom (shaping : Shaping) (location : Location)
    (htakes : container.Takes step) :
    ∃ child, (makeRoom shaping location step container).child? step = some child := by
  rw [← Option.isSome_iff_exists]
  cases htakes using Takes.casesOn with
  | entry entries name =>
    rw [child?_makeRoom_map]
    rfl
  | field aggregate name hfield => exact hfield
  | element sequence position hroom =>
    rw [makeRoom, isSome_child?_index, size_padTo]
    rcases hroom with hinside | ⟨hgrows, _⟩
    · split <;> omega
    · rw [if_pos hgrows]
      omega

/-- A container in which a child has been put has grown by the step to it. -/
theorem grownBy_put (shaping : Shaping) (location : Location) (htakes : container.Takes step)
    (child : Value) :
    GrownBy [step] container (put shaping location step child container) := by
  cases htakes using Takes.casesOn with
  | entry entries name =>
    rw [put_map]
    intro other
    rw [Entries.contains, Entries.get?_insert]
    split
    · rename_i hsame
      exact fun _ => .inr (by rw [hsame]; exact List.mem_singleton_self _)
    · exact .inl
  | field aggregate name _ => exact ⟨rfl, Record.declarations_setValue _ _ _⟩
  | element sequence position hroom =>
    have hsize := size_padTo shaping location position sequence
    refine ⟨extent_padTo shaping location position sequence, ?_, ?_⟩
    · rw [Sequence.size_set, hsize]
      split <;> omega
    · rw [Sequence.size_set, hsize]
      split
      · simp only [List.mem_singleton, Step.index.injEq, exists_eq_left]
        omega
      · exact .inl rfl

theorem child?_put (shaping : Shaping) (location : Location) (htakes : container.Takes step)
    (child : Value) :
    (put shaping location step child container).child? step = some child := by
  obtain ⟨old, hold⟩ := exists_child?_makeRoom shaping location htakes
  exact child?_setChild_of_present (by rw [hold]; rfl) child

/-- Putting a changed child into a container reworks it. -/
theorem reworked_put {change : Value → Value → Prop} {old : Value} (htakes : container.Takes step)
    (hold : (makeRoom shaping location step container).child? step = some old)
    (hchange : change old child) :
    Reworked change [step] container (put shaping location step child container) where
  grown := grownBy_put shaping location htakes child
  changed := by
    intro other hother
    obtain rfl := List.mem_singleton.mp hother
    refine ⟨old, child, child?_put shaping location htakes child, hchange,
      fun present hpresent => ?_⟩
    rw [child?_makeRoom_of_present hpresent] at hold
    exact (Option.some.inj hold).symm
  kept := by
    intro other hother present hpresent
    rw [put, child?_setChild_of_ne (by simpa using hother)]
    exact child?_makeRoom_of_present hpresent

/-! ## Edits of children -/

/-- Assigning to a child makes room for it and replaces it, unless it is a field that may
not be written. -/
theorem assignMember_eq_put (strict : Bool) (new : Value) {old : Value}
    (htakes : container.Takes step)
    (hwritable : container.isReadOnly step = false)
    (hold : (makeRoom shaping location step container).child? step = some old) :
    assignMember shaping new location strict step container =
      { value := put shaping location step (old.assign new) container, result := .ok .one } := by
  cases htakes using Takes.casesOn with
  | entry entries name =>
    rw [child?_makeRoom_map] at hold
    rw [put_map, assignMember, ← Option.some.inj hold]
    cases Entries.get? entries name <;> rfl
  | field aggregate name _ =>
    obtain ⟨field, hfield, _, rfl⟩ := Record.get?_eq_some_iff.mp hold
    have hmutable : field.mutable = true := by simpa [isReadOnly, hfield] using hwritable
    simp only [assignMember, hfield, hmutable, if_true]
    rfl
  | element sequence position _ =>
    have hitem : (padTo shaping location position sequence).get? position = some old := hold
    simp only [assignMember, hitem]
    rfl

/-- Where a miss is a fault, so is the assignment to a field that may not be written. -/
theorem isReadOnly_of_assignMember_ok {new : Value} {tally : Tally} (htakes : container.Takes step)
    (hok : (assignMember shaping new location true step container).result = .ok tally) :
    container.isReadOnly step = false := by
  cases htakes using Takes.casesOn with
  | field aggregate name _ =>
    cases hfield : aggregate.field? name with
    | none => simp [isReadOnly, hfield]
    | some field =>
      cases hmutable : field.mutable with
      | true => simp [isReadOnly, hfield, hmutable]
      | false =>
        simp only [assignMember, hfield, hmutable] at hok
        cases hok
  | _ => rfl

/-- An entry that was added is taken back unless something is left of it. -/
theorem takeBack_put (hadded : addsEntry step container = true) (child : Value) :
    takeBack step (put shaping location step child container) =
      if child.isAbsent then container else put shaping location step child container := by
  cases container with
  | map entries =>
    cases step with
    | index position => cases hadded
    | key name =>
      have habsent : Entries.contains entries name = false := by
        simpa [addsEntry] using hadded
      rw [put_map, takeBack, Entries.get?_insert, if_pos rfl]
      simp only [Entries.erase_insert habsent]
  | _ => cases hadded

/-- Going on to a child makes room for it and replaces it by what becomes of it; if that is
nothing, an entry that was added is taken back. -/
theorem editChild_creating {edit : Location → Value → Edit} {old : Value}
    (hold : (makeRoom shaping location step container).child? step = some old) :
    editChild (some shaping) location edit step container =
      { value :=
          if addsEntry step container && (edit (location.child step) old).value.isAbsent then
            container
          else put shaping location step (edit (location.child step) old).value container
        result := (edit (location.child step) old).result } := by
  simp only [editChild, hold, Option.isSome_some, Bool.true_and]
  congr 1
  cases hadded : addsEntry step container with
  | false => rfl
  | true =>
    rw [if_pos rfl, ← put, takeBack_put hadded, Bool.true_and]

/-- Going on to a child makes room for it and replaces it by what becomes of it, if
something is left of it. -/
theorem editChild_eq_put {edit : Location → Value → Edit} {old : Value}
    (hold : (makeRoom shaping location step container).child? step = some old)
    (hpresent : (edit (location.child step) old).value.isAbsent = false) :
    editChild (some shaping) location edit step container =
      { value := put shaping location step (edit (location.child step) old).value container
        result := (edit (location.child step) old).result } := by
  rw [editChild_creating hold, hpresent, Bool.and_false, if_neg Bool.false_ne_true]

/-- A sequence of edits that each rework a container by one step reworks it by all of
them, if what the edits rely on is kept. -/
theorem sequence_reworks (change : Value → Value → Prop) (keeps : Value → Prop)
    {edit : Step → Value → Edit} {steps : List Step} {before tally : Tally}
    (htrans : ∀ a b c, change a b → change b c → change a c)
    (hedit : ∀ step ∈ steps, ∀ (current : Value) (done : Tally), keeps current →
      current.Takes step → (edit step current).result = .ok done →
      Reworked change [step] current (edit step current).value ∧ keeps (edit step current).value)
    (htakes : ∀ step ∈ steps, container.Takes step) (hkeeps : keeps container)
    (hok : (Edit.sequence steps edit before container).result = .ok tally) :
    Reworked change steps container (Edit.sequence steps edit before container).value ∧
      keeps (Edit.sequence steps edit before container).value := by
  induction steps generalizing container before with
  | nil => exact ⟨.nil container, hkeeps⟩
  | cons step rest ih =>
    obtain ⟨done, hdone, hsequence⟩ := Edit.sequence_cons_ok hok
    obtain ⟨hfirst, hkept⟩ :=
      hedit step List.mem_cons_self container done hkeeps (htakes step List.mem_cons_self) hdone
    rw [hsequence] at hok ⊢
    obtain ⟨hlater, hkept⟩ := ih
      (fun other hother => hedit other (List.mem_cons_of_mem _ hother))
      (fun other hother => hfirst.grown.takes (htakes other (List.mem_cons_of_mem _ hother)))
      hkept hok
    exact ⟨hfirst.append htrans hlater, hkept⟩

end Action

end NestedData
