import NestedData.Access.Erase
import NestedData.Proofs.Access.Conforming

/-!
# Deletions keep a value valid

A deletion removes entries of maps and elements of growable lists, and empties fields, elements of
fixed lists and the root where they stand.  This module follows it along any path and shows that the
value that is left is valid for every schema that the value was valid for, wherever the deletion ends,
if the schema treats all elements of a growable list alike.

Main results:

- `Value.Upholds.setChild`: a container is as valid with a child replaced by one that is as valid.
- `Value.upholds_zeroed`: a value that is emptied in place is as valid as it was.
- `Action.eraseMembers_upholds`: so is a container after any of its children have been deleted.
- `Value.isValid_eraseAt`: what a deletion leaves behind is valid.
-/

namespace NestedData

/-- After an assignment, a field that paths see is one of the others, or the one found under the name,
with the value. -/
theorem Record.mem_exportedFields_setValue {α : Type} {record : Record α} {name : String} {value : α}
    {field : Field α} (hmem : field ∈ (record.setValue name value).exportedFields) :
    field ∈ record.exportedFields ∨
      ∃ old, record.field? name = some old ∧ old.exported = true ∧ field = { old with value } := by
  rcases record with ⟨typeName, fields⟩
  obtain ⟨hchanged, hexported⟩ := List.mem_filter.mp hmem
  clear hmem
  simp only [setValue, modifyField, field?, exportedFields, List.mem_filter] at hchanged ⊢
  induction fields with
  | nil => cases hchanged
  | cons head rest ih =>
    rw [modifyField.go] at hchanged
    by_cases hsame : head.name = name
    · rw [if_pos hsame] at hchanged
      rcases List.mem_cons.mp hchanged with rfl | hlater
      · exact .inr ⟨head, by simp [hsame], hexported, rfl⟩
      · exact .inl ⟨List.mem_cons_of_mem _ hlater, hexported⟩
    · rw [if_neg hsame] at hchanged
      rcases List.mem_cons.mp hchanged with rfl | hlater
      · exact .inl ⟨List.mem_cons_self, hexported⟩
      · rw [List.find?_cons_of_neg (by simpa using hsame)]
        exact (ih hlater).imp_left fun hother => ⟨List.mem_cons_of_mem _ hother.1, hother.2⟩

namespace Node

variable {node : Node Schema} {accepts : Schema → Value → Prop} {value child : Value} {step : Step}

/-- A container whose child is replaced by one that is admitted has admitted children. -/
theorem admitsChildren_setChild (hadmits : node.AdmitsChildren accepts value)
    (hchild : ∀ part, node.schemaAt? step = some part → node.AdmitsChild accepts part child) :
    node.AdmitsChildren accepts (value.setChild step child) := by
  cases value with
  | record aggregate =>
    cases step with
    | index position => exact hadmits
    | key name =>
      exact AdmitsRecord.setValue hadmits fun part hpart =>
        hchild part (by simp [schemaAt?, valueAt?, hpart])
  | list sequence =>
    cases step with
    | key name => exact hadmits
    | index position => exact AdmitsList.set hadmits hchild
  | map entries =>
    cases step with
    | index position => exact hadmits
    | key name =>
      rw [Value.setChild]
      split
      · rename_i hpresent
        obtain ⟨old, hold⟩ := Option.isSome_iff_exists.mp hpresent
        intro entry hmem
        rcases Entries.mem_insert hmem with rfl | hother
        · have hentry := hadmits _ (Entries.mem_of_get? hold)
          unfold AdmitsEntry at hentry ⊢
          cases hown : node.child? name with
          | some part => exact hchild part (by simp [schemaAt?, valueAt?, hown])
          | none =>
            cases hcommon : node.entries? with
            | none => simpa [hown, hcommon] using hentry
            | some schemas =>
              simp only [hown, hcommon] at hentry ⊢
              exact ⟨hentry.1, hchild schemas.2 (by simp [schemaAt?, valueAt?, hown, hcommon])⟩
        · exact hadmits entry hother
      · exact hadmits
  | _ => exact hadmits

theorem HasUniformElements.elementAt?_eq (huniform : node.HasUniformElements)
    (hkind : node.kind = .list) (position : Nat) : node.elementAt? position = node.element? := by
  rw [elementAt?, huniform.positions hkind position, Option.none_or]

end Node

namespace Value

/-! ## Values that are as valid as others -/

/-- Whatever node one value is valid for, another is valid for too, among the nodes that treat all
elements of a growable list alike. -/
def Upholds (before after : Value) : Prop :=
  ∀ node : Node Schema, (Schema.single node).HasUniformElements →
    (Schema.single node).isValid before = true → (Schema.single node).isValid after = true

variable {before middle after value child next container : Value} {step : Step}

theorem Upholds.refl (value : Value) : Upholds value value :=
  fun _ _ hvalid => hvalid

theorem Upholds.trans (hfirst : Upholds before middle) (hsecond : Upholds middle after) :
    Upholds before after :=
  fun node huniform hvalid => hsecond node huniform (hfirst node huniform hvalid)

/-- What is as valid for every node is so for every schema. -/
theorem Upholds.isValid (hupholds : Upholds before after) {schema : Schema}
    (huniform : schema.HasUniformElements) (hvalid : schema.isValid before = true) :
    schema.isValid after = true := by
  cases schema with
  | single node => exact hupholds node huniform hvalid
  | choice union =>
    obtain ⟨alternative, hmem, hfits⟩ := Schema.isValid_choice_iff.mp hvalid
    have halternative := (Schema.everywhere_choice_iff.mp huniform).2 alternative
      (NodeUnion.mem_of_mem_ordered hmem)
    exact Schema.isValid_choice_iff.mpr ⟨alternative, hmem, hupholds _ halternative hfits⟩

theorem Upholds.admitsChild (hupholds : Upholds before after) {node : Node Schema} {part : Schema}
    (hpart : part.HasUniformElements)
    (hadmits : node.AdmitsChild (fun part child => part.isValid child = true) part before) :
    node.AdmitsChild (fun part child => part.isValid child = true) part after :=
  hadmits.imp_right (hupholds.isValid hpart)

/-- A value of the same kind whose children are admitted where those of the other are is as valid. -/
theorem Upholds.of_children (hkind : after.kind = before.kind)
    (habsent : before.isAbsent = true → after.isAbsent = true)
    (hchildren : ∀ node : Node Schema, (Schema.single node).HasUniformElements →
      before.kind = node.kind →
      node.AdmitsChildren (fun part child => part.isValid child = true) before →
      node.AdmitsChildren (fun part child => part.isValid child = true) after) :
    Upholds before after := by
  intro node huniform hvalid
  have hvalidator := (Schema.everywhere_single_iff.mp huniform).1.validator
  rw [Schema.isValid_single_iff, Node.Admits, hvalidator] at hvalid ⊢
  rcases hvalid with hany | ⟨hnilable, hnothing⟩ | ⟨hsame, hadmits⟩
  · exact .inl hany
  · exact .inr (.inl ⟨hnilable, habsent hnothing⟩)
  · exact .inr (.inr ⟨hkind.trans hsame, hchildren node huniform hsame hadmits⟩)

theorem Upholds.ref (hupholds : Upholds before after) : Upholds (.ref before) (.ref after) := by
  refine .of_children rfl (fun habsent => habsent) fun node huniform _ hadmits part hpointee => ?_
  have hpart := (Schema.everywhere_single_iff.mp huniform).2 part
    (Node.mem_parts_of_pointee? hpointee)
  exact hupholds.admitsChild hpart (hadmits part hpointee)

theorem Upholds.mapTarget (hupholds : Upholds value.target after) :
    Upholds value (value.mapTarget fun _ => after) := by
  induction value using induct with
  | ref referent ih => exact (ih hupholds).ref
  | _ => exact hupholds

/-! ## One container -/

/-- Replacing a child keeps the kind of a container. -/
@[simp]
theorem kind_setChild (container : Value) (step : Step) (child : Value) :
    (container.setChild step child).kind = container.kind := by
  cases container with
  | map entries =>
    cases step with
    | index position => rfl
    | key name =>
      rw [setChild]
      split <;> rfl
  | record aggregate => cases step <;> rfl
  | list sequence =>
    cases step with
    | key name => rfl
    | index position => rw [setChild, kind_list, kind_list, Sequence.extent_set]
  | _ => rfl

theorem isContainer_of_isAbsent (habsent : value.isAbsent = true) :
    value.kind.isContainer = false := by
  cases value <;> first | rfl | cases habsent

theorem setChild_of_leaf (hleaf : value.kind.isContainer = false) (step : Step) (child : Value) :
    value.setChild step child = value := by
  cases value with
  | list sequence =>
    rw [kind_list] at hleaf
    split at hleaf <;> cases hleaf
  | _ => first | rfl | cases hleaf

/-- A container that is as valid as another one stays so when the child at a step is replaced by what
is as valid as the child of the other one. -/
theorem Upholds.setChild (hmem : (step, child) ∈ container.children)
    (hchild : Upholds child next) (hcurrent : Upholds container after) :
    Upholds container (after.setChild step next) := by
  intro node huniform hvalid
  obtain ⟨hnode, hparts⟩ := Schema.everywhere_single_iff.mp huniform
  have hafter := hcurrent node huniform hvalid
  rw [Schema.isValid_single_iff, Node.Admits, hnode.validator] at hvalid hafter ⊢
  rcases hvalid with hany | ⟨_, hnothing⟩ | ⟨_, hadmits⟩
  · exact .inl hany
  · cases container <;> first | cases hmem | cases hnothing
  · have hnext (part : Schema) (hpart : node.schemaAt? step = some part) :
        node.AdmitsChild (fun part child => part.isValid child = true) part next :=
      hchild.admitsChild (hparts part (Node.mem_parts_of_schemaAt? hpart))
        (Node.admitsChild_of_mem hadmits hmem hpart)
    rcases hafter with hany | ⟨hnilable, hnothing⟩ | ⟨hkind, hothers⟩
    · exact .inl hany
    · rw [setChild_of_leaf (isContainer_of_isAbsent hnothing)]
      exact .inr (.inl ⟨hnilable, hnothing⟩)
    · exact .inr (.inr ⟨(kind_setChild _ _ _).trans hkind,
        Node.admitsChildren_setChild hothers hnext⟩)

theorem upholds_erase (entries : Entries Value) (name : String) :
    Upholds (.map entries) (.map (Entries.erase entries name)) :=
  .of_children rfl (fun habsent => habsent) fun _ _ _ hadmits entry hmem =>
    hadmits entry ((Entries.erase_sublist entries name).subset hmem)

/-- A growable list is as valid without some of its elements. -/
theorem upholds_without (sequence : Sequence Value) (hgrowable : sequence.canGrow = true)
    (indices : List Nat) :
    Upholds (.list sequence) (.list { sequence with items := sequence.without indices }) := by
  have hextent : sequence.extent = .growable := of_decide_eq_true hgrowable
  refine .of_children (by simp [kind_list]) (fun habsent => habsent)
    fun node huniform hkind hadmits => ?_
  have hlist : node.kind = .list := by rw [← hkind, kind_list, if_pos hextent]
  have hnode := (Schema.everywhere_single_iff.mp huniform).1
  refine ⟨fun length hlength => ?_, fun position item hitem part hpart => ?_⟩
  · rw [Node.length?_of_kind (by simp [hlist])] at hlength
    cases hlength
  · have hmem : item ∈ (sequence.without indices).toList := by
      rw [Array.mem_toList_iff]
      exact Array.mem_of_getElem? hitem
    rw [Sequence.toList_without] at hmem
    obtain ⟨⟨other, index⟩, hold, hkept⟩ := List.mem_filterMap.mp hmem
    obtain rfl : other = item := by
      split at hkept
      · cases hkept
      · exact Option.some.inj hkept
    have hfound := List.mk_mem_zipIdx_iff_getElem?.mp hold
    refine hadmits.items index other (by simpa using hfound) part ?_
    rw [hnode.elementAt?_eq hlist] at hpart ⊢
    exact hpart

/-! ## Emptying in place -/

/-- A list whose elements are replaced by ones that are as valid is as valid. -/
theorem upholds_mapItems {items : Array Value} {extent : Extent} {f : Value → Value}
    (hitems : ∀ item ∈ items, Upholds item (f item)) :
    Upholds (.list { extent, items }) (.list { extent, items := items.map f }) := by
  refine .of_children (by simp [kind_list]) (fun habsent => habsent)
    fun node huniform _ hadmits => ⟨fun length hlength => ?_, fun position item hitem part hpart => ?_⟩
  · exact (Array.size_map ..).trans (hadmits.length length hlength)
  · obtain ⟨old, hold, rfl⟩ := Option.map_eq_some_iff.mp (by simpa using hitem)
    have hmem := (Schema.everywhere_single_iff.mp huniform).2 part
      (Node.mem_parts_of_elementAt? hpart)
    exact (hitems old (Array.mem_of_getElem? hold)).admitsChild hmem
      (hadmits.items position old hold part hpart)

/-- A record whose fields are given values that are as valid is as valid. -/
theorem upholds_mapFields {aggregate : Record Value} {f : Value → Value}
    (hfields : ∀ field ∈ aggregate.fields, Upholds field.value (f field.value)) :
    Upholds (.record aggregate) (.record (aggregate.mapValues f)) := by
  refine .of_children rfl (fun habsent => habsent) fun node huniform _ hadmits => ?_
  refine ⟨hadmits.name, fun field hfield => ?_, fun child hchild => ?_⟩
  · obtain ⟨hmem, hexported⟩ := List.mem_filter.mp hfield
    obtain ⟨old, hold, rfl⟩ := List.mem_map.mp hmem
    obtain ⟨part, hpart, hfits⟩ := hadmits.fields old (List.mem_filter.mpr ⟨hold, hexported⟩)
    have hmem := (Schema.everywhere_single_iff.mp huniform).2 part (Node.mem_parts_of_child? hpart)
    exact ⟨part, hpart, (hfields old hold).admitsChild hmem hfits⟩
  · have hsame : (aggregate.mapValues f).declarations = aggregate.declarations := by
      simp [Record.declarations, Record.mapValues]
    rw [isSome_get?_of_declarations hsame]
    exact hadmits.complete child hchild

theorem zeroed_of_isAbsent (habsent : value.isAbsent = true) : value.zeroed = value := by
  cases value with
  | null | nilRef => rw [zeroed]
  | _ => cases habsent

/-- A value that is emptied in place is as valid as it was. -/
theorem upholds_zeroed (value : Value) : Upholds value value.zeroed := by
  have hempty {value : Value} (hchildren : ∀ node : Node Schema, value.kind = node.kind →
      node.AdmitsChildren (fun part child => part.isValid child = true) value.zeroed) :
      Upholds value value.zeroed :=
    .of_children (kind_zeroed value) (fun habsent => by rwa [zeroed_of_isAbsent habsent])
      fun node _ hkind _ => hchildren node hkind
  induction value using induct with
  | list sequence ih =>
    rcases sequence with ⟨extent, items⟩
    cases extent with
    | fixed =>
      rw [zeroed]
      exact upholds_mapItems ih
    | growable =>
      refine hempty fun node hkind => ?_
      rw [zeroed]
      refine ⟨fun length hlength => ?_, fun position item hitem => ?_⟩
      · rw [Node.length?_of_kind (by simp [← hkind, kind])] at hlength
        cases hlength
      · simp [Sequence.growable] at hitem
  | record aggregate ih =>
    rw [zeroed]
    exact upholds_mapFields ih
  | map entries ih =>
    refine hempty fun node _ => ?_
    rw [zeroed]
    intro entry hmem
    cases hmem
  | _ =>
    refine hempty fun node _ => ?_
    rw [zeroed]
    trivial

end Value

namespace Action

open Value

variable {container value : Value} {location : Location} {strict : Bool}

/-! ## Deleting children -/

/-- A container is as valid after a child has been deleted. -/
theorem eraseMember_upholds (location : Location) (strict : Bool) (step : Step) (container : Value) :
    Upholds container (eraseMember location strict step container).value := by
  unfold eraseMember
  split
  · split
    · exact upholds_erase _ _
    · exact .refl _
  · rename_i aggregate name
    cases hfield : aggregate.field? name with
    | none => exact .refl _
    | some field =>
      dsimp only
      split
      · refine .of_children rfl (fun habsent => habsent) fun node huniform _ hadmits => ?_
        refine ⟨hadmits.name, fun other hother => ?_, fun child hchild => ?_⟩
        · rcases Record.mem_exportedFields_setValue hother with hkept | ⟨old, hold, hexported, rfl⟩
          · exact hadmits.fields other hkept
          · obtain rfl := Option.some.inj (hfield.symm.trans hold)
            obtain ⟨part, hpart, hfits⟩ := hadmits.fields field
              (List.mem_filter.mpr ⟨(Record.mem_of_field? hfield).1, hexported⟩)
            have hmem := (Schema.everywhere_single_iff.mp huniform).2 part
              (Node.mem_parts_of_child? hpart)
            exact ⟨part, hpart, (upholds_zeroed _).admitsChild hmem hfits⟩
        · rw [isSome_get?_of_declarations (aggregate.declarations_setValue name _)]
          exact hadmits.complete child hchild
      · split <;> exact .refl _
  · rename_i sequence position
    split
    · rename_i item hitem
      have hchild : (Value.list sequence).child? (.index position) = some item := hitem
      exact .setChild (mem_children_of_child? hchild) (upholds_zeroed item) (.refl _)
    · exact .refl _
  · exact .refl _

/-- A container is as valid after any of its children have been deleted. -/
theorem eraseMembers_upholds (location : Location) (strict : Bool) (steps : List Step)
    (container : Value) :
    Upholds container (eraseMembers location strict steps container).value := by
  have hone : Upholds container
      (Edit.sequence steps (eraseMember location strict) {} container).value :=
    Edit.sequence_preserves (fun step _ current hcurrent =>
      hcurrent.trans (eraseMember_upholds location strict step current)) (.refl container) {}
  unfold eraseMembers
  split
  · split
    · exact upholds_without _ ‹_› _
    · exact hone
  · exact hone

/-- A container is as valid after an edit of a child that leaves the child as valid. -/
theorem editChild_upholds {edit : Location → Value → Edit} {step : Step}
    (hedit : ∀ location child, Upholds child (edit location child).value) :
    Upholds container (editChild none location edit step container).value := by
  simp only [editChild, Option.isSome_none, Bool.false_and, Bool.false_eq_true, if_false]
  cases hchild : container.child? step with
  | none => exact .refl _
  | some child => exact .setChild (mem_children_of_child? hchild) (hedit _ child) (.refl _)

/-! ## Deleting along a path -/

/-- What a group of segments leads to is deleted from a value that stays as valid. -/
theorem descend_erase_upholds {arrive : Option (Location → Value → Edit)}
    (harrive : ∀ edit, arrive = some edit → ∀ location value, Upholds value (edit location value).value)
    (searching strict creating : Bool) (segments : List Segment) (location : Location)
    (value : Value) :
    Upholds value (descend erase arrive searching strict creating segments location value).value := by
  induction segments generalizing searching strict creating location value with
  | nil =>
    cases arrive with
    | none => exact upholds_zeroed value
    | some edit => exact harrive edit rfl location value
  | cons segment rest ih =>
    by_cases hsegment : segment = .root
    · subst hsegment
      exact ih false strict creating location value
    · rw [descend_erase_segment hsegment, Edit.atTarget_eq]
      apply Upholds.mapTarget
      split
      · exact .refl _
      · split
        · exact eraseMembers_upholds _ _ _ _
        · exact Edit.sequence_preserves (fun step _ current hcurrent =>
            hcurrent.trans (editChild_upholds fun location child => ih _ _ _ location child))
            (.refl _) {}

/-- Editing everything inside a value leaves it as valid if the edit does. -/
theorem throughout_upholds {edit : Location → Value → Edit}
    (hedit : ∀ location value, Upholds value (edit location value).value)
    (location : Location) (value : Value) :
    Upholds value (throughout edit location value).value := by
  induction value using induct_children generalizing location with
  | hstep value ih =>
    rw [throughout_eq, Edit.atTarget_eq]
    apply Upholds.mapTarget
    have hinside : Upholds value.target
        (Edit.sequence value.target.children (fun child container =>
          let inner := throughout edit (location.child child.1) child.2
          { inner with value := container.setChild child.1 inner.value }) {} value.target).value :=
      Edit.sequence_preserves
        (fun child hmem current hcurrent => .setChild hmem (ih child hmem _) hcurrent) (.refl _) {}
    unfold throughoutContainer
    dsimp only at hinside ⊢
    split
    · exact hinside
    · exact hinside.trans (hedit location _)

/-- What a search finds is deleted from a value that stays as valid. -/
theorem search_erase_upholds (searches : List (List Segment)) (edit : Location → Value → Edit)
    (hedit : search erase searches = some edit) (location : Location) (value : Value) :
    Upholds value (edit location value).value := by
  induction searches generalizing edit location value with
  | nil => cases hedit
  | cons group rest ih =>
    obtain rfl := Option.some.inj hedit
    exact throughout_upholds
      (fun location value => descend_erase_upholds ih true false false group location value)
      location value

end Action

namespace Value

variable {schema : Schema} {root : Value}

/-- Whether or not a deletion succeeds, what it leaves of a valid value is valid, if the schema checks by
the rules for the shapes and treats all elements of a growable list alike. -/
theorem isValid_eraseAt (huniform : schema.HasUniformElements) (hvalid : schema.isValid root = true)
    (path : Path) : schema.isValid (root.eraseAt path).1 = true := by
  have hedit := Action.descend_erase_upholds (Action.search_erase_upholds path.searches) false true true
    path.first [] root
  have hroot : Upholds root (root.eraseAt path).1 := by
    simp only [eraseAt, Action.run]
    split
    · exact hedit
    · split <;> exact hedit
  exact hroot.isValid huniform hvalid

/-- An entry has been removed from a valid alternative of a union before the deletion fails at a field
that paths do not see, in another alternative. -/
theorem isValid_eraseAt_partly :
    let badge : Node Schema := {
      shape := .record, typeName := some "Badge", children := [("id", .single { shape := .int })] }
    let union : NodeUnion Schema := {
      name := "Entry"
      alternatives := [("badge", badge),
        ("numbers", { shape := .map (some (.single { shape := .string }, .single { shape := .int })) })] }
    let schema : Schema := .single {
      shape := .map (some (.single { shape := .string }, .choice union)), nilable := true }
    let secret : Value := .record { name := "Badge", fields := [
      { name := "id", value := .int 7 }, { name := "pin", value := .int 1, exported := false }] }
    let root : Value := .map [("one", .map [("pin", .int 5), ("other", .int 6)]), ("two", secret)]
    let path : Path := { first := [.root, .wildcard, .key "pin"] }
    let after : Value := .map [("one", .map [("other", .int 6)]), ("two", secret)]
    let error : AccessError :=
      { operation := .delete, path := { first := [.root, .key "two"] }, value := secret,
        obstacle := .misfit (.key "pin") (.hiddenField "pin" "Badge") }
    schema.HasUniformElements ∧ schema.isValid root = true ∧
      root.eraseAt path = (after, .error error) ∧ schema.isValid after = true := by
  intro badge union schema secret root path after error
  have huniform : schema.HasUniformElements := by
    simp [schema, union, badge, Schema.HasUniformElements, Node.hasUniformElements_iff, Node.parts,
      Node.element?, Node.entries?, Node.pointee?, Node.kind, Shape.kind]
  have hvalid : schema.isValid root = true := by
    simp only [badge, union, schema, secret, root]
    cbv
  have herase : root.eraseAt path = (after, .error error) := by
    simp only [secret, root, path, after, error]
    cbv
  have hafter := isValid_eraseAt huniform hvalid path
  rw [herase] at hafter
  exact ⟨huniform, hvalid, herase, hafter⟩

end Value

end NestedData
