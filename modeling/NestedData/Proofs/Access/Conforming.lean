import NestedData.Proofs.Access.Advancing
import NestedData.Proofs.Schema.Children
import NestedData.Proofs.Schema.Shapes
import NestedData.Proofs.Schema.ZeroValues

/-!
# Assignments that keep a value valid

An assignment under a schema makes what is missing on its way: a container from the zero value of the
node that the schema has for the place, or of the plain shape if a reference to a reference is found
there, a placeholder for a new entry of a map, zero values as padding of a list.  Whether the value it leaves is valid is followed step by step along the path, together with
the node that governs the place reached so far.

Main results:

- Theorem `Node.admitsChildren_put`: a container stays valid when a valid child is put into it
- Theorem `Schema.Governs.containerAt_eq`: where nothing is, the container made is the zero value of the
  node that governs the place
- Theorem `Action.isValid_descend_assign`: going down the path keeps the value valid, from any place
- Theorem `Value.isValid_setAt`: an assignment keeps the value valid, if the references that the schema
  asks for on the way are there
- Theorem `Value.setAt_misses_reference`: a reference that is missing under a new key is not made
-/

namespace NestedData

theorem Value.kind_list (sequence : Sequence Value) :
    (Value.list sequence).kind = if sequence.extent = .growable then .list else .array := by
  rcases sequence with ⟨extent, items⟩
  cases extent <;> rfl

namespace Node

variable {node : Node Schema} {accepts : Schema → Value → Prop}

/-! ## Valid children in valid containers -/

/-- A record is valid after a field has been assigned a valid value. -/
theorem AdmitsRecord.setValue {aggregate : Record Value} {name : String} {value : Value}
    (hadmits : node.AdmitsRecord accepts aggregate)
    (hvalue : ∀ part, node.child? name = some part → node.AdmitsChild accepts part value) :
    node.AdmitsRecord accepts (aggregate.setValue name value) where
  name := hadmits.name
  fields := by
    intro field hfield
    obtain ⟨hmem, hexported⟩ := List.mem_filter.mp hfield
    rcases Record.mem_fields_setValue hmem with hother | ⟨old, hold, hname, rfl⟩
    · exact hadmits.fields field (List.mem_filter.mpr ⟨hother, hexported⟩)
    · obtain ⟨part, hpart, _⟩ := hadmits.fields old (List.mem_filter.mpr ⟨hold, hexported⟩)
      exact ⟨part, hpart, hvalue part (hname ▸ hpart)⟩
  complete := by
    intro child hmem
    have hsame := Value.isSome_get?_of_declarations (aggregate.declarations_setValue name value)
    rw [hsame]
    exact hadmits.complete child hmem

/-- A list without a fixed length is valid after it has been padded with valid elements. -/
theorem AdmitsList.pad {sequence : Sequence Value} {fill : Nat → Value}
    (hadmits : node.AdmitsList accepts sequence) (hlength : node.length? = none)
    (hfill : ∀ position part, node.elementAt? position = some part →
      node.AdmitsChild accepts part (fill position)) (length : Nat) :
    node.AdmitsList accepts (sequence.pad length fill) where
  length := by simp [hlength]
  items := by
    intro position item hitem part hpart
    rcases Sequence.getElem?_pad hitem with hold | rfl
    · exact hadmits.items position item hold part hpart
    · exact hfill position part hpart

/-- A list is valid after an element has been replaced by a valid one. -/
theorem AdmitsList.set {sequence : Sequence Value} {position : Nat} {value : Value}
    (hadmits : node.AdmitsList accepts sequence)
    (hvalue : ∀ part, node.elementAt? position = some part → node.AdmitsChild accepts part value) :
    node.AdmitsList accepts (sequence.set position value) where
  length := by
    intro length hlength
    rw [Sequence.size_set]
    exact hadmits.length length hlength
  items := by
    intro index item hitem part hpart
    rw [Sequence.set, Array.getElem?_setIfInBounds] at hitem
    split at hitem
    · rename_i hsame
      split at hitem
      · obtain rfl := Option.some.inj hitem
        exact hvalue part (hsame ▸ hpart)
      · cases hitem
    · exact hadmits.items index item hitem part hpart

/-- A container is valid after room has been made for a child and a valid child been put there. -/
theorem admitsChildren_put {shaping : Shaping} {location : Location} {step : Step}
    {container child : Value} (hkind : container.kind = node.kind)
    (hadmits : node.AdmitsChildren accepts container) (htakes : container.Takes step)
    (hzero : node.kind = .list → ∀ position part, node.elementAt? position = some part →
      accepts part (shaping.zeroAt (location.child (.index position))))
    (hentry : ∀ name, step = .key name → node.kind = .map → node.AdmitsEntry accepts name child)
    (hchild : ∀ part, node.schemaAt? step = some part → accepts part child) :
    (Action.put shaping location step child container).kind = node.kind ∧
      node.AdmitsChildren accepts (Action.put shaping location step child container) := by
  cases htakes using Value.Takes.casesOn with
  | entry entries name =>
    rw [Action.put_map]
    refine ⟨hkind, fun entry hmem => ?_⟩
    rcases Entries.mem_insert hmem with rfl | hother
    · exact hentry name rfl hkind.symm
    · exact hadmits entry hother
  | field aggregate name _ =>
    refine ⟨hkind, AdmitsRecord.setValue hadmits fun part hpart => .inr (hchild part ?_)⟩
    simp [schemaAt?, valueAt?, hpart]
  | element sequence position _ =>
    rw [Action.put_list]
    refine ⟨?_, AdmitsList.set ?_ fun part hpart => .inr (hchild part hpart)⟩
    · rw [← hkind, Value.kind_list, Value.kind_list, Sequence.extent_set,
        Action.extent_padTo]
    · unfold Action.padTo
      split
      · rename_i hgrows
        have hlist : node.kind = .list := by
          rw [← hkind, Value.kind_list, if_pos (of_decide_eq_true hgrows)]
        exact hadmits.pad (length?_of_kind (by simp [hlist]))
          (fun position part hpart => .inr (hzero hlist position part hpart)) _
      · exact hadmits

theorem zero_of_map (hplain : node.IsPlain) (hkind : node.kind = .map) : node.zero = .map [] := by
  rw [Node.zero, Schema.zero_single, zeroWith, hplain.default]
  unfold kind at hkind
  cases hshape : node.shape <;> simp_all [Shape.kind]

theorem zero_of_list (hplain : node.IsPlain) (hkind : node.kind = .list) :
    node.zero = .ofItems #[] := by
  rw [Node.zero, Schema.zero_single, zeroWith, hplain.default]
  unfold kind at hkind
  cases hshape : node.shape <;> simp_all [Shape.kind, Value.ofItems]

/-- The children of the zero value of a container are the zero values of their schemas. -/
theorem child?_zero {step : Step} {child : Value} {part : Schema} (hplain : node.IsPlain)
    (hchild : node.zero.child? step = some child) (hpart : node.schemaAt? step = some part) :
    child = part.zero := by
  rw [Node.zero, Schema.zero_single, zeroWith, hplain.default] at hchild
  cases hshape : node.shape with
  | record =>
    simp only [hshape] at hchild
    cases step with
    | index position => cases hchild
    | key name =>
      obtain ⟨field, hfield, _, rfl⟩ := Record.get?_eq_some_iff.mp hchild
      obtain ⟨hmem, rfl⟩ := Record.mem_of_field? hfield
      obtain ⟨declared, _, rfl⟩ := List.mem_map.mp (Record.mem_fields_ofFields hmem)
      have hkind : node.kind = .record := by
        rw [kind, hshape]
        rfl
      rw [schemaAt?, valueAt?_of_record hkind] at hpart
      have hdeclared := Entries.get?_of_mem hplain.names declared.2
      obtain rfl := Option.some.inj (hdeclared.symm.trans hpart)
      rfl
  | array bound? =>
    simp only [hshape] at hchild
    cases step with
    | key name => cases hchild
    | index position =>
      obtain ⟨hinside, rfl⟩ := Array.getElem?_eq_some_iff.mp hchild
      have hpart : node.elementAt? position = some part := hpart
      simp only [Sequence.fixed, Array.getElem_ofFn]
      split
      · rename_i hfound
        rw [Option.some.inj (hfound.symm.trans hpart)]
      · rename_i hmissing
        rw [hpart] at hmissing
        cases hmissing
  | list element? =>
    simp only [hshape] at hchild
    cases step <;> simp [Value.child?, Sequence.get?, Sequence.growable] at hchild
  | map entries? =>
    simp only [hshape] at hchild
    cases step <;> simp [Value.child?, Entries.get?] at hchild
  | _ => simp [hshape, Value.child?] at hchild

/-! ## Containers of the plain shape -/

/-- Where a chain of references ends in nothing, a container of the plain shape for the segment will
do: it is what the schema describes there, or the schema describes anything. -/
inductive FitsPlain (segment : Segment) : Node Schema → Value → Prop
  /-- A list or a map is described, as the segment asks for. -/
  | made {node : Node Schema} (hkind : node.kind = if segment.isIndexShaped then .list else .map) :
      FitsPlain segment node .null
  /-- Any value may be there. -/
  | any {node : Node Schema} {value : Value} (hkind : node.kind = .any) :
      FitsPlain segment node value
  /-- Whatever a reference refers to will do. -/
  | anyReferent {node : Node Schema} {value : Value} (hkind : node.kind = .ref)
      (hpointee : node.pointee? = none) : FitsPlain segment node value
  /-- A reference to nothing is pointed at the container. -/
  | nilRef {node pointee : Node Schema} (hkind : node.kind = .ref)
      (hpointee : node.pointee? = some (.single pointee)) (hmade : FitsPlain segment pointee .null) :
      FitsPlain segment node .nilRef
  /-- The container is made behind the reference. -/
  | ref {node pointee : Node Schema} {referent : Value} (hkind : node.kind = .ref)
      (hpointee : node.pointee? = some (.single pointee))
      (hreferent : FitsPlain segment pointee referent) : FitsPlain segment node (.ref referent)

/-- The zero value of a container that is to be of the plain shape is of that shape. -/
theorem zero_of_fitsPlain {segment : Segment} (hplain : node.IsPlain)
    (hcontainer : node.kind.isContainer = true) (hfits : node.FitsPlain segment .null)
    (location : Location) : node.zero = Shaping.plain.containerAt location segment := by
  cases hfits with
  | made hkind =>
    simp only [Shaping.plain]
    split at hkind
    · rw [zero_of_list hplain hkind, if_pos ‹_›]
    · rw [zero_of_map hplain hkind, if_neg ‹_›]
  | any hkind | anyReferent hkind =>
    rw [hkind] at hcontainer
    cases hcontainer

end Node

namespace Schema

/-! ## The schema of a place -/

/-- A node of a schema governs a place with a value from which segments go on: what is looked up below
the place is looked up in the node.  If nothing is there, the node is also what is found for the place
itself, or what the reference found there refers to; or else the container that is made has the plain
shape, which will do. -/
structure Governs (schema : Schema) (location : Location) (node : Node Schema)
    (segments : List Segment) (value : Value) : Prop where
  /-- Look-ups below the place go on in the node. -/
  below : ∀ segment rest start found,
    (Schema.single node).lookup (segment :: rest) start = .ok found →
      schema.lookup (location.map Step.segment ++ segment :: rest) [] = .ok found
  /-- Where nothing is, the node is found, or what is made fits. -/
  here : value.target.isAbsent = true →
    schema.lookup (location.map Step.segment) [] = .ok node ∨
      (value = .null ∧ ∃ outer, schema.lookup (location.map Step.segment) [] = .ok outer ∧
        outer.kind = .ref ∧ outer.pointee? = some (.single node)) ∨
      (schema.containerNode? location = none ∧
        ∀ segment ∈ segments.head?, node.FitsPlain segment value)

variable {schema : Schema} {location : Location} {node pointee part : Node Schema} {value : Value}
  {step : Step} {segment : Segment} {segments rest : List Segment}

theorem governs_root (node : Node Schema) (segments : List Segment) (value : Value) :
    (Schema.single node).Governs [] node segments value where
  below _ _ _ _ hfound := lookup_eq_ok_of_lookup hfound []
  here _ := .inl (by rw [lookup_single]; rfl)

/-- Where a reference to a reference is found, no container is described. -/
theorem containerNode?_of_pointee (hfound : schema.lookup (location.map Step.segment) [] = .ok node)
    (hkind : node.kind = .ref) (hpointee : node.pointee? = some (.single pointee))
    (href : pointee.kind = .ref) : schema.containerNode? location = none := by
  rw [← at?_toPath] at hfound
  simp [containerNode?, hfound, hkind, hpointee, primary?, href, Kind.isContainer, Kind.isLinear,
    Kind.isAssociative]

/-- What a reference refers to is governed by its own schema.  Where it is missing without being null,
a container of the plain shape has to do. -/
theorem Governs.referent {referent : Value}
    (hgoverns : schema.Governs location node (segment :: rest) (.ref referent))
    (hkind : node.kind = .ref) (hpointee : node.pointee? = some (.single pointee))
    (hmissing : referent.target.isAbsent = true →
      referent = .null ∨ (pointee.kind = .ref ∧ pointee.FitsPlain segment referent)) :
    schema.Governs location pointee (segment :: rest) referent where
  below segment rest start found hfound := by
    apply hgoverns.below segment rest start found
    rw [lookup_single, Node.lookupWith_of_ref hkind hpointee]
    exact hfound
  here habsent := by
    rcases hgoverns.here habsent with hfound | ⟨hnull, _⟩ | ⟨hnone, hfits⟩
    · rcases hmissing habsent with hnull | ⟨href, hfits⟩
      · exact .inr (.inl ⟨hnull, node, hfound, hkind, hpointee⟩)
      · refine .inr (.inr ⟨containerNode?_of_pointee hfound hkind hpointee href, ?_⟩)
        rintro _ ⟨⟩
        exact hfits
    · cases hnull
    · refine .inr (.inr ⟨hnone, ?_⟩)
      rintro _ ⟨⟩
      cases hfits segment rfl with
      | any hany => cases hkind.symm.trans hany
      | anyReferent _ hnothing => cases hpointee.symm.trans hnothing
      | ref _ hother hreferent =>
        cases hpointee.symm.trans hother
        exact hreferent

/-- What is put behind a reference to nothing is governed by the schema of referents. -/
theorem Governs.nilRef (hgoverns : schema.Governs location node (segment :: rest) .nilRef)
    (hkind : node.kind = .ref) (hpointee : node.pointee? = some (.single pointee)) :
    schema.Governs location pointee (segment :: rest) .null where
  below segment rest start found hfound := by
    apply hgoverns.below segment rest start found
    rw [lookup_single, Node.lookupWith_of_ref hkind hpointee]
    exact hfound
  here _ := by
    rcases hgoverns.here rfl with hfound | ⟨hnull, _⟩ | ⟨hnone, hfits⟩
    · exact .inr (.inl ⟨rfl, node, hfound, hkind, hpointee⟩)
    · cases hnull
    · refine .inr (.inr ⟨hnone, ?_⟩)
      rintro _ ⟨⟩
      cases hfits segment rfl with
      | any hany => cases hkind.symm.trans hany
      | anyReferent _ hnothing => cases hpointee.symm.trans hnothing
      | nilRef _ hother hmade =>
        cases hpointee.symm.trans hother
        exact hmade

/-- What is looked up from a child on is looked up in its schema. -/
theorem Governs.lookup_child (hgoverns : schema.Governs location node segments value)
    (hstep : node.stepOf? step.segment = some step) (hreaches : node.Reaches step)
    (hpart : node.schemaAt? step = some (.single part)) {rest : List Segment} {start : Location}
    {found : Node Schema} (hfound : (Schema.single part).lookup rest start = .ok found) :
    schema.lookup ((location.child step).map Step.segment ++ rest) [] = .ok found := by
  rw [Location.child, List.map_append, List.append_assoc]
  apply hgoverns.below step.segment rest start found
  rw [lookup_single, Node.lookupWith_of_part hstep hreaches hpart]
  exact lookup_eq_ok_of_lookup hfound _

/-- A child itself is found by its schema. -/
theorem Governs.lookup_child_self (hgoverns : schema.Governs location node segments value)
    (hstep : node.stepOf? step.segment = some step) (hreaches : node.Reaches step)
    (hpart : node.schemaAt? step = some (.single part)) :
    schema.lookup ((location.child step).map Step.segment) [] = .ok part := by
  have hself : (Schema.single part).lookup [] [] = .ok part := by
    rw [lookup_single]
    rfl
  have hfound := hgoverns.lookup_child hstep hreaches hpart hself
  rwa [List.append_nil] at hfound

theorem Governs.child (hgoverns : schema.Governs location node segments value)
    (hstep : node.stepOf? step.segment = some step) (hreaches : node.Reaches step)
    (hpart : node.schemaAt? step = some (.single part)) (later : List Segment) (other : Value) :
    schema.Governs (location.child step) part later other where
  below _ _ _ _ hfound := hgoverns.lookup_child hstep hreaches hpart hfound
  here _ := .inl (hgoverns.lookup_child_self hstep hreaches hpart)

/-- The container made where nothing is, is the zero value of the node that governs the place. -/
theorem Governs.containerAt_eq (hgoverns : schema.Governs location node (segment :: rest) .null)
    (hplain : node.IsPlain) (hcontainer : node.kind.isContainer = true) :
    schema.containerAt location segment = node.zero := by
  rcases hgoverns.here rfl with hfound | ⟨_, outer, hfound, href, hpointee⟩ | ⟨hnone, hfits⟩
  · rw [← at?_toPath] at hfound
    exact containerAt_of_lookup hfound hcontainer segment
  · rw [← at?_toPath] at hfound
    have hnode : schema.containerNode? location = some node := by
      simp [containerNode?, hfound, href, hpointee, primary?, hcontainer]
    rw [containerAt, hnode]
  · rw [containerAt, hnone, Node.zero_of_fitsPlain hplain hcontainer (hfits segment rfl) location]

/-- A list is padded with the zero values of its elements. -/
theorem Governs.zeroAt_eq {position : Nat} (hgoverns : schema.Governs location node segments value)
    (hkind : node.kind = .list) (hpart : node.elementAt? position = some (.single part)) :
    schema.zeroAt (location.child (.index position)) = part.zero := by
  have hstep : node.stepOf? (Step.index position).segment = some (.index position) := by
    simp [Node.stepOf?, hkind, Step.segment]
  have hreaches : node.Reaches (.index position) := by
    intro _ length _ hlength
    rw [Node.length?_of_kind (by simp [hkind])] at hlength
    cases hlength
  have hfound := hgoverns.lookup_child_self hstep hreaches hpart
  rw [← at?_toPath] at hfound
  exact zeroAt_of_lookup hfound

/-! ## Where references are needed -/

end Schema

/-- What an assignment finds where a step leads: the child, or what is put in place of one that is
missing, which is null in a map and the zero value elsewhere. -/
def Node.slotAt (node : Node Schema) (value : Value) (step : Step) (part : Schema) : Value :=
  (value.child? step).getD (if node.kind = .map then .null else part.zero)

namespace Schema

/-- Along segments, a value has the references that a schema asks for: where a reference is described,
there is one, and if it is to lead to another reference, it leads to something or a container of the
plain shape will do. -/
inductive Linked : Schema → List Segment → Value → Prop
  /-- At the end of the segments nothing is needed. -/
  | nil {schema : Schema} {value : Value} : Linked schema [] value
  /-- Any value may be there. -/
  | any {node : Node Schema} {segments : List Segment} {value : Value} (hkind : node.kind = .any) :
      Linked (.single node) segments value
  /-- There is a reference, and whatever it refers to will do. -/
  | anyReferent {node : Node Schema} {segment : Segment} {rest : List Segment} {value : Value}
      (hkind : node.kind = .ref) (hpointee : node.pointee? = none)
      (hreference : value.isReference = true) : Linked (.single node) (segment :: rest) value
  /-- There is a reference to a value. -/
  | ref {node pointee : Node Schema} {segment : Segment} {rest : List Segment} {referent : Value}
      (hkind : node.kind = .ref) (hpointee : node.pointee? = some (.single pointee))
      (hthere : pointee.kind = .ref →
        referent.target.isAbsent = false ∨ pointee.FitsPlain segment referent)
      (hreferent : Linked (.single pointee) (segment :: rest) referent) :
      Linked (.single node) (segment :: rest) (.ref referent)
  /-- There is a reference to nothing, and it is not to lead to another reference. -/
  | nilRef {node pointee : Node Schema} {segment : Segment} {rest : List Segment}
      (hkind : node.kind = .ref) (hpointee : node.pointee? = some (.single pointee))
      (hlast : pointee.kind ≠ .ref) (hmade : Linked (.single pointee) (segment :: rest) .null) :
      Linked (.single node) (segment :: rest) .nilRef
  /-- The segment leads to a child, and the rest goes on there. -/
  | child {node : Node Schema} {segment : Segment} {rest : List Segment} {value : Value}
      {step : Step} (hstep : node.stepOf? segment = some step)
      (hchild : ∀ part, node.schemaAt? step = some part →
        Linked part rest (node.slotAt value step part)) :
      Linked (.single node) (segment :: rest) value

/-! ## Rigid schemas -/

theorem IsRigid.exists_node {schema : Schema} (hrigid : schema.IsRigid) :
    ∃ node, schema = .single node := by
  cases schema with
  | single node => exact ⟨node, rfl⟩
  | choice union => exact (everywhere_choice_iff.mp hrigid).1.elim

end Schema

namespace Value

theorem isReference_iff {value : Value} : value.isReference = true ↔ value.kind = .ref := by
  cases value with
  | list sequence =>
    rw [kind_list]
    split <;> simp [isReference]
  | _ => simp [isReference, kind]

theorem eq_null_of_isAbsent {value : Value} (habsent : value.target.isAbsent = true)
    (hplain : value.kind ≠ .ref) : value = .null := by
  cases value with
  | null => rfl
  | ref | nilRef => exact absurd rfl hplain
  | _ => cases habsent

end Value

namespace Node

variable {node : Node Schema} {accepts : Schema → Value → Prop} {value new : Value}

theorem IsRigid.admits_iff (hrigid : node.IsRigid) (hdefinite : node.kind ≠ .any) :
    node.Admits accepts value ↔ value.kind = node.kind ∧ node.AdmitsChildren accepts value := by
  simp [Admits, hrigid.plain.validator, hdefinite, hrigid.mandatory]

theorem IsRigid.admits_ref_iff {pointee : Schema} {referent : Value} (hrigid : node.IsRigid)
    (hkind : node.kind = .ref) (hpointee : node.pointee? = some pointee) :
    node.Admits accepts (.ref referent) ↔ accepts pointee referent := by
  rw [hrigid.admits_iff (by simp [hkind])]
  simp [hkind, Value.kind, AdmitsChildren, hpointee, AdmitsChild, hrigid.mandatory]

/-- Assigning a valid value to a valid one, or to nothing, leaves a valid one. -/
theorem IsRigid.admits_assign (hrigid : node.IsRigid) (hnew : node.Admits accepts new)
    (hvalue : node.Admits accepts value ∨ value = .null) :
    node.Admits accepts (value.assign new) := by
  by_cases hany : node.kind = .any
  · exact admits_of_any hrigid.plain.validator hany
  by_cases href : node.kind = .ref
  · have hreference : new.isReference = true := by
      rw [Value.isReference_iff, ((hrigid.admits_iff hany).mp hnew).1, href]
    rwa [Value.assign_of_reference hreference]
  · have hplain : value.isReference = false := by
      rw [Bool.eq_false_iff, ne_eq, Value.isReference_iff]
      rcases hvalue with hvalid | rfl
      · rwa [((hrigid.admits_iff hany).mp hvalid).1]
      · decide
    rwa [Value.assign_of_plain hplain]

end Node

namespace Action

open Schema

variable {schema : Schema} {node pointee : Node Schema} {segment : Segment} {rest : List Segment}
  {location : Location} {new value : Value} {tally : Tally}

/-! ## Assigning along a group -/

/-- Behind a reference, segments are followed in the referent. -/
theorem descend_assign_ref {shaping : Shaping} (hsegment : segment ≠ .root) (strict : Bool)
    (referent : Value) :
    descend (assign shaping new) none false strict true (segment :: rest) location (.ref referent) =
      { value := .ref (descend (assign shaping new) none false strict true (segment :: rest) location
          referent).value
        result := (descend (assign shaping new) none false strict true (segment :: rest) location
          referent).result } := by
  rw [descend_assign_segment hsegment, descend_assign_segment hsegment]
  rfl

/-- A reference to nothing is pointed at what is made of nothing. -/
theorem descend_assign_nilRef {shaping : Shaping} (hsegment : segment ≠ .root) (strict : Bool) :
    descend (assign shaping new) none false strict true (segment :: rest) location .nilRef =
      { value := .ref (descend (assign shaping new) none false strict true (segment :: rest) location
          .null).value
        result := (descend (assign shaping new) none false strict true (segment :: rest) location
          .null).result } := by
  rw [descend_assign_segment hsegment, descend_assign_segment hsegment]
  rfl

/-- What a segment selects from a container of the kind that a node describes is where the node has
it take a step. -/
theorem step_of_select {selection : Selection} {container : Value} {step taken : Step}
    (hkind : container.kind = node.kind) (hstep : node.stepOf? segment = some step)
    (hsingle : segment.isMultiValued = false)
    (hselect : selection.select container segment = .ok [taken]) : taken = step := by
  suffices htaken : node.stepOf? segment = some taken from
    Option.some.inj (htaken.symm.trans hstep)
  unfold Node.stepOf?
  rw [← hkind]
  cases Selection.denotes_of_select hsingle hselect with
  | entry entries name | numbered entries position | field aggregate name => rfl
  | element sequence position =>
    rcases sequence with ⟨extent, items⟩
    cases extent <;> rfl

/-! ## The container that a segment selects from -/

/-- What a segment selects from at a place: a container that the node of the place admits. -/
structure Entered (schema : Schema) (node : Node Schema) (location : Location) (segment : Segment)
    (value container : Value) : Prop where
  /-- The container is made if there is none. -/
  vivify : vivify schema.shaping location segment value = container
  /-- The container is no reference. -/
  target : container.target = container
  /-- The container is of the kind that is described. -/
  kind : container.kind = node.kind
  /-- Its children are admitted. -/
  admits : node.AdmitsChildren (fun part child => part.isValid child = true) container
  /-- Its children are those of the value, or zero values. -/
  children : ∀ step child, container.child? step = some child → ∀ part,
    node.schemaAt? step = some part → child = node.slotAt value step part
  /-- What is missing in it is missing in the value. -/
  missing : ∀ step, container.child? step = none → value.child? step = none

/-- A container that a node admits is entered as it is; where nothing is, one is made. -/
theorem exists_entered (hrigid : (Schema.single node).IsRigid)
    (hgoverns : schema.Governs location node (segment :: rest) value)
    (hcontainer : node.kind.isContainer = true)
    (hvalue : (Schema.single node).isValid value = true ∨ value = .null) :
    ∃ container, Entered schema node location segment value container := by
  have hnode : node.IsRigid := (everywhere_single_iff.mp hrigid).1
  have hdefinite : node.kind ≠ .any := by
    intro hany
    rw [hany] at hcontainer
    cases hcontainer
  have hplain {container : Value} (hkind : container.kind = node.kind) :
      container.target = container ∧ container.target.isAbsent = false := by
    rw [← hkind] at hcontainer
    cases container <;> first | exact ⟨rfl, rfl⟩ | cases hcontainer
  rcases hvalue with hvalid | rfl
  · rw [isValid_single_iff, hnode.admits_iff hdefinite] at hvalid
    refine ⟨value, vivify_of_present (hplain hvalid.1).2, (hplain hvalid.1).1, hvalid.1, hvalid.2,
      ?_, fun _ hmissing => hmissing⟩
    intro step child hchild part _
    rw [Node.slotAt, hchild, Option.getD_some]
  · have hmade : vivify schema.shaping location segment .null = node.zero :=
      hgoverns.containerAt_eq hnode.plain hcontainer
    have hzero := isValid_zero hrigid.isPlain
    rw [← Node.zero, isValid_single_iff, hnode.admits_iff hdefinite] at hzero
    refine ⟨node.zero, hmade, (hplain hzero.1).1, hzero.1, hzero.2, ?_, fun step _ => by
      cases step <;> rfl⟩
    intro step child hchild part hpart
    have hmap : node.kind ≠ .map := by
      intro hmap
      rw [Node.zero_of_map hnode.plain hmap] at hchild
      cases step <;> simp [Value.child?, Entries.get?] at hchild
    have hnone : (Value.null).child? step = none := by cases step <;> rfl
    rw [Node.child?_zero hnode.plain hchild hpart, Node.slotAt, hnone, if_neg hmap,
      Option.getD_none]

/-- Once room has been made for a child that has a schema, it is what an assignment finds there. -/
theorem Entered.slotAt {container old : Value} {step : Step} {part : Schema}
    (hentered : Entered schema node location segment value container)
    (hgoverns : schema.Governs location node (segment :: rest) value) (hparts : part.IsRigid)
    (htakes : container.Takes step) (hpart : node.schemaAt? step = some part)
    (hold : (makeRoom schema.shaping location step container).child? step = some old) :
    old = node.slotAt value step part := by
  cases hpresent : container.child? step with
  | some child =>
    rw [child?_makeRoom_of_present hpresent] at hold
    rw [← Option.some.inj hold]
    exact hentered.children step child hpresent part hpart
  | none =>
    have hkind := hentered.kind
    rw [Node.slotAt, hentered.missing step hpresent, Option.getD_none]
    cases htakes using Value.Takes.casesOn with
    | entry entries name =>
      have hpresent : Entries.get? entries name = none := hpresent
      have habsent : Entries.contains entries name = false := by simp [Entries.contains, hpresent]
      have hmap : node.kind = .map := hkind.symm
      rw [makeRoom, habsent] at hold
      rw [if_pos hmap]
      simpa [Value.child?, Entries.get?_insert] using hold.symm
    | field aggregate name hfield =>
      simp [Value.child?] at hpresent
      simp [hpresent] at hfield
    | element sequence position hroom =>
      have hpresent : sequence.items[position]? = none := hpresent
      have hgrows : sequence.canGrow = true := by
        rcases hroom with hinside | ⟨hgrows, _⟩
        · rw [Array.getElem?_eq_none_iff] at hpresent
          exact absurd hinside (Nat.not_lt.mpr hpresent)
        · exact hgrows
      have hlist : node.kind = .list := by
        rw [← hkind, Value.kind_list, if_pos (of_decide_eq_true hgrows)]
      -- The list grows up to the position, and what it grows by are zero values of the element.
      obtain ⟨element, rfl⟩ := hparts.exists_node
      rw [makeRoom, padTo, if_pos hgrows] at hold
      rw [if_neg (by simp [hlist])]
      rcases Sequence.getElem?_pad hold with hthere | hfilled
      · rw [hpresent] at hthere
        cases hthere
      · exact hfilled.trans (hgoverns.zeroAt_eq hlist hpart)

/-- What an assignment finds is valid, or null. -/
theorem isValid_slotAt {step : Step} {part : Schema} (hrigid : (Schema.single node).IsRigid)
    (hvalue : (Schema.single node).isValid value = true ∨ value = .null)
    (hdefinite : node.kind ≠ .any) (hpart : node.schemaAt? step = some part) :
    part.isValid (node.slotAt value step part) = true ∨ node.slotAt value step part = .null := by
  obtain ⟨hnode, hparts⟩ := everywhere_single_iff.mp hrigid
  unfold Node.slotAt
  cases hchild : value.child? step with
  | some child =>
    rcases hvalue with hvalid | rfl
    · rw [isValid_single_iff, hnode.admits_iff hdefinite] at hvalid
      exact .inl (Node.accepts_child_of_admits hvalid.2 hnode.mandatory
        (Value.mem_children_of_child? hchild) hpart)
    · cases step <;> cases hchild
  | none =>
    rw [Option.getD_none]
    split
    · exact .inr rfl
    · have hpartRigid : part.IsRigid := hparts part (Node.mem_parts_of_schemaAt? hpart)
      exact .inl (isValid_zero hpartRigid.isPlain)

/-- Every text is a valid key of a rigid node. -/
theorem isValid_readKey_of_rigid {schemas : Schema × Schema} (hrigid : (Schema.single node).IsRigid)
    (hentries : node.entries? = some schemas) (name : String) :
    schemas.1.isValid (schemas.1.readKey name) = true := by
  obtain ⟨hnode, hparts⟩ := everywhere_single_iff.mp hrigid
  obtain ⟨key, hkey, hkind⟩ := hnode.keys schemas hentries
  have hplain : key.IsPlain := by
    have hpart := hparts schemas.1 (Node.mem_parts_of_key hentries)
    rw [hkey] at hpart
    exact (everywhere_single_iff.mp hpart).1.plain
  rw [hkey, isValid_single_iff]
  rcases hkind with hany | hstring
  · exact Node.admits_of_any hplain.validator hany
  · have hread : (Schema.single key).readKey name = .text name := by
      simp [readKey, primary?, hstring, Kind.readKey]
    rw [hread]
    exact Node.admits_of_kind hplain.validator hstring.symm trivial

/-- An entry that has been looked up is admitted with a valid value. -/
theorem admitsEntry_of_found {name : String} {child : Value} {start : Location}
    {found : Node Schema} (hrigid : (Schema.single node).IsRigid) (hkind : node.kind = .map)
    (hfound : node.FoundAt (fun part _ => part.lookup) rest start found (.key name))
    (hchild : ∀ part, node.schemaAt? (.key name) = some part → part.isValid child = true) :
    node.AdmitsEntry (fun part child => part.isValid child = true) name child := by
  unfold Node.AdmitsEntry
  split
  · rename_i part hpart
    exact .inr (hchild part (by simp [Node.schemaAt?, Node.valueAt?, hpart]))
  · rename_i hmissing
    split
    · rename_i schemas hentries
      exact ⟨.inr (isValid_readKey_of_rigid hrigid hentries name),
        .inr (hchild schemas.2 (by simp [Node.schemaAt?, Node.valueAt?, hmissing, hentries]))⟩
    · rename_i hentries
      rcases hfound with ⟨part, hpart, _⟩ | ⟨_, ⟨_, _, hchildren⟩ | hlinear⟩
      · simp [Node.schemaAt?, Node.valueAt?, hmissing, hentries] at hpart
      · exact hchildren
      · rw [hkind] at hlinear
        cases hlinear

/-- An assignment through a container goes on in the child that the segment leads to, and puts there
what is left of it. -/
theorem exists_put_of_descend_assign {step : Step} {container : Value}
    (hentered : Entered schema node location segment value container)
    (hstep : node.stepOf? segment = some step) (hroot : .root ∉ segment :: rest)
    (hsingle : ∀ other ∈ segment :: rest, other.isMultiValued = false)
    (hok : (descend (assign schema.shaping new) none false true true (segment :: rest) location
      value).result = .ok tally) :
    container.Takes step ∧ ∃ old done,
      (makeRoom schema.shaping location step container).child? step = some old ∧
      (descend (assign schema.shaping new) none false true true rest (location.child step)
        old).result = .ok done ∧
      (descend (assign schema.shaping new) none false true true (segment :: rest) location
        value).value =
        put schema.shaping location step (descend (assign schema.shaping new) none false true true
          rest (location.child step) old).value container := by
  have hsets : Sets schema.shaping new (segment :: rest) location value
      (descend (assign schema.shaping new) none false true true (segment :: rest) location
        value).value :=
    ⟨tally, by rw [← hok]⟩
  obtain ⟨taken, old, child, hadvance⟩ := hsets.exists_advance hroot hsingle
  obtain ⟨hselects, htakes, hfinds, ⟨done, hinner⟩, hresult⟩ := hadvance
  rw [hentered.vivify, hentered.target] at hselects htakes hfinds
  rw [hentered.vivify, Value.mapTarget_of_target hentered.target] at hresult
  obtain rfl := step_of_select hentered.kind hstep (hsingle segment List.mem_cons_self) hselects
  exact ⟨htakes, old, done, hfinds, by rw [hinner], by rw [hresult, hinner]⟩

/-- A container is valid after an assignment to a child if the child is. -/
theorem isValid_descend_child {step : Step} {start : Location} {found : Node Schema}
    (hrigid : (Schema.single node).IsRigid)
    (hgoverns : schema.Governs location node (segment :: rest) value)
    (hvalue : (Schema.single node).isValid value = true ∨ value = .null)
    (hstep : node.stepOf? segment = some step)
    (hreaches : node.FoundAt (fun part _ => part.lookup) rest start found step)
    (hroot : .root ∉ segment :: rest)
    (hsingle : ∀ other ∈ segment :: rest, other.isMultiValued = false)
    (hchild : ∀ part, node.schemaAt? step = some part → ∀ tally,
      (descend (assign schema.shaping new) none false true true rest (location.child step)
        (node.slotAt value step part)).result = .ok tally →
      part.isValid (descend (assign schema.shaping new) none false true true rest
        (location.child step) (node.slotAt value step part)).value = true)
    (hok : (descend (assign schema.shaping new) none false true true (segment :: rest) location
      value).result = .ok tally) :
    (Schema.single node).isValid (descend (assign schema.shaping new) none false true true
      (segment :: rest) location value).value = true := by
  obtain ⟨hnode, hparts⟩ := everywhere_single_iff.mp hrigid
  have hcontainer := Node.isContainer_of_stepOf? hstep
  have hdefinite : node.kind ≠ .any := by
    intro hany
    rw [hany] at hcontainer
    cases hcontainer
  obtain ⟨container, hentered⟩ := exists_entered hrigid hgoverns hcontainer hvalue
  obtain ⟨htakes, old, done, hold, hinner, hput⟩ :=
    exists_put_of_descend_assign hentered hstep hroot hsingle hok
  have hfits (part : Schema) (hpart : node.schemaAt? step = some part) :
      part.isValid (descend (assign schema.shaping new) none false true true rest
        (location.child step) old).value = true := by
    have hslot := hentered.slotAt hgoverns (hparts part (Node.mem_parts_of_schemaAt? hpart)) htakes
      hpart hold
    rw [hslot] at hinner ⊢
    exact hchild part hpart done hinner
  rw [isValid_single_iff, hnode.admits_iff hdefinite, hput]
  refine Node.admitsChildren_put hentered.kind hentered.admits htakes ?_ ?_ hfits
  · intro hlist position part hpart
    have hrigidPart := hparts part (Node.mem_parts_of_elementAt? hpart)
    obtain ⟨element, rfl⟩ := IsRigid.exists_node hrigidPart
    have hzero : schema.shaping.zeroAt (location.child (.index position)) = element.zero :=
      hgoverns.zeroAt_eq hlist hpart
    rw [hzero]
    exact isValid_zero (IsRigid.isPlain hrigidPart)
  · rintro name rfl hmap
    exact admitsEntry_of_found hrigid hmap hreaches hfits

/-- Behind a reference to anything nothing has to be valid. -/
theorem isValid_descend_anyReferent (hrigid : (Schema.single node).IsRigid)
    (hkind : node.kind = .ref) (hpointee : node.pointee? = none)
    (hreference : value.isReference = true) (hsegment : segment ≠ .root) :
    (Schema.single node).isValid (descend (assign schema.shaping new) none false true true
      (segment :: rest) location value).value = true := by
  have hany (referent : Value) : (Schema.single node).isValid (.ref referent) = true := by
    rw [isValid_single_iff]
    refine Node.admits_of_kind (everywhere_single_iff.mp hrigid).1.plain.validator hkind.symm ?_
    simp [Node.AdmitsChildren, hpointee]
  cases value with
  | ref referent =>
    rw [descend_assign_ref hsegment]
    exact hany _
  | nilRef =>
    rw [descend_assign_nilRef hsegment]
    exact hany _
  | _ => cases hreference

theorem eq_null_of_isValid (hrigid : (Schema.single node).IsRigid) (hany : node.kind ≠ .any)
    (href : node.kind ≠ .ref) (hvalid : (Schema.single node).isValid value = true)
    (habsent : value.target.isAbsent = true) : value = .null := by
  rw [isValid_single_iff, (everywhere_single_iff.mp hrigid).1.admits_iff hany] at hvalid
  exact Value.eq_null_of_isAbsent habsent (hvalid.1 ▸ href)

/-- An assignment along segments that have the references they need leaves a valid value. -/
theorem isValid_descend_assign {segments : List Segment} {described : Schema}
    (hlinked : described.Linked segments value) : ∀ {node : Node Schema} {location start : Location}
      {found : Node Schema} {tally : Tally}, described = .single node → described.IsRigid →
      schema.Governs location node segments value → described.lookup segments start = .ok found →
      (Schema.single found).isValid new = true →
      (described.isValid value = true ∨ value = .null) → .root ∉ segments →
      (∀ segment ∈ segments, segment.isMultiValued = false) →
      (descend (assign schema.shaping new) none false true true segments location value).result =
        .ok tally →
      described.isValid (descend (assign schema.shaping new) none false true true segments location
        value).value = true := by
  -- The induction is on the references that are there, not on the segments: a reference takes none.
  induction hlinked with
  | nil =>
    rintro node location start found tally rfl hrigid _ hfound hnew hvalue _ _ _
    rw [lookup_single] at hfound
    obtain rfl : node = found := Except.ok.inj hfound
    simp only [isValid_single_iff] at hnew hvalue ⊢
    exact (everywhere_single_iff.mp hrigid).1.admits_assign hnew hvalue
  | any hkind =>
    rintro node location start found tally hsame hrigid _ _ _ _ _ _ _
    cases hsame
    rw [isValid_single_iff]
    exact Node.admits_of_any (everywhere_single_iff.mp hrigid).1.plain.validator hkind
  | anyReferent hkind hpointee hreference =>
    rintro node location start found tally hsame hrigid _ _ _ _ hroot _ _
    cases hsame
    exact isValid_descend_anyReferent hrigid hkind hpointee hreference
      (List.ne_of_not_mem_cons hroot).symm
  | @ref outer pointee segment _ referent hkind hpointee hthere hreferent ih =>
    rintro node location start found tally hsame hrigid hgoverns hfound hnew hvalue hroot hsingle hok
    cases hsame
    obtain ⟨hnode, hparts⟩ := everywhere_single_iff.mp hrigid
    have hpart : (Schema.single pointee).IsRigid := hparts _ (Node.mem_parts_of_pointee? hpointee)
    rw [descend_assign_ref (List.ne_of_not_mem_cons hroot).symm] at hok ⊢
    rw [isValid_single_iff, hnode.admits_ref_iff hkind hpointee]
    by_cases hany : pointee.kind = .any
    · rw [isValid_single_iff]
      exact Node.admits_of_any (everywhere_single_iff.mp hpart).1.plain.validator hany
    have hvalid : (Schema.single pointee).isValid referent = true := by
      rcases hvalue with hvalid | hnull
      · rwa [isValid_single_iff, hnode.admits_ref_iff hkind hpointee] at hvalid
      · cases hnull
    -- What is missing behind the reference is null, for which the node makes a container; behind
    -- another reference, the container that is made has the plain shape.
    have hmissing (habsent : referent.target.isAbsent = true) :
        referent = .null ∨ (pointee.kind = .ref ∧ pointee.FitsPlain segment referent) := by
      by_cases href : pointee.kind = .ref
      · refine .inr ⟨href, (hthere href).resolve_left ?_⟩
        rw [habsent]
        decide
      · exact .inl (eq_null_of_isValid hpart hany href hvalid habsent)
    rw [lookup_single, Node.lookupWith_of_ref hkind hpointee] at hfound
    exact ih rfl hpart (hgoverns.referent hkind hpointee hmissing) hfound hnew (.inl hvalid) hroot
      hsingle hok
  | nilRef hkind hpointee hlast hmade ih =>
    rintro node location start found tally hsame hrigid hgoverns hfound hnew _ hroot hsingle hok
    cases hsame
    obtain ⟨hnode, hparts⟩ := everywhere_single_iff.mp hrigid
    rw [descend_assign_nilRef (List.ne_of_not_mem_cons hroot).symm] at hok ⊢
    rw [isValid_single_iff, hnode.admits_ref_iff hkind hpointee]
    rw [lookup_single, Node.lookupWith_of_ref hkind hpointee] at hfound
    exact ih rfl (hparts _ (Node.mem_parts_of_pointee? hpointee)) (hgoverns.nilRef hkind hpointee)
      hfound hnew (.inr rfl) hroot hsingle hok
  | @child outer _ _ _ _ hstep hchild ih =>
    rintro node location start found tally hsame hrigid hgoverns hfound hnew hvalue hroot hsingle hok
    cases hsame
    have hcontainer := Node.isContainer_of_stepOf? hstep
    have hdefinite : outer.kind ≠ .any ∧ outer.kind ≠ .ref := by
      constructor <;>
      · intro hkind
        rw [hkind] at hcontainer
        cases hcontainer
    rw [lookup_single] at hfound
    obtain ⟨taken, htaken, hreaches, hfoundAt⟩ :=
      Node.exists_step_of_lookupWith hdefinite.1 hdefinite.2 hfound
    obtain rfl := Option.some.inj (hstep.symm.trans htaken)
    refine isValid_descend_child hrigid hgoverns hvalue hstep hfoundAt hroot hsingle ?_ hok
    intro part hpart tally hinner
    have hrigidPart :=
      (everywhere_single_iff.mp hrigid).2 part (Node.mem_parts_of_schemaAt? hpart)
    obtain ⟨inner, rfl⟩ := IsRigid.exists_node hrigidPart
    exact ih _ hpart rfl hrigidPart
      (hgoverns.child (Node.stepOf?_segment hstep) hreaches hpart _ _) (hfoundAt.lookup_part hpart)
      hnew (isValid_slotAt hrigid hvalue hdefinite.1 hpart) (List.not_mem_of_not_mem_cons hroot)
      (fun other hother => hsingle other (List.mem_cons_of_mem _ hother)) hinner

end Action

/-! ## Whole paths -/

namespace Value

variable {root new after : Value} {path : Path} {schema : Schema} {node : Node Schema} {count : Nat}

/-- An assignment that a schema shapes keeps a value valid: the value is null or valid for a schema
without unions that puts up with nothing, a text spells a path without a search whose segments select
one child at a time, the schema has a node for the place, and what is assigned is valid for it.  The
value must have the references that the schema asks for on the way: a reference that is missing is not
made, and what is made behind two references has the plain shape. -/
theorem isValid_setAt {text : String} (hrigid : schema.IsRigid)
    (hroot : schema.isValid root = true ∨ root = .null) (hparse : Path.parse text = .ok path)
    (hpath : path.isMultiValued = false) (hnode : schema.at? path = .ok node)
    (hnew : (Schema.single node).isValid new = true)
    (hlinked : schema.Linked (path.first.filter (· != .root)) root)
    (hset : root.setAt path new schema.shaping = (after, .ok count)) :
    schema.isValid after = true := by
  obtain ⟨hsearches, hsegments⟩ := Path.searches_eq_nil hpath
  obtain ⟨segments, hmark, hmem, hfirst⟩ := Path.exists_segments (Path.isCanonical_of_parse hparse)
  have hsame : path.first.filter (· != .root) = segments := by
    have hplain : segments.filter (· != .root) = segments := by
      rw [List.filter_eq_self]
      intro segment hsegment
      rw [bne_iff_ne]
      rintro rfl
      exact hmark hsegment
    rcases hfirst with hfirst | hfirst <;> rw [hfirst]
    · exact hplain
    · rw [List.filter_cons_of_neg (by simp), hplain]
  have hfound : schema.lookup segments [] = .ok node := by
    rw [Schema.at?, Path.isRecursive, hsearches, hsame] at hnode
    exact hnode
  have hsingle (segment : Segment) (hsegment : segment ∈ segments) :
      segment.isMultiValued = false :=
    hsegments segment (hmem segment hsegment)
  obtain ⟨tally, hdescend, _⟩ := setAt_eq_ok hsearches hfirst hset
  obtain ⟨described, rfl⟩ := hrigid.exists_node
  rw [hsame] at hlinked
  have hvalid := Action.isValid_descend_assign hlinked rfl hrigid
    (Schema.governs_root described segments root) hfound hnew hroot hmark hsingle (by rw [hdescend])
  rwa [hdescend] at hvalid

/-- An element is set behind a reference to nothing, in a list of a record, both of which are made. -/
theorem isValid_setAt_made :
    let team : Schema := .single {
      shape := .record
      typeName := some "Team"
      children := [("size", .single { shape := .int }),
        ("marks", .single { shape := .list (some (.single { shape := .int })) })] }
    let schema : Schema := .single {
      shape := .map (some (.single { shape := .string }, .single { shape := .any }))
      children := [("team", .single { shape := .ref (some team) })] }
    let root : Value := .map [("kept", .int 5), ("team", .nilRef)]
    let path : Path := { first := [.root, .key "team", .key "marks", .index 1] }
    let after : Value := .map [("kept", .int 5),
      ("team", .ref (.record { name := "Team", fields := [
        { name := "size", value := .int 0 },
        { name := "marks", value := .ofItems #[.int 0, .int 9] }] }))]
    schema.IsRigid ∧ schema.isValid root = true ∧ Path.parse "$.team.marks[1]" = .ok path ∧
      root.setAt path (.int 9) schema.shaping = (after, .ok 1) ∧ schema.isValid after = true := by
  intro team schema root path after
  have hrigid : schema.IsRigid := by
    simp [schema, team, Schema.IsRigid, Node.isRigid_iff, Node.isPlain_iff, Node.parts,
      Node.element?, Node.entries?, Node.pointee?, Entries.keys, Node.kind, Shape.kind]
  have hroot : schema.isValid root = true := by
    simp only [team, schema, root]
    cbv
  have hparse : Path.parse "$.team.marks[1]" = .ok path := by
    cbv
  have hset : root.setAt path (.int 9) schema.shaping = (after, .ok 1) := by
    simp only [team, schema, root, path, after]
    cbv
  have hnode : schema.at? path = .ok { shape := .int } := by
    simp only [team, schema, path]
    cbv
  have hnew : (Schema.single { shape := .int }).isValid (.int 9) = true := by
    cbv
  have hlinked : schema.Linked (path.first.filter (· != .root)) root := by
    refine .child rfl fun part hpart => ?_
    obtain rfl : Schema.single { shape := .ref (some team) } = part := Option.some.inj hpart
    refine .nilRef rfl rfl (by decide) ?_
    refine .child rfl fun part hpart => ?_
    obtain rfl : Schema.single { shape := .list (some (.single { shape := .int })) } = part :=
      Option.some.inj hpart
    exact .child rfl fun part hpart => .nil
  exact ⟨hrigid, hroot, hparse, hset,
    isValid_setAt hrigid (.inl hroot) hparse (by decide) hnode hnew hlinked hset⟩

/-- A record is put where the schema has a reference to a record, under a key that is new. -/
theorem setAt_misses_reference :
    let point : Schema := .single {
      shape := .record, typeName := some "Point", children := [("x", .single { shape := .int })] }
    let schema : Schema := .single {
      shape := .map (some (.single { shape := .string }, .single { shape := .ref (some point) })) }
    let path : Path := { first := [.root, .key "k", .key "x"] }
    let after : Value :=
      .map [("k", .record { name := "Point", fields := [{ name := "x", value := .int 1 }] })]
    schema.IsRigid ∧ schema.isValid (.map []) = true ∧ Path.parse "$.k.x" = .ok path ∧
      path.isMultiValued = false ∧ schema.at? path = .ok { shape := .int } ∧
      (Schema.single { shape := .int }).isValid (.int 1) = true ∧
      (Value.map []).setAt path (.int 1) schema.shaping = (after, .ok 1) ∧
      schema.isValid after = false := by
  intro point schema path after
  have hrigid : schema.IsRigid := by
    simp [schema, point, Schema.IsRigid, Node.isRigid_iff, Node.isPlain_iff, Node.parts,
      Node.element?, Node.entries?, Node.pointee?, Entries.keys, Node.kind, Shape.kind]
  have hroot : schema.isValid (.map []) = true := by
    simp only [schema, point]
    cbv
  have hparse : Path.parse "$.k.x" = .ok path := by
    cbv
  have hnode : schema.at? path = .ok { shape := .int } := by
    simp only [schema, point, path]
    cbv
  have hset : (Value.map []).setAt path (.int 1) schema.shaping = (after, .ok 1) := by
    simp only [schema, point, path, after]
    cbv
  have hafter : schema.isValid after = false := by
    simp only [schema, point, after]
    cbv
  exact ⟨hrigid, hroot, hparse, by decide, hnode, by cbv, hset, hafter⟩

end Value

end NestedData
