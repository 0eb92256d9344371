import NestedData.Proofs.Schema.Everywhere
import NestedData.Proofs.Schema.Validity
import NestedData.Schema.Lookup

/-!
# Schemas of children

A node describes the children of a value by name or position.  This module says which schema a child
has, takes a look-up apart into steps from a node to the schema of a child, and shows that the children
of a valid value are valid.

Main results:

- `Node.accepts_child_of_admits`: where no unfit child is put up with, what is admitted has no other.
- `Schema.toOption_lookup`: whether a place is found does not depend on where the look-up starts.
- `Node.exists_step_of_lookupWith`: a look-up from a container takes a step to a child.
-/

namespace NestedData

theorem Value.kind_ne_any (value : Value) : value.kind ≠ .any := by
  cases value with
  | list sequence =>
    rcases sequence with ⟨extent, items⟩
    cases extent <;> simp [kind]
  | _ => simp [kind]

namespace Node

/-! ## Children of what is admitted -/

/-- The schema of the child that a step leads to. -/
def schemaAt? (node : Node Schema) : Step → Option Schema
  | .key name => node.valueAt? name
  | .index position => node.elementAt? position

variable {node : Node Schema} {value : Value}

/-- A value of the kind that a node describes is admitted with its children only. -/
theorem admitsChildren_of_kind {accepts : Schema → Value → Prop} (hplain : node.IsPlain)
    (hadmits : node.Admits accepts value) (hkind : value.kind = node.kind) :
    node.AdmitsChildren accepts value := by
  rw [Admits, hplain.validator] at hadmits
  rcases hadmits with hany | ⟨_, habsent⟩ | ⟨_, hchildren⟩
  · exact absurd (hkind.trans hany) value.kind_ne_any
  · cases value with
    | null | nilRef => trivial
    | _ => cases habsent
  · exact hchildren

/-- A value with admitted children has no other. -/
theorem admitsChild_of_mem {accepts : Schema → Value → Prop} {child : Step × Value} {part : Schema}
    (hadmits : node.AdmitsChildren accepts value) (hmem : child ∈ value.children)
    (hschema : node.schemaAt? child.1 = some part) : node.AdmitsChild accepts part child.2 := by
  cases value with
  | record aggregate =>
    obtain ⟨field, hfield, rfl⟩ := List.mem_map.mp hmem
    obtain ⟨declared, hdeclared, hchild⟩ := hadmits.fields field hfield
    obtain rfl : declared = part := by simpa [schemaAt?, valueAt?, hdeclared] using hschema
    exact hchild
  | map entries =>
    obtain ⟨entry, hentry, rfl⟩ := List.mem_map.mp hmem
    have hadmits := hadmits entry hentry
    unfold AdmitsEntry at hadmits
    split at hadmits
    · rename_i declared hdeclared
      obtain rfl : declared = part := by simpa [schemaAt?, valueAt?, hdeclared] using hschema
      exact hadmits
    · rename_i hmissing
      obtain ⟨schemas, hentries, rfl⟩ : ∃ schemas, node.entries? = some schemas ∧
          schemas.2 = part := by
        simpa [schemaAt?, valueAt?, hmissing] using hschema
      simp only [hentries] at hadmits
      exact hadmits.2
  | list sequence =>
    obtain ⟨⟨item, position⟩, hitem, rfl⟩ := List.mem_map.mp hmem
    have hfound := List.mk_mem_zipIdx_iff_getElem?.mp hitem
    exact hadmits.items position item (by simpa using hfound) part hschema
  | _ => cases hmem

/-- Where no unfit child is put up with, the children of what is admitted are accepted. -/
theorem accepts_child_of_admits {accepts : Schema → Value → Prop} {child : Step × Value}
    {part : Schema} (hadmits : node.AdmitsChildren accepts value) (hnilable : node.nilable = false)
    (hmem : child ∈ value.children) (hschema : node.schemaAt? child.1 = some part) :
    accepts part child.2 := by
  simpa [AdmitsChild, hnilable] using admitsChild_of_mem hadmits hmem hschema

/-! ## Looking up a child -/

theorem mem_parts_of_schemaAt? {step : Step} {part : Schema}
    (hpart : node.schemaAt? step = some part) : part ∈ node.parts := by
  cases step with
  | key name => exact mem_parts_of_valueAt? hpart
  | index position => exact mem_parts_of_elementAt? hpart

theorem entries?_of_kind (hkind : node.kind ≠ .map) : node.entries? = none := by
  unfold kind at hkind
  unfold entries?
  split
  · rename_i hshape
    simp [hshape, Shape.kind] at hkind
  · rfl

theorem valueAt?_of_record (hkind : node.kind = .record) (name : String) :
    node.valueAt? name = node.child? name := by
  rw [valueAt?, entries?_of_kind (by simp [hkind])]
  cases node.child? name <;> rfl

/-- The step that a segment takes from a value of the kind that the node describes. -/
def stepOf? (node : Node Schema) (segment : Segment) : Option Step :=
  match node.kind, segment with
  | .map, .key name => some (.key name)
  | .map, .index position => some (.key (Text.ofNat position))
  | .record, .key name => some (.key name)
  | .list, .index position => some (.index position)
  | .array, .index position => some (.index position)
  | _, _ => none

/-- Steps are taken from containers only. -/
theorem isContainer_of_stepOf? {segment : Segment} {step : Step}
    (hstep : node.stepOf? segment = some step) : node.kind.isContainer = true := by
  unfold stepOf? at hstep
  split at hstep
  all_goals
    rename_i hkind
    first
      | (rw [hkind]; rfl)
      | cases hstep

theorem stepOf?_segment {segment : Segment} {step : Step} (hstep : node.stepOf? segment = some step) :
    node.stepOf? step.segment = some step := by
  unfold stepOf? at hstep
  split at hstep
  all_goals
    rename_i hkind
    cases hstep
  all_goals simp [stepOf?, Step.segment, hkind]

/-- A step does not lead beyond the length of an array. -/
def Reaches (node : Node Schema) (step : Step) : Prop :=
  ∀ position length, step = .index position → node.length? = some length → position < length

variable {lookupPart : node.EachPart Lookup} {location : Location} {segment : Segment} {step : Step}
  {rest : List Segment} {part : Schema} {found : Node Schema}

/-- The value under a key is looked up in its schema. -/
theorem lookupEntry_of_part {key : String} (hpart : node.valueAt? key = some part) :
    node.lookupEntry lookupPart key rest location =
      lookupPart part (mem_parts_of_valueAt? hpart) rest (location.child (.key key)) := by
  unfold lookupEntry
  split
  · rename_i other hother
    obtain rfl := Option.some.inj (hother.symm.trans hpart)
    rfl
  · rename_i hmissing
    cases hmissing.symm.trans hpart

/-- Without a schema for the value under a key, any value may be there if there are no schemas for
entries at all. -/
theorem lookupEntry_of_none {key : String} (hmissing : node.valueAt? key = none) :
    node.lookupEntry lookupPart key rest location =
      if node.entries?.isNone && node.children.isEmpty then .ok .any
      else node.noPlace location (.noEntry key) := by
  unfold lookupEntry
  split
  · rename_i part hpart
    cases hmissing.symm.trans hpart
  · rfl

/-- A field is looked up in its schema. -/
theorem lookupField_of_part {name : String} (hpart : node.child? name = some part) :
    node.lookupField lookupPart name rest location =
      lookupPart part (mem_parts_of_child? hpart) rest (location.child (.key name)) := by
  unfold lookupField
  split
  · rename_i other hother
    obtain rfl := Option.some.inj (hother.symm.trans hpart)
    rfl
  · rename_i hmissing
    cases hmissing.symm.trans hpart

theorem lookupField_of_none {name : String} (hmissing : node.child? name = none) :
    node.lookupField lookupPart name rest location = node.noPlace location (.noField name) := by
  unfold lookupField
  split
  · rename_i part hpart
    cases hmissing.symm.trans hpart
  · rfl

/-- An element is looked up in its schema, unless it is beyond the length. -/
theorem lookupElement_of_part {position : Nat} (hreaches : node.Reaches (.index position))
    (hpart : node.elementAt? position = some part) :
    node.lookupElement lookupPart position rest location =
      lookupPart part (mem_parts_of_elementAt? hpart) rest (location.child (.index position)) := by
  unfold lookupElement
  split
  · rename_i length hlength
    obtain ⟨hlength, hbeyond⟩ := Option.filter_eq_some_iff.mp hlength
    have hinside := hreaches position length rfl hlength
    simp at hbeyond
    omega
  · split
    · rename_i other hother
      obtain rfl := Option.some.inj (hother.symm.trans hpart)
      rfl
    · rename_i hmissing
      cases hmissing.symm.trans hpart

/-- What is found for an element is within the length. -/
theorem reaches_of_lookupElement {position : Nat}
    (hok : node.lookupElement lookupPart position rest location = .ok found) :
    node.Reaches (.index position) := by
  unfold lookupElement at hok
  split at hok
  · cases hok
  · rename_i hnone
    intro other length hposition hlength
    obtain rfl := Step.index.inj hposition
    by_contra hbeyond
    simp [hlength, Option.filter] at hnone
    omega

/-- A segment is followed to the schema of the child that it takes a step to. -/
theorem lookupWith_of_part (hstep : node.stepOf? segment = some step) (hreaches : node.Reaches step)
    (hpart : node.schemaAt? step = some part) :
    node.lookupWith lookupPart (segment :: rest) location =
      lookupPart part (mem_parts_of_schemaAt? hpart) rest (location.child step) := by
  unfold stepOf? at hstep
  split at hstep
  all_goals
    rename_i hkind
    cases hstep
  · simpa [lookupWith, hkind, Segment.isMultiValued] using lookupEntry_of_part hpart
  · simpa [lookupWith, hkind, Segment.isMultiValued] using lookupEntry_of_part hpart
  · rw [schemaAt?, valueAt?_of_record hkind] at hpart
    simpa [lookupWith, hkind, Segment.isMultiValued] using lookupField_of_part hpart
  · simpa [lookupWith, hkind, Segment.isMultiValued] using lookupElement_of_part hreaches hpart
  · simpa [lookupWith, hkind, Segment.isMultiValued] using lookupElement_of_part hreaches hpart

/-- Where a look-up of a child goes on in its schema, or any value may be there. -/
def FoundAt (node : Node Schema) (lookupPart : node.EachPart Lookup) (rest : List Segment)
    (location : Location) (found : Node Schema) (step : Step) : Prop :=
  (∃ part, ∃ hpart : node.schemaAt? step = some part,
    lookupPart part (mem_parts_of_schemaAt? hpart) rest (location.child step) = .ok found) ∨
  node.schemaAt? step = none ∧
    (node.kind = .map ∧ node.entries? = none ∧ node.children = [] ∨ node.kind.isLinear = true)

/-- Where a child has a schema, the look-up goes on in it. -/
theorem FoundAt.lookup_part {step : Step} {part : Schema}
    (hfound : node.FoundAt lookupPart rest location found step)
    (hpart : node.schemaAt? step = some part) :
    lookupPart part (mem_parts_of_schemaAt? hpart) rest (location.child step) = .ok found := by
  rcases hfound with ⟨other, hother, hlookup⟩ | ⟨hnone, _⟩
  · obtain rfl := Option.some.inj (hpart.symm.trans hother)
    exact hlookup
  · rw [hpart] at hnone
    cases hnone

/-- What is found for the value under a key. -/
theorem foundAt_of_lookupEntry {key : String} (hkind : node.kind = .map)
    (hok : node.lookupEntry lookupPart key rest location = .ok found) :
    node.FoundAt lookupPart rest location found (.key key) := by
  cases hpart : node.valueAt? key with
  | some part =>
    rw [lookupEntry_of_part hpart] at hok
    exact .inl ⟨part, hpart, hok⟩
  | none =>
    rw [lookupEntry_of_none hpart] at hok
    split at hok
    · rename_i hopen
      exact .inr ⟨hpart, .inl ⟨hkind, by simpa using hopen⟩⟩
    · cases hok

theorem foundAt_of_lookupElement {position : Nat} (hlinear : node.kind.isLinear = true)
    (hok : node.lookupElement lookupPart position rest location = .ok found) :
    node.FoundAt lookupPart rest location found (.index position) := by
  cases hpart : node.elementAt? position with
  | some part =>
    rw [lookupElement_of_part (reaches_of_lookupElement hok) hpart] at hok
    exact .inl ⟨part, hpart, hok⟩
  | none => exact .inr ⟨hpart, .inr hlinear⟩

/-- A look-up from a container takes a step to a child that the container may have. -/
theorem exists_step_of_lookupWith (hany : node.kind ≠ .any) (href : node.kind ≠ .ref)
    (hok : node.lookupWith lookupPart (segment :: rest) location = .ok found) :
    ∃ step, node.stepOf? segment = some step ∧ node.Reaches step ∧
      node.FoundAt lookupPart rest location found step := by
  have hname (name : String) : node.Reaches (.key name) := fun _ _ hstep => by cases hstep
  unfold lookupWith at hok
  simp only [hany, href, if_false] at hok
  split at hok
  · cases hok
  · split at hok
    · rename_i name hkind _
      exact ⟨.key name, by simp [stepOf?, hkind], hname name, foundAt_of_lookupEntry hkind hok⟩
    · rename_i position hkind _
      exact ⟨.key (Text.ofNat position), by simp [stepOf?, hkind], hname _,
        foundAt_of_lookupEntry hkind hok⟩
    · rename_i name hkind _
      refine ⟨.key name, by simp [stepOf?, hkind], hname name, ?_⟩
      cases hpart : node.child? name with
      | some part =>
        rw [lookupField_of_part hpart] at hok
        exact .inl ⟨part, by rwa [schemaAt?, valueAt?_of_record hkind], hok⟩
      | none =>
        rw [lookupField_of_none hpart] at hok
        cases hok
    · rename_i position hkind _
      exact ⟨.index position, by simp [stepOf?, hkind], reaches_of_lookupElement hok,
        foundAt_of_lookupElement (by rw [hkind]; rfl) hok⟩
    · rename_i position hkind _
      exact ⟨.index position, by simp [stepOf?, hkind], reaches_of_lookupElement hok,
        foundAt_of_lookupElement (by rw [hkind]; rfl) hok⟩
    · cases hok

/-- A look-up passes through a reference. -/
theorem lookupWith_of_ref (hkind : node.kind = .ref) (hpointee : node.pointee? = some part) :
    node.lookupWith lookupPart (segment :: rest) location =
      lookupPart part (mem_parts_of_pointee? hpointee) (segment :: rest) location := by
  unfold lookupWith
  simp only [hkind, reduceCtorEq, if_false, if_true]
  split
  · rename_i other hother
    obtain rfl := Option.some.inj (hother.symm.trans hpointee)
    rfl
  · rename_i hmissing
    cases hmissing.symm.trans hpointee

/-- Whether a node finds a place does not depend on where the look-up starts if that holds of its
parts. -/
theorem toOption_lookupWith (hparts : ∀ part mem segments location other,
      (lookupPart part mem segments location).toOption =
        (lookupPart part mem segments other).toOption)
    (segments : List Segment) (location other : Location) :
    (node.lookupWith lookupPart segments location).toOption =
      (node.lookupWith lookupPart segments other).toOption := by
  have hentry (key : String) (rest : List Segment) :
      (node.lookupEntry lookupPart key rest location).toOption =
        (node.lookupEntry lookupPart key rest other).toOption := by
    cases hpart : node.valueAt? key with
    | some part =>
      rw [lookupEntry_of_part hpart, lookupEntry_of_part hpart]
      exact hparts _ _ _ _ _
    | none =>
      rw [lookupEntry_of_none hpart, lookupEntry_of_none hpart]
      split <;> rfl
  have hfield (name : String) (rest : List Segment) :
      (node.lookupField lookupPart name rest location).toOption =
        (node.lookupField lookupPart name rest other).toOption := by
    cases hpart : node.child? name with
    | some part =>
      rw [lookupField_of_part hpart, lookupField_of_part hpart]
      exact hparts _ _ _ _ _
    | none =>
      rw [lookupField_of_none hpart, lookupField_of_none hpart]
      rfl
  have helement (position : Nat) (rest : List Segment) :
      (node.lookupElement lookupPart position rest location).toOption =
        (node.lookupElement lookupPart position rest other).toOption := by
    unfold lookupElement
    split
    · rfl
    · split
      · exact hparts _ _ _ _ _
      · rfl
  unfold lookupWith
  split
  · rfl
  · split
    · rfl
    · split
      · split
        · exact hparts _ _ _ _ _
        · rfl
      · split
        · rfl
        · split <;> first | exact hentry _ _ | exact hfield _ _ | exact helement _ _ | rfl

end Node

namespace Schema

/-! ## Looking up in schemas -/

/-- The first node that is found among several does not depend on their faults. -/
theorem toOption_firstFound (fault : SchemaError)
    (candidates : List (Except SchemaError (Node Schema))) :
    (firstFound fault candidates).toOption = (candidates.map Except.toOption).findSome? id := by
  induction candidates generalizing fault with
  | nil => rfl
  | cons candidate rest ih =>
    cases candidate with
    | ok node => rfl
    | error error => exact ih error

/-- Whether a place is found does not depend on where the look-up starts. -/
theorem toOption_lookup (schema : Schema) : ∀ segments location other,
    (schema.lookup segments location).toOption = (schema.lookup segments other).toOption := by
  induction schema using Schema.induct with
  | single node ih =>
    intro segments location other
    rw [lookup_single]
    exact Node.toOption_lookupWith ih segments location other
  | choice union ih =>
    intro segments location other
    rw [lookup_choice, lookup_choice, toOption_firstFound, toOption_firstFound, List.map_map,
      List.map_map]
    refine congrArg _ (List.map_congr_left fun alternative hmem => ?_)
    exact ih alternative (NodeUnion.mem_of_mem_ordered hmem) segments location other

/-- A place that is found from anywhere is found from everywhere. -/
theorem lookup_eq_ok_of_lookup {schema : Schema} {segments : List Segment} {location : Location}
    {found : Node Schema} (hfound : schema.lookup segments location = .ok found)
    (other : Location) : schema.lookup segments other = .ok found := by
  have hsame := schema.toOption_lookup segments location other
  rw [hfound] at hsame
  cases hother : schema.lookup segments other with
  | ok node =>
    rw [hother] at hsame
    rw [Option.some.inj hsame]
  | error fault =>
    rw [hother] at hsame
    cases hsame

/-- The path to a place is looked up step by step. -/
theorem at?_toPath (schema : Schema) (location : Location) :
    schema.at? location.toPath = schema.lookup (location.map Step.segment) [] := by
  have hroot : (location.map Step.segment).filter (· != .root) = location.map Step.segment := by
    rw [List.filter_eq_self]
    intro segment hmem
    obtain ⟨step, _, rfl⟩ := List.mem_map.mp hmem
    cases step <;> rfl
  rw [at?, Location.toPath]
  simp only [Path.isRecursive]
  simp [hroot]

end Schema

end NestedData
