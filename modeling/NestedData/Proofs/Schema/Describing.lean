import Mathlib
import NestedData.Proofs.Schema.Children
import NestedData.Proofs.Value.Places

/-!
# Every place of a valid value is described

Validation goes down a value and a look-up goes down a schema, each by rules of its own for references,
entries, fields and elements.  This module shows that they stay in step: where nothing may be absent and
no child unfit, a look-up that follows the steps to a place of a valid value finds a node, and if there
is no union on the way, what is stored at the place is valid for that node.

Main results:

- `Node.stepOf?_of_child?`, `Node.reaches_of_child?`, `Node.undescribed_of_child?`: how a look-up
  reaches the children of a valid container.
- `Schema.describes_of_isValid`: a valid value is described at every place.
- `Schema.exists_at?_of_isValid`: the node of every place of a valid value is found.
-/

namespace NestedData

namespace Node

variable {node : Node Schema} {accepts : Schema → Value → Prop} {value child : Value} {step : Step}

/-- A strict node admits a value if it describes every value, or if the value is of the kind described
and its children are admitted. -/
theorem IsStrict.admits_iff (hstrict : node.IsStrict) :
    node.Admits accepts value ↔
      node.kind = .any ∨ value.kind = node.kind ∧ node.AdmitsChildren accepts value := by
  simp [Admits, hstrict.validator, hstrict.mandatory]

/-! ## Steps of a value in a node of its kind -/

/-- The segment of a step to a child takes that step from the kind of the value. -/
theorem stepOf?_of_child? (hkind : value.kind = node.kind) (hchild : value.child? step = some child) :
    node.stepOf? step.segment = some step := by
  unfold stepOf?
  rw [← hkind]
  cases value with
  | map entries => cases step <;> first | rfl | cases hchild
  | record aggregate => cases step <;> first | rfl | cases hchild
  | list sequence =>
    rcases sequence with ⟨extent, items⟩
    cases step <;> cases extent <;> first | rfl | cases hchild
  | _ => cases hchild

/-- The elements of a list of the expected length are within it. -/
theorem reaches_of_child? (hadmits : node.AdmitsChildren accepts value)
    (hchild : value.child? step = some child) : node.Reaches step := by
  rintro position length rfl hlength
  cases value with
  | list sequence =>
    obtain rfl : sequence.size = length := hadmits.length length hlength
    exact (Array.getElem?_eq_some_iff.mp hchild).1
  | _ => cases hchild

/-- A child without a schema is an entry of a map that no schema describes, or an element. -/
theorem undescribed_of_child? (hkind : value.kind = node.kind)
    (hadmits : node.AdmitsChildren accepts value) (hchild : value.child? step = some child)
    (hnone : node.schemaAt? step = none) :
    node.kind = .map ∧ node.entries? = none ∧ node.children = [] ∨ node.kind.isLinear = true := by
  rw [← hkind]
  cases value with
  | map entries =>
    cases step with
    | index position => cases hchild
    | key name =>
      obtain ⟨hown, hcommon⟩ := Option.or_eq_none_iff.mp hnone
      have hcommon : node.entries? = none := Option.map_eq_none_iff.mp hcommon
      have hentry := hadmits _ (Entries.mem_of_get? hchild)
      simp only [AdmitsEntry, hown, hcommon] at hentry
      exact .inl ⟨rfl, hcommon, hentry⟩
  | record aggregate =>
    cases step with
    | index position => cases hchild
    | key name =>
      obtain ⟨hown, _⟩ := Option.or_eq_none_iff.mp hnone
      obtain ⟨field, hfield, hexported, rfl⟩ := Record.get?_eq_some_iff.mp hchild
      obtain ⟨hmem, rfl⟩ := Record.mem_of_field? hfield
      obtain ⟨part, hpart, _⟩ := hadmits.fields field (List.mem_filter.mpr ⟨hmem, hexported⟩)
      cases hpart.symm.trans hown
  | list sequence =>
    rcases sequence with ⟨extent, items⟩
    cases extent <;> exact .inr rfl
  | _ => cases hchild

variable {lookupPart : node.EachPart Lookup} {segment : Segment} {rest : List Segment}
  {location : Location}

/-- An element without a schema may be any value, unless it is beyond the length. -/
theorem lookupElement_of_none {position : Nat} (hreaches : node.Reaches (.index position))
    (hmissing : node.elementAt? position = none) :
    node.lookupElement lookupPart position rest location = .ok .any := by
  unfold lookupElement
  split
  · rename_i length hlength
    obtain ⟨hlength, hbeyond⟩ := Option.filter_eq_some_iff.mp hlength
    have hinside := hreaches position length rfl hlength
    simp at hbeyond
    omega
  · split
    · rename_i part hpart
      cases hmissing.symm.trans hpart
    · rfl

/-- Where a segment takes a step to a child without a schema, any value may be. -/
theorem lookupWith_of_none (hstep : node.stepOf? segment = some step) (hreaches : node.Reaches step)
    (hnone : node.schemaAt? step = none)
    (hopen : node.kind = .map ∧ node.entries? = none ∧ node.children = [] ∨
      node.kind.isLinear = true) :
    node.lookupWith lookupPart (segment :: rest) location = .ok .any := by
  have hentry {name : String} (hkind : node.kind = .map) (hmissing : node.valueAt? name = none) :
      node.lookupEntry lookupPart name rest location = .ok .any := by
    obtain ⟨_, hentries, hchildren⟩ := hopen.resolve_right (by simp [hkind, Kind.isLinear])
    simp [lookupEntry_of_none hmissing, hentries, hchildren]
  unfold stepOf? at hstep
  split at hstep
  all_goals
    rename_i hkind
    cases hstep
  · simpa [lookupWith, hkind, Segment.isMultiValued] using hentry hkind hnone
  · simpa [lookupWith, hkind, Segment.isMultiValued] using hentry hkind hnone
  · simp [hkind, Kind.isLinear] at hopen
  · simpa [lookupWith, hkind, Segment.isMultiValued] using lookupElement_of_none hreaches hnone
  · simpa [lookupWith, hkind, Segment.isMultiValued] using lookupElement_of_none hreaches hnone

/-- Behind a reference without a schema for what it refers to, any value may be. -/
theorem lookupWith_of_openRef (hkind : node.kind = .ref) (hpointee : node.pointee? = none) :
    node.lookupWith lookupPart (segment :: rest) location = .ok .any := by
  unfold lookupWith
  simp only [hkind, reduceCtorEq, if_false, if_true]
  split
  · rename_i part hpart
    cases hpointee.symm.trans hpart
  · rfl

end Node

namespace Schema

/-! ## Nodes for places -/

variable {schema : Schema} {value child stored root : Value} {step : Step} {segments : List Segment}
  {location : Location} {node : Node Schema}

/-- From everywhere, segments lead to a node of the schema; if it has no unions, what is stored there is
valid for the node. -/
def Describes (schema : Schema) (segments : List Segment) (stored : Value) : Prop :=
  ∀ start, ∃ found, schema.lookup segments start = .ok found ∧
    (schema.WithoutUnions → (Schema.single found).isValid stored = true)

theorem describes_of_lookup_any (hany : ∀ start, schema.lookup segments start = .ok .any) :
    schema.Describes segments stored :=
  fun start => ⟨.any, hany start, fun _ => isValid_any stored⟩

/-- What is described by a part of a node is described by the node if the look-up goes on in the part. -/
theorem Describes.of_part {part : Schema} {later : List Segment} (hpart : part ∈ node.parts)
    (hdescribes : part.Describes later stored)
    (hlookup : ∀ start, ∃ next, (Schema.single node).lookup segments start = part.lookup later next) :
    (Schema.single node).Describes segments stored := by
  intro start
  obtain ⟨next, hnext⟩ := hlookup start
  obtain ⟨found, hfound, hvalid⟩ := hdescribes next
  refine ⟨found, hnext.trans hfound, fun hunions => hvalid ?_⟩
  exact (everywhere_single_iff.mp hunions).2 part hpart

/-- One of several outcomes being a node, a node is found. -/
theorem exists_firstFound {fault : SchemaError}
    {candidates : List (Except SchemaError (Node Schema))} (hmem : .ok node ∈ candidates) :
    ∃ found, firstFound fault candidates = .ok found := by
  induction candidates generalizing fault with
  | nil => cases hmem
  | cons candidate rest ih =>
    cases candidate with
    | ok first => exact ⟨first, rfl⟩
    | error error => exact ih ((List.mem_cons.mp hmem).resolve_left (by simp))

/-- What is described by the nodes that a value is valid for is described by the schemas that it is
valid for. -/
theorem describes_of_nodes (hstrict : schema.IsStrict) (hvalid : schema.isValid value = true)
    (hnodes : ∀ node : Node Schema, (Schema.single node).IsStrict →
      (Schema.single node).isValid value = true → (Schema.single node).Describes segments stored) :
    schema.Describes segments stored := by
  cases schema with
  | single node => exact hnodes node hstrict hvalid
  | choice union =>
    intro start
    obtain ⟨alternative, hmem, hfits⟩ := isValid_choice_iff.mp hvalid
    have halternative := (everywhere_choice_iff.mp hstrict).2 alternative
      (NodeUnion.mem_of_mem_ordered hmem)
    obtain ⟨node, hnode, _⟩ := hnodes alternative.2 halternative hfits start
    have hcandidate : .ok node ∈ union.ordered.map fun alternative =>
        (Schema.single alternative.2).lookup segments start :=
      List.mem_map.mpr ⟨alternative, hmem, hnode⟩
    obtain ⟨found, hfound⟩ := exists_firstFound hcandidate
    refine ⟨found, ?_, fun hunions => (everywhere_choice_iff.mp hunions).1.elim⟩
    rw [lookup_choice, hfound]

/-- A look-up below a reference goes on in what it refers to. -/
theorem describes_of_referent {segment : Segment} {rest : List Segment}
    (hstrict : (Schema.single node).IsStrict)
    (hvalid : (Schema.single node).isValid (.ref value) = true)
    (hreferent : ∀ part : Schema, part.IsStrict → part.isValid value = true →
      part.Describes (segment :: rest) stored) :
    (Schema.single node).Describes (segment :: rest) stored := by
  obtain ⟨hnode, hparts⟩ := everywhere_single_iff.mp hstrict
  rcases hnode.admits_iff.mp (isValid_single_iff.mp hvalid) with hany | ⟨hkind, hchildren⟩
  · exact describes_of_lookup_any fun start => by simp [lookup_single, Node.lookupWith, hany]
  · have href : node.kind = .ref := hkind.symm
    rcases hpointee : node.pointee? with _ | part
    · refine describes_of_lookup_any fun start => ?_
      rw [lookup_single, Node.lookupWith_of_openRef href hpointee]
    · have hpart := Node.mem_parts_of_pointee? hpointee
      have hvalue : part.isValid value = true := by
        simpa [Node.AdmitsChild, hnode.mandatory] using hchildren part hpointee
      refine .of_part hpart (hreferent part (hparts part hpart) hvalue) fun start => ⟨start, ?_⟩
      rw [lookup_single, Node.lookupWith_of_ref href hpointee]

/-- A look-up below a container goes on in its children. -/
theorem describes_of_child {rest : List Segment} (hstrict : (Schema.single node).IsStrict)
    (hvalid : (Schema.single node).isValid value = true) (hchild : value.child? step = some child)
    (hpart : ∀ part : Schema, part.IsStrict → part.isValid child = true →
      part.Describes rest stored) :
    (Schema.single node).Describes (step.segment :: rest) stored := by
  obtain ⟨hnode, hparts⟩ := everywhere_single_iff.mp hstrict
  rcases hnode.admits_iff.mp (isValid_single_iff.mp hvalid) with hany | ⟨hkind, hchildren⟩
  · exact describes_of_lookup_any fun start => by simp [lookup_single, Node.lookupWith, hany]
  · rcases hschema : node.schemaAt? step with _ | part
    · refine describes_of_lookup_any fun start => ?_
      rw [lookup_single]
      exact Node.lookupWith_of_none (Node.stepOf?_of_child? hkind hchild)
        (Node.reaches_of_child? hchildren hchild) hschema
        (Node.undescribed_of_child? hkind hchildren hchild hschema)
    · have hmem := Node.mem_parts_of_schemaAt? hschema
      have hfits : part.isValid child = true := Node.accepts_child_of_admits hchildren hnode.mandatory
        (Value.mem_children_of_child? hchild) hschema
      refine .of_part hmem (hpart part (hparts part hmem) hfits) fun start =>
        ⟨start.child step, ?_⟩
      rw [lookup_single, Node.lookupWith_of_part (Node.stepOf?_of_child? hkind hchild)
        (Node.reaches_of_child? hchildren hchild) hschema]

/-- A valid value is described at every place. -/
theorem describes_of_isValid (hstrict : schema.IsStrict) (hvalid : schema.isValid value = true)
    (hstored : value.storedAt? location = some stored) :
    schema.Describes (location.map Step.segment) stored := by
  induction location generalizing schema value with
  | nil =>
    obtain rfl : value = stored := Option.some.inj hstored
    refine describes_of_nodes hstrict hvalid fun node _ hfits start => ⟨node, ?_, fun _ => hfits⟩
    rw [lookup_single]
    rfl
  | cons step rest ih =>
    obtain ⟨child, hchild, hrest⟩ := Option.bind_eq_some_iff.mp hstored
    clear hstored
    have hbelow (part : Schema) (hpart : part.IsStrict) (hfits : part.isValid child = true) :
        part.Describes (rest.map Step.segment) stored := ih hpart hfits hrest
    -- References are passed one by one, each of them by the node that the value is valid for.
    induction value using Value.induct generalizing schema with
    | ref referent ihreferent =>
      exact describes_of_nodes hstrict hvalid fun node hnode hfits =>
        describes_of_referent hnode hfits fun part hpart hvalue => ihreferent hpart hvalue hchild
    | _ =>
      exact describes_of_nodes hstrict hvalid fun node hnode hfits =>
        describes_of_child hnode hfits hchild hbelow

/-- Where nothing may be absent and no child unfit, every place of a valid value has a node in the
schema; without unions, what is stored at the place is valid for that node. -/
theorem exists_at?_of_isValid (hstrict : schema.IsStrict) (hvalid : schema.isValid root = true)
    (hstored : root.storedAt? location = some stored) :
    ∃ found, schema.at? location.toPath = .ok found ∧
      (schema.WithoutUnions → (Schema.single found).isValid stored = true) := by
  rw [at?_toPath]
  exact describes_of_isValid hstrict hvalid hstored []

/-- A name that stands behind a reference, under a key with a schema of its own, in a map that an array
refers to. -/
theorem exists_at?_lead :
    let person : Schema := .single {
      shape := .map (some (.single { shape := .string }, .single { shape := .int }))
      children := [("lead", .single { shape := .ref (some (.single { shape := .string })) })] }
    let schema : Schema := .single {
      shape := .record
      typeName := some "Team"
      children := [("members", .single {
        shape := .array (some (2, .single { shape := .ref (some person) })) })] }
    let ada : Value := .map [("age", .int 36), ("lead", .ref (.text "Ada"))]
    let root : Value := .record { name := "Team", fields := [
      { name := "members", value := .list (.fixed #[.nilRef, .ref ada]) },
      { name := "secret", value := .bool true, exported := false }] }
    let location : Location := [.key "members", .index 1, .key "lead"]
    schema.IsStrict ∧ schema.WithoutUnions ∧ schema.isValid root = true ∧
      root.storedAt? location = some (.ref (.text "Ada")) ∧
      ∃ found, schema.at? location.toPath = .ok found ∧
        (Schema.single found).isValid (.ref (.text "Ada")) = true := by
  intro person schema ada root location
  have hstrict : schema.IsStrict := by
    simp [schema, person, Schema.IsStrict, Node.isStrict_iff, Node.parts, Node.element?,
      Node.entries?, Node.pointee?]
  have hunions : schema.WithoutUnions := by
    simp [schema, person, Schema.WithoutUnions, Node.parts, Node.element?, Node.entries?,
      Node.pointee?]
  have hvalid : schema.isValid root = true := by
    simp only [person, schema, ada, root]
    cbv
  have hstored : root.storedAt? location = some (.ref (.text "Ada")) := rfl
  obtain ⟨found, hfound, hfits⟩ := exists_at?_of_isValid hstrict hvalid hstored
  exact ⟨hstrict, hunions, hvalid, hstored, found, hfound, hfits hunions⟩

end Schema

end NestedData
