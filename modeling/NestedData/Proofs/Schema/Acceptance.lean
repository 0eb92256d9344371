import Mathlib
import NestedData.Json.Reader
import NestedData.Proofs.Schema.Children
import NestedData.Proofs.Schema.Soundness

/-!
# Valid values are converted

This module proves that conversion accepts what validation accepts, and says where it does not.  Two
rules of conversion are stricter than those of validation.  What a reference refers to has to be
converted even if the reference may be absent, while validation puts up with any referent.  And
while an alternative of a union is tried, a map that declares no entries accepts none, while validation
leaves its entries alone.  Where neither rule stops a value on its way through the schema, whatever
is valid is converted.

Main results:

- `Node.exists_convertWith`: a node converts a valid value if its parts convert what they are given.
- `Schema.exists_conform_of_isValid`: a valid value is converted, unless conversion asks for more.
-/

namespace NestedData

/-! ## Where conversion asks for more -/

/-- Conversion asks more of a value than validation does, at the value itself. -/
@[mk_iff]
inductive Node.AsksMore (library : Json.Library) (node : Node Schema) : Bool → Value → Prop
  /-- A reference that may be absent refers to something that is neither valid nor converted. -/
  | referent {strict : Bool} {part : Schema} {referent : Value} {location : Location}
      (hnilable : node.nilable = true) (hpointee : node.pointee? = some part)
      (hthere : referent.target.isAbsent = false) (hunfit : part.isValid referent = false)
      (hfails : (part.convert library strict location referent).isOk = false) :
      AsksMore library node strict (.ref referent)
  /-- A map whose node declares no entries is an alternative, and there are entries. -/
  | entries {entries : Entries Value} (hkind : node.kind = .map) (hthere : node.nilable = false)
      (hopen : node.entries? = none ∧ node.children = []) (hsome : entries ≠ []) :
      AsksMore library node true (.map entries)

/-- Conversion asks no more of a value than validation does, wherever it gets to: not of the value
itself, nor of what it refers to, nor of a child, unless unfit children are put up with; and by a
union, not if the value is taken for one of the alternatives that it is valid for, or else if some
alternative converts it all the same. -/
inductive Schema.AsksNoMore (library : Json.Library) : Schema → Bool → Value → Prop
  | single {node : Node Schema} {strict : Bool} {value : Value}
      (hhere : ¬ node.AsksMore library strict value)
      (hreferent : ∀ part referent, node.pointee? = some part → value = .ref referent →
        part.isValid referent = true → AsksNoMore library part strict referent)
      (hchildren : value.kind = node.kind → node.nilable = false → ∀ child ∈ value.children,
        ∀ part, node.schemaAt? child.1 = some part → AsksNoMore library part false child.2) :
      AsksNoMore library (.single node) strict value
  | choice {union : NodeUnion Schema} {strict : Bool} {value : Value}
      {alternative : String × Node Schema} (hmem : alternative ∈ union.ordered)
      (hvalid : (Schema.single alternative.2).isValid value = true)
      (halternative : AsksNoMore library (.single alternative.2) true value) :
      AsksNoMore library (.choice union) strict value
  | converted {union : NodeUnion Schema} {strict : Bool} {value : Value}
      {alternative : String × Node Schema} (hmem : alternative ∈ union.ordered)
      (hconverts : ∀ location,
        ((Schema.single alternative.2).convert library true location value).isOk = true) :
      AsksNoMore library (.choice union) strict value

theorem Schema.asksNoMore_single_iff {library : Json.Library} {node : Node Schema} {strict : Bool}
    {value : Value} :
    (Schema.single node).AsksNoMore library strict value ↔ ¬ node.AsksMore library strict value ∧
      (∀ part referent, node.pointee? = some part → value = .ref referent →
        part.isValid referent = true → part.AsksNoMore library strict referent) ∧
      (value.kind = node.kind → node.nilable = false → ∀ child ∈ value.children, ∀ part,
        node.schemaAt? child.1 = some part → part.AsksNoMore library false child.2) :=
  ⟨fun h => by cases h; exact ⟨‹_›, ‹_›, ‹_›⟩, fun h => .single h.1 h.2.1 h.2.2⟩

namespace Node

variable {library : Json.Library} {node : Node Schema} {convertPart : node.EachPart Convert}
  {strict : Bool} {location : Location} {value : Value}

/-! ## What is known of the parts -/

/-- The parts of a node convert what they are given: the referent of a reference, and the children
and the keys, unless the node puts up with unfit ones. -/
structure PartsConvert (node : Node Schema) (convertPart : node.EachPart Convert) (strict : Bool)
    (value : Value) : Prop where
  /-- What a reference refers to is converted. -/
  referent : ∀ part mem referent location, node.pointee? = some part → value = .ref referent →
    referent.target.isAbsent = false →
      ∃ converted, convertPart part mem strict location referent.target = .ok converted
  /-- Every child is converted. -/
  children : node.nilable = false → ∀ child ∈ value.children, ∀ part mem location,
    node.schemaAt? child.1 = some part →
      ∃ converted, convertPart part mem false location child.2 = .ok converted
  /-- Every key is converted, unless the node declares it. -/
  keys : node.nilable = false → ∀ entries, value = .map entries → ∀ entry ∈ entries,
    node.child? entry.1 = none → ∀ schemas mem location, node.entries? = some schemas →
      ∃ converted, convertPart schemas.1 mem false location (.text entry.1) = .ok converted

/-- A child is converted or left out. -/
theorem exists_tolerate {α : Type} {outcome : Except SchemaError α}
    (hchild : node.nilable = false → ∃ child, outcome = .ok child) :
    ∃ kept, node.tolerate outcome = .ok kept := by
  cases outcome with
  | ok child => exact ⟨some child, rfl⟩
  | error fault =>
    cases hnilable : node.nilable with
    | true => exact ⟨none, by simp [tolerate, hnilable]⟩
    | false =>
      obtain ⟨child, hok⟩ := hchild hnilable
      cases hok

/-! ## Records -/

/-- Fields are filled if their values are converted. -/
theorem exists_fillRecord {given : Entries Value} (aggregate : Record Value)
    (hgiven : node.nilable = false → ∀ child ∈ node.children, ∀ mem location value,
      Entries.get? given child.1 = some value →
        ∃ converted, convertPart child.2 mem false location value = .ok converted) :
    ∃ filled, node.fillRecord convertPart location given aggregate = .ok filled := by
  unfold fillRecord
  refine Outcome.exists_of_foldlM (fun done child _ => ?_) aggregate
  simp only
  split
  · exact ⟨done, rfl⟩
  · rename_i value hfound
    refine Outcome.exists_bind (exists_tolerate fun hnilable => ?_) fun kept => ?_
    · exact hgiven hnilable child.1 child.2 _ _ value hfound
    · cases kept with
      | none => exact ⟨done, rfl⟩
      | some converted =>
        simp only
        split
        · exact ⟨_, rfl⟩
        · exact ⟨_, rfl⟩

/-- A valid record is converted. -/
theorem exists_convertRecord {accepts : Schema → Value → Prop} {aggregate : Record Value}
    (hplain : node.IsPlain) (hkind : node.kind = .record)
    (hadmits : node.AdmitsRecord accepts aggregate)
    (hparts : node.PartsConvert convertPart strict (.record aggregate)) :
    ∃ converted, node.convertRecord convertPart strict location (.record aggregate) =
      .ok converted := by
  obtain ⟨zero, hzero, _⟩ : ∃ zero, node.zero = .record zero ∧
      node.Declares (fun _ _ => True) zero :=
    declares_zero hplain (shape_eq_record hkind) (by simp)
  simp only [convertRecord, Value.namedChildren?, hzero]
  generalize hgiven : (aggregate.exportedFields.map fun field => (field.name, field.value)) = given
  have hfield : ∀ child ∈ given, ∃ field ∈ aggregate.exportedFields,
      (field.name, field.value) = child := by
    rw [← hgiven]
    exact fun child hmem => List.mem_map.mp hmem
  have hunknown : (if strict then given.find? fun child => (node.child? child.1).isNone
      else none) = none := by
    split
    · rw [List.find?_eq_none]
      intro child hchild
      obtain ⟨field, hmem, rfl⟩ := hfield child hchild
      obtain ⟨part, hpart, _⟩ := hadmits.fields field hmem
      simp [hpart]
    · rfl
  have hfilled : ∃ filled, node.fillRecord convertPart location given zero = .ok filled := by
    refine exists_fillRecord zero fun hnilable child hchild mem place value hfound => ?_
    obtain ⟨field, hmem, hpair⟩ := hfield _ (Entries.mem_of_get? hfound)
    obtain ⟨hname, rfl⟩ := Prod.mk.inj hpair
    have hthere : (Step.key child.1, field.value) ∈ (Value.record aggregate).children := by
      rw [← hname]
      exact List.mem_map_of_mem hmem
    refine hparts.children hnilable _ hthere child.2 mem place ?_
    simp [schemaAt?, valueAt?, child?, Entries.get?_of_mem hplain.names hchild]
  obtain ⟨filled, hfilled⟩ := hfilled
  refine ⟨.record filled, ?_⟩
  simp only [hunknown, hfilled]
  rfl

/-! ## Maps -/

/-- A valid entry is converted. -/
theorem exists_convertEntry {accepts : Schema → Value → Prop} {entries : Entries Value}
    {entry : String × Value} (hkind : node.kind = .map) (hnilable : node.nilable = false)
    (hmem : entry ∈ entries) (hadmits : node.AdmitsEntry accepts entry.1 entry.2)
    (hmore : ¬ node.AsksMore library strict (.map entries))
    (hparts : node.PartsConvert convertPart strict (.map entries)) :
    ∃ converted, node.convertEntry convertPart strict location entry.1 entry.2 =
      .ok converted := by
  have hchild : (Step.key entry.1, entry.2) ∈ (Value.map entries).children :=
    List.mem_map_of_mem (f := fun entry : String × Value => (Step.key entry.1, entry.2)) hmem
  cases hfound : node.child? entry.1 with
  | some part =>
    obtain ⟨converted, hconverted⟩ := hparts.children hnilable _ hchild part
      (mem_parts_of_child? hfound) location (by simp [schemaAt?, valueAt?, hfound])
    exact ⟨(entry.1, converted), convertEntry_eq_ok_iff.mpr (.inl ⟨part, hfound, rfl, hconverted⟩)⟩
  | none =>
    cases hentries : node.entries? with
    | some schemas =>
      obtain ⟨key, hkey⟩ := hparts.keys hnilable entries rfl entry hmem hfound schemas
        (mem_parts_of_key hentries) location hentries
      have htext := convertKey_eq_ok_iff.mpr ⟨key, hkey, rfl⟩
      obtain ⟨converted, hconverted⟩ := hparts.children hnilable _ hchild schemas.2
        (mem_parts_of_value hentries) location (by simp [schemaAt?, valueAt?, hfound, hentries])
      exact ⟨(key.keyText, converted),
        convertEntry_eq_ok_iff.mpr (.inr (.inl ⟨hfound, schemas, hentries, htext, hconverted⟩))⟩
    | none =>
      have hopen : node.children = [] := by
        simpa [AdmitsEntry, hfound, hentries] using hadmits
      cases strict with
      | false =>
        exact ⟨entry, convertEntry_eq_ok_iff.mpr (.inr (.inr ⟨hfound, hentries, rfl, rfl, rfl⟩))⟩
      | true =>
        have hsome : entries ≠ [] := List.ne_nil_of_mem hmem
        exact absurd (.entries hkind hnilable ⟨hentries, hopen⟩ hsome) hmore

/-- A valid map is converted. -/
theorem exists_convertMap {accepts : Schema → Value → Prop} {entries : Entries Value}
    (hkind : node.kind = .map)
    (hadmits : ∀ entry ∈ entries, node.AdmitsEntry accepts entry.1 entry.2)
    (hmore : ¬ node.AsksMore library strict (.map entries))
    (hparts : node.PartsConvert convertPart strict (.map entries)) :
    ∃ converted, node.convertMap convertPart strict location (.map entries) = .ok converted := by
  simp only [convertMap, Value.namedChildren?]
  refine Outcome.exists_bind (Outcome.exists_of_foldlM (fun done entry hmem => ?_) [])
    fun converted => ⟨_, rfl⟩
  refine Outcome.exists_bind (exists_tolerate fun hnilable => ?_) fun kept => ?_
  · exact exists_convertEntry hkind hnilable hmem (hadmits entry hmem) hmore hparts
  · cases kept with
    | none => exact ⟨done, rfl⟩
    | some pair => exact ⟨_, rfl⟩

/-! ## Lists -/

/-- Elements are converted. -/
theorem exists_convertItems {sequence : Sequence Value}
    (hparts : node.PartsConvert convertPart strict (.list sequence)) :
    ∃ converted, node.convertItems convertPart location sequence.items = .ok converted := by
  unfold convertItems
  refine Outcome.exists_of_foldlM (fun done item hmem => ?_) #[]
  refine Outcome.exists_bind (exists_tolerate fun hnilable => ?_) fun kept => ?_
  · have hchild : (Step.index item.2, item.1) ∈ (Value.list sequence).children :=
      List.mem_map_of_mem (f := fun item : Value × Nat => (Step.index item.2, item.1)) hmem
    cases hfound : node.elementAt? item.2 with
    | some part =>
      obtain ⟨converted, hconverted⟩ :=
        hparts.children hnilable _ hchild part (mem_parts_of_elementAt? hfound) _ hfound
      refine ⟨converted, convertItem_eq_ok_iff.mpr ⟨fun other hother => ?_, by simp [hfound]⟩⟩
      obtain rfl := Option.some.inj (hfound.symm.trans hother)
      exact hconverted
    | none => exact ⟨item.1, convertItem_eq_ok_iff.mpr (by simp [hfound])⟩
  · cases kept with
    | none => exact ⟨_, rfl⟩
    | some converted => exact ⟨_, rfl⟩

/-- A valid list is converted. -/
theorem exists_convertList {accepts : Schema → Value → Prop} {sequence : Sequence Value}
    (hadmits : node.AdmitsList accepts sequence)
    (hparts : node.PartsConvert convertPart strict (.list sequence)) :
    ∃ converted, node.convertList convertPart location (.list sequence) = .ok converted := by
  have hfits : ¬ node.length?.getD sequence.items.size < sequence.items.size := by
    cases hlength : node.length? with
    | none => simp
    | some length =>
      have hsize := hadmits.length length hlength
      simp [← hsize, Sequence.size]
  simp only [convertList]
  split
  · exact Outcome.exists_bind (exists_convertItems hparts) fun items => ⟨_, rfl⟩
  · exact Outcome.exists_bind (exists_convertItems hparts) fun items => ⟨_, rfl⟩

/-! ## Nodes -/

/-- A reference is converted if what it refers to is. -/
theorem exists_convertRef {referent : Value} (hplain : node.IsPlain) (hkind : node.kind = .ref)
    (hparts : node.PartsConvert convertPart strict (.ref referent)) :
    ∃ converted,
      node.convertWith library convertPart strict location (.ref referent) = .ok converted := by
  cases hthere : referent.target.isAbsent with
  | true => exact ⟨node.zero, convertWith_of_absent hplain.converter hthere⟩
  | false =>
    have hpresent : (Value.ref referent).target.isAbsent = false := hthere
    rw [convertWith_of_no_container hplain.converter (by rw [hkind]; rfl) hpresent]
    simp only [convertPresent, hkind]
    split
    · rename_i part hfound
      obtain ⟨converted, hconverted⟩ := hparts.referent part (mem_parts_of_pointee? hfound)
        referent location hfound rfl hthere
      exact ⟨.ref converted, by rw [Value.target, hconverted]; rfl⟩
    · exact ⟨_, rfl⟩

theorem exists_convertWith_of_any (hplain : node.IsPlain) (hany : node.kind = .any) :
    ∃ converted, node.convertWith library convertPart strict location value = .ok converted := by
  cases hthere : value.target.isAbsent with
  | true => exact ⟨node.zero, convertWith_of_absent hplain.converter hthere⟩
  | false =>
    rw [convertWith_of_no_container hplain.converter (by rw [hany]; rfl) hthere]
    exact ⟨value.target, by rw [convertPresent, hany]⟩

/-- A key that reads as something valid for a node is converted. -/
theorem exists_convertWith_readKey {accepts : Schema → Value → Prop} {kind : Kind} {key : String}
    (hplain : node.IsPlain) (hadmits : node.Admits accepts (kind.readKey key)) :
    ∃ converted,
      node.convertWith library convertPart strict location (.text key) = .ok converted := by
  have hscalar := kind.isScalar_readKey key
  rw [Admits, hplain.validator] at hadmits
  rcases hadmits with hany | ⟨_, hnone⟩ | ⟨hkind, _⟩
  · exact exists_convertWith_of_any hplain hany
  · cases hread : kind.readKey key with
    | null | nilRef => simp [hread, Value.kind, Kind.isScalar] at hscalar
    | _ => simp [hread, Value.isAbsent] at hnone
  · refine ⟨kind.readKey key, convertWith_of_coerce hplain.converter (hkind ▸ hscalar) rfl ?_⟩
    rw [← hkind]
    exact kind.coerce?_readKey key

/-- A node converts a valid value if its parts convert what they are given. -/
theorem exists_convertWith {accepts : Schema → Value → Prop} (hplain : node.IsPlain)
    (hadmits : node.Admits accepts value) (hmore : ¬ node.AsksMore library strict value)
    (hparts : value.kind = node.kind → node.PartsConvert convertPart strict value) :
    ∃ converted, node.convertWith library convertPart strict location value = .ok converted := by
  rw [Admits, hplain.validator] at hadmits
  by_cases habsent : value.target.isAbsent = true
  · exact ⟨node.zero, convertWith_of_absent hplain.converter habsent⟩
  rcases hadmits with hany | ⟨_, hnone⟩ | ⟨hkind, hchildren⟩
  · exact exists_convertWith_of_any hplain hany
  · cases value with
    | null | nilRef => exact absurd rfl habsent
    | _ => cases hnone
  · have hparts := hparts hkind
    cases value with
    | null | nilRef => exact absurd rfl habsent
    | ref referent => exact exists_convertRef hplain hkind.symm hparts
    | record aggregate =>
      rw [convertWith_of_kind hplain.converter hkind rfl rfl, convertPresent, ← hkind]
      exact exists_convertRecord hplain hkind.symm hchildren hparts
    | map entries =>
      rw [convertWith_of_kind hplain.converter hkind rfl rfl, convertPresent, ← hkind]
      exact exists_convertMap hkind.symm hchildren hmore hparts
    | list sequence =>
      have hlinear : node.kind = .list ∨ node.kind = .array := by
        rw [← hkind]
        rcases sequence with ⟨extent, items⟩
        cases extent <;> simp [Value.kind]
      rw [convertWith_of_kind hplain.converter hkind rfl rfl, convertPresent]
      rcases hlinear with hlist | harray
      · simp only [hlist]
        exact exists_convertList hchildren hparts
      · simp only [harray]
        exact exists_convertList hchildren hparts
    | bool | int | float | text =>
      rw [convertWith_of_kind hplain.converter hkind rfl rfl, convertPresent, ← hkind]
      exact ⟨_, rfl⟩

end Node

/-! ## Unions -/

variable {library : Json.Library}

namespace Schema

/-- A union converts what one of the alternatives that are tried converts. -/
theorem exists_convert_choice {union : NodeUnion Schema} {alternative : String × Node Schema}
    {strict : Bool} {location : Location} {value : Value} (hmem : alternative ∈ union.ordered)
    (hconvert : ∃ converted,
      (Schema.single alternative.2).convert library true location value = .ok converted) :
    ∃ converted, (Schema.choice union).convert library strict location value = .ok converted := by
  obtain ⟨converted, hconvert⟩ := hconvert
  have hfits : ∃ fit, union.convert library location value = .ok fit := by
    unfold NodeUnion.convert
    split
    · exact ⟨_, rfl⟩
    · rename_i hnone
      obtain ⟨fault, hfault⟩ := NodeUnion.firstFit?_eq_none_iff.mp hnone alternative hmem
      rw [hconvert] at hfault
      cases hfault
  obtain ⟨fit, hfit⟩ := hfits
  exact ⟨fit.2, by rw [convert_choice, hfit]; rfl⟩

/-- A node converts a value as what its references end in; so does a union. -/
theorem exists_convert_of_target {schema : Schema} (hplain : schema.HasPlainNodes) {strict : Bool}
    {location : Location} {value : Value}
    (hconvert : ∃ converted, schema.convert library strict location value = .ok converted) :
    ∃ converted, schema.convert library strict location value.target = .ok converted := by
  obtain ⟨converted, hconvert⟩ := hconvert
  cases schema with
  | single node =>
    refine ⟨converted, ?_⟩
    rwa [convert_single, Node.convertWith_target (everywhere_single_iff.mp hplain).1.converter,
      ← convert_single]
  | choice union =>
    rw [convert_choice, Outcome.map_eq_ok_iff] at hconvert
    obtain ⟨fit, hfit, _⟩ := hconvert
    obtain ⟨node, hmem, hnode⟩ := NodeUnion.exists_of_convert hfit
    have hnodePlain := (everywhere_choice_iff.mp hplain).2 _ (NodeUnion.mem_of_mem_ordered hmem)
    rw [convert_single, ← Node.convertWith_target
      (everywhere_single_iff.mp hnodePlain).1.converter, ← convert_single] at hnode
    exact exists_convert_choice hmem ⟨_, hnode⟩

theorem exists_readKey_eq (schema : Schema) (key : String) :
    ∃ kind : Kind, schema.readKey key = kind.readKey key := by
  unfold readKey
  split
  · rename_i node _
    exact ⟨node.kind, rfl⟩
  · exact ⟨.string, rfl⟩

/-- A key that reads as a valid one is converted. -/
theorem exists_convert_readKey {schema : Schema} (hplain : schema.HasPlainNodes) {key : String}
    (hvalid : schema.isValid (schema.readKey key) = true) (strict : Bool) (location : Location) :
    ∃ converted, schema.convert library strict location (.text key) = .ok converted := by
  obtain ⟨kind, hread⟩ := schema.exists_readKey_eq key
  rw [hread] at hvalid
  cases schema with
  | single node =>
    rw [isValid_single_iff] at hvalid
    rw [convert_single]
    exact Node.exists_convertWith_readKey (everywhere_single_iff.mp hplain).1 hvalid
  | choice union =>
    obtain ⟨alternative, hmem, hvalid⟩ := isValid_choice_iff.mp hvalid
    have hnode := (everywhere_choice_iff.mp hplain).2 _ (NodeUnion.mem_of_mem_ordered hmem)
    rw [isValid_single_iff] at hvalid
    apply exists_convert_choice hmem
    rw [convert_single]
    exact Node.exists_convertWith_readKey (everywhere_single_iff.mp hnode).1 hvalid

/-! ## Schemas -/

/-- The parts of a node convert what they are given if they convert what is valid. -/
theorem partsConvert {node : Node Schema} {strict : Bool} {value : Value}
    (hparts : ∀ part ∈ node.parts, part.HasPlainNodes) (hkind : value.kind = node.kind)
    (hadmits : node.AdmitsChildren (fun part child => part.isValid child = true) value)
    (hmore : (Schema.single node).AsksNoMore library strict value)
    (hconvert : ∀ part ∈ node.parts, ∀ strict location value, part.isValid value = true →
      part.AsksNoMore library strict value → ∃ converted, part.convert library strict location value =
        .ok converted) :
    node.PartsConvert (fun part _ => part.convert library) strict value := by
  obtain ⟨hhere, hreferent, hchildren⟩ := hmore
  refine ⟨?_, ?_, ?_⟩
  · rintro part hmem referent location hpointee rfl hthere
    apply exists_convert_of_target (hparts part hmem)
    cases hvalid : part.isValid referent with
    | true =>
      exact hconvert part hmem strict location referent hvalid
        (hreferent part referent hpointee rfl hvalid)
    | false =>
      have hnilable : node.nilable = true :=
        (hadmits part hpointee).resolve_right (by simp [hvalid])
      cases hconverts : (part.convert library strict location referent).isOk with
      | true => exact Outcome.exists_of_isOk hconverts
      | false => exact absurd (.referent hnilable hpointee hthere hvalid hconverts) hhere
  · intro hnilable child hmem part hpart location hschema
    have hvalid := Node.accepts_child_of_admits hadmits hnilable hmem hschema
    exact hconvert part hpart false location child.2 hvalid
      (hchildren hkind hnilable child hmem part hschema)
  · rintro hnilable entries rfl entry hmem hmissing schemas hkey location hentries
    have hadmits := hadmits entry hmem
    simp only [Node.AdmitsEntry, hmissing, hentries, Node.AdmitsChild, hnilable,
      Bool.false_eq_true, false_or] at hadmits
    exact exists_convert_readKey (hparts _ hkey) hadmits.1 false location

/-- A value that is valid for a schema is converted, wherever it is, unless conversion asks for
more. -/
theorem exists_convert_of_isValid {schema : Schema} (hplain : schema.HasPlainNodes) :
    ∀ strict location value, schema.isValid value = true → schema.AsksNoMore library strict value →
      ∃ converted, schema.convert library strict location value = .ok converted := by
  induction schema using Schema.induct with
  | single node ih =>
    intro strict location value hvalid hmore
    obtain ⟨hnode, hparts⟩ := everywhere_single_iff.mp hplain
    rw [isValid_single_iff] at hvalid
    rw [convert_single]
    cases hmore with
    | single hhere hreferent hchildren =>
      refine Node.exists_convertWith hnode hvalid hhere fun hkind => ?_
      have hadmits := Node.admitsChildren_of_kind hnode hvalid hkind
      exact partsConvert hparts hkind hadmits (.single hhere hreferent hchildren)
        fun part hmem => ih part hmem (hparts part hmem)
  | choice union ih =>
    intro strict location value _ hmore
    cases hmore with
    | choice hmem hvalid halternative =>
      have hthere := NodeUnion.mem_of_mem_ordered hmem
      have hnode := (everywhere_choice_iff.mp hplain).2 _ hthere
      exact exists_convert_choice hmem (ih _ hthere hnode true location value hvalid halternative)
    | converted hmem hconverts =>
      exact exists_convert_choice hmem (Outcome.exists_of_isOk (hconverts location))

/-- A value that is valid for a schema without rules of its own can be brought into the shape that
the schema describes, unless conversion asks for more on the way: of what a reference refers to that
may be absent, or of the entries of a map while an alternative that declares none is tried. -/
theorem exists_conform_of_isValid {schema : Schema} (hplain : schema.HasPlainNodes) {value : Value}
    (hvalid : schema.isValid value = true) (hmore : schema.AsksNoMore library false value) :
    ∃ converted, schema.conform library value = .ok converted :=
  exists_convert_of_isValid hplain false [] value hvalid hmore

/-- A map with a key that reads as a number, a reference to a record as an alternative, and a list
that an unfit element is left out of. -/
theorem exists_conform_service :
    let host : Schema := .single {
      shape := .record, typeName := some "Host", children := [("name", .single { shape := .string })] }
    let target : NodeUnion Schema := {
      name := "Target"
      alternatives := [("Port", { shape := .int }), ("Host", { shape := .ref (some host) })] }
    let service : Schema := .single {
      shape := .map (some (.single { shape := .int }, .choice target))
      children := [("tags", .single {
        shape := .list (some (.single { shape := .int })), nilable := true })] }
    let server : Value :=
      .ref (.record { name := "Host", fields := [{ name := "name", value := .text "a" }] })
    let value : Value := .map [("tags", .ofItems #[.int 1, .text "new"]), ("7", server)]
    service.HasPlainNodes ∧ service.isValid value = true ∧ service.AsksNoMore Json.exact false value ∧
      ∃ converted, service.conform Json.exact value = .ok converted := by
  intro host target service server value
  have hplain : service.HasPlainNodes := by
    simp [service, target, host, HasPlainNodes, Node.isPlain_iff, Node.parts, Node.element?,
      Node.entries?, Node.pointee?, Entries.keys]
  have hvalid : service.isValid value = true := by
    simp only [service, target, host, value, server]
    cbv
  have htarget : (Schema.choice target).AsksNoMore Json.exact false server := by
    have hmem : ("Host", { shape := .ref (some host) }) ∈ target.ordered := by
      simp [target, NodeUnion.ordered, NodeUnion.preferred?]
    refine .choice hmem ?_ ?_
    · simp only [host, server]
      cbv
    · simp [host, server, asksNoMore_single_iff, Node.asksMore_iff, Node.pointee?, Node.schemaAt?,
        Node.valueAt?, Node.child?, Node.entries?, Entries.get?, Value.children,
        Record.exportedFields]
  have hmore : service.AsksNoMore Json.exact false value := by
    simp [service, value, asksNoMore_single_iff, Node.asksMore_iff, Node.pointee?, Node.schemaAt?,
      Node.valueAt?, Node.child?, Node.entries?, Entries.get?, Value.children, Value.ofItems,
      htarget]
  exact ⟨hplain, hvalid, hmore, exists_conform_of_isValid hplain hvalid hmore⟩

/-- A reference that may be absent is valid whatever it refers to, and cannot be converted unless
the referent can; and a map with any entries is valid for the alternative that is open to all, and
cannot be converted. -/
theorem conform_rejects_valid :
    let optional : Schema :=
      .single { shape := .ref (some (.single { shape := .int })), nilable := true }
    let anything : Schema := .choice {
      name := "Anything", alternatives := [("Open", { shape := .map none })] }
    let reference : Value := .ref (.map [])
    let entries : Value := .map [("a", .int 1)]
    (optional.HasPlainNodes ∧ optional.isValid reference = true ∧
        (optional.conform Json.exact reference).isOk = false) ∧
      (anything.HasPlainNodes ∧ anything.isValid entries = true ∧
        (anything.conform Json.exact entries).isOk = false) := by
  intro optional anything reference entries
  refine ⟨⟨?_, ?_, ?_⟩, ?_, ?_, ?_⟩
  · simp [optional, HasPlainNodes, Node.isPlain_iff, Node.parts, Node.element?,
      Node.entries?, Node.pointee?, Entries.keys]
  · simp only [optional, reference]
    cbv
  · simp only [optional, reference]
    cbv
  · simp [anything, HasPlainNodes, Node.isPlain_iff, Node.parts, Node.element?,
      Node.entries?, Node.pointee?, Entries.keys]
  · simp only [anything, entries]
    cbv
  · simp only [anything, entries]
    cbv

end Schema

end NestedData
