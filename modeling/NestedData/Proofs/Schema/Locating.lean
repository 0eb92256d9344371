import NestedData.Json.Reader
import NestedData.Proofs.Access.Resolving
import NestedData.Proofs.Schema.Acceptance
import NestedData.Proofs.Schema.Decoding

/-!
# Where faults of schemas lie

A fault of a conversion or a check names the place where it arose.  The place is put together on the
way down, from fields, keys and positions, and this module proves that it is a place of the value that
was given: its path is read from its own text, leads to one place only and gets what is there.  For a
conversion that holds as long as no text has been decoded, since what is in a document is at no place
of the value.

Whatever is converted or checked at a place stands there in the value that was given, or else has no
children: what a key stands for is looked at where the entry is.

Main results:

- `Value.Covers.child`: what is below a place is where its steps say.
- `Schema.locates_validate`: a check names places of the value that was given.
- `Schema.locates_convert`: so does a conversion that decodes nothing.
- `Schema.faults_lead_inside`: the paths of faults can be read and lead to something.
-/

namespace NestedData

open Outcome (FailsOnlyWith)

/-- The fault is at a place where the root has something. -/
def SchemaError.Inside (root : Value) (error : SchemaError) : Prop :=
  ∃ location found, error.path = location.toPath ∧ root.valueAt? location = some found

namespace Value

variable {root value : Value} {location : Location}

/-- The value is what the root has at the place, or it has no children and the root has something
there. -/
inductive Covers (root : Value) (location : Location) : Value → Prop
  /-- The value is there. -/
  | here {value : Value} (hvalue : root.valueAt? location = some value) : Covers root location value
  /-- Something else is there, and nothing is below the value. -/
  | beside {value found : Value} (hfound : root.valueAt? location = some found)
      (hleaf : value.children = []) : Covers root location value

theorem Covers.exists_found (hvalue : Covers root location value) :
    ∃ found, root.valueAt? location = some found := by
  cases hvalue with
  | here hvalue => exact ⟨value, hvalue⟩
  | beside hfound _ => exact ⟨_, hfound⟩

theorem Covers.inside (hvalue : Covers root location value) {error : SchemaError}
    (hpath : error.path = location.toPath) : error.Inside root := by
  obtain ⟨found, hfound⟩ := hvalue.exists_found
  exact ⟨location, found, hpath, hfound⟩

theorem Covers.leaf {other : Value} (hvalue : Covers root location value)
    (hleaf : other.children = []) : Covers root location other := by
  obtain ⟨found, hfound⟩ := hvalue.exists_found
  exact .beside hfound hleaf

/-- A child is covered at its own place. -/
theorem Covers.child (hroot : root.WellFormed) (hvalue : Covers root location value)
    {child : Step × Value} (hmem : child ∈ value.children) :
    Covers root (location.child child.1) child.2.target := by
  cases hvalue with
  | here hvalue =>
    have hchild : value.child? child.1 = some child.2 :=
      (mem_children_iff (hroot.valueAt hvalue).hasDistinctSteps).mp hmem
    refine .here ?_
    rw [Location.child, valueAt?_append, hvalue, Option.bind_some, valueAt?,
      target_of_valueAt? hvalue, hchild]
    rfl
  | beside _ hleaf =>
    rw [hleaf] at hmem
    cases hmem

/-- What is given under names are the children. -/
theorem mem_children_of_namedChildren? {given : Entries Value}
    (hgiven : value.namedChildren? = some given) {entry : String × Value} (hmem : entry ∈ given) :
    (.key entry.1, entry.2) ∈ value.children := by
  cases value with
  | map entries =>
    cases hgiven
    exact List.mem_map.mpr ⟨entry, hmem, rfl⟩
  | record aggregate =>
    cases hgiven
    obtain ⟨field, hfield, rfl⟩ := List.mem_map.mp hmem
    exact List.mem_map.mpr ⟨field, hfield, rfl⟩
  | _ => cases hgiven

/-- A check names places of the root, wherever it is made inside the root. -/
def LocatesCheck (root : Value) (check : Check) : Prop :=
  ∀ location value, Covers root location value.target →
    FailsOnlyWith (SchemaError.Inside root) (check location value)

/-- A conversion that decodes nothing names places of the root, wherever it is made inside the root. -/
def LocatesConvert (root : Value) (convert : Convert) (decoded : DecodedTexts) : Prop :=
  ∀ strict location value, Covers root location value.target → decoded strict location value = [] →
    FailsOnlyWith (SchemaError.Inside root) (convert strict location value)

end Value

theorem Schema.children_readKey (schema : Schema) (key : String) :
    (schema.readKey key).target.children = [] := by
  obtain ⟨kind, hread⟩ := schema.exists_readKey_eq key
  rw [hread]
  rcases kind.readKey_cases key with hvalue | ⟨_, _, hvalue⟩ | ⟨_, _, hvalue⟩ | ⟨_, _, hvalue⟩ <;>
    rw [hvalue] <;> rfl

namespace Node

open Value (Covers LocatesCheck LocatesConvert)

variable {library : Json.Library} {root value source : Value} {node : Node Schema}
  {location : Location}

/-! ## Checks -/

/-- A fault that a node puts up with is none. -/
theorem failsOnlyWith_pardon {motive : SchemaError → Prop} {outcome : Except SchemaError Unit}
    (houtcome : FailsOnlyWith motive outcome) : FailsOnlyWith motive (node.pardon outcome) := by
  cases outcome with
  | ok done => trivial
  | error fault =>
    rw [pardon]
    split
    · trivial
    · exact houtcome

theorem violation_inside (hvalue : Covers root location value) (found : Value) (why : Violation) :
    FailsOnlyWith (SchemaError.Inside root) (node.violation location found why) :=
  hvalue.inside rfl

section Check

variable {checkPart : node.EachPart Check}

/-- The children of a record are checked inside the root. -/
theorem checkRecord_inside (hroot : root.WellFormed)
    (hparts : ∀ part mem, LocatesCheck root (checkPart part mem)) {aggregate : Record Value}
    (hvalue : Covers root location (.record aggregate)) :
    FailsOnlyWith (SchemaError.Inside root) (node.checkRecord checkPart location aggregate) := by
  have hviolation (why : Violation) := node.violation_inside hvalue (.record aggregate) why
  unfold checkRecord
  -- The fields are checked whether or not the name of the record is.
  extract_lets whole checkFields
  have hfields (done : Unit) : FailsOnlyWith (SchemaError.Inside root) (checkFields done) := by
    refine FailsOnlyWith.bind (.forM fun field hfield => ?_) fun _ _ => ?_
    · split
      · exact failsOnlyWith_pardon (hparts _ _ _ _
          (hvalue.child hroot (List.mem_map.mpr ⟨field, hfield, rfl⟩)))
      · exact hviolation _
    · split
      · exact hviolation _
      · trivial
  split
  · split
    · exact (hviolation _).bind fun done _ => hfields done
    · exact hfields ()
  · exact hfields ()

/-- An entry of a map is checked inside the root. -/
theorem checkEntry_inside (hroot : root.WellFormed)
    (hparts : ∀ part mem, LocatesCheck root (checkPart part mem)) {entries : Entries Value}
    (hvalue : Covers root location (.map entries)) {entry : String × Value}
    (hentry : entry ∈ entries) :
    FailsOnlyWith (SchemaError.Inside root) (node.checkEntry checkPart location entries entry) := by
  have hmem : (Step.key entry.1, entry.2) ∈ Value.children (.map entries) :=
    List.mem_map.mpr ⟨entry, hentry, rfl⟩
  have hhere := hvalue.child hroot hmem
  unfold checkEntry
  split
  · exact failsOnlyWith_pardon (hparts _ _ _ _ hhere)
  · split
    · rename_i schemas _
      have hkey := hhere.leaf (schemas.1.children_readKey entry.1)
      exact (failsOnlyWith_pardon (hparts _ _ _ _ hkey)).bind fun _ _ =>
        failsOnlyWith_pardon (hparts _ _ _ _ hhere)
    · split
      · trivial
      · exact violation_inside hvalue _ _

/-- The elements of a list are checked inside the root. -/
theorem checkList_inside (hroot : root.WellFormed)
    (hparts : ∀ part mem, LocatesCheck root (checkPart part mem)) {sequence : Sequence Value}
    (hvalue : Covers root location (.list sequence)) :
    FailsOnlyWith (SchemaError.Inside root) (node.checkList checkPart location sequence) := by
  have hviolation (why : Violation) := node.violation_inside hvalue (.list sequence) why
  unfold checkList
  extract_lets checkItems
  have hitems (done : Unit) : FailsOnlyWith (SchemaError.Inside root) (checkItems done) := by
    refine .forM fun ⟨item, position⟩ hslot => ?_
    dsimp only
    split
    · exact failsOnlyWith_pardon (hparts _ _ _ _
        (hvalue.child hroot (List.mem_map.mpr ⟨(item, position), hslot, rfl⟩)))
    · trivial
  split
  · split
    · exact (hviolation _).bind fun done _ => hitems done
    · exact hitems ()
  · exact hitems ()

/-- A value is checked against a node inside the root. -/
theorem validateWith_inside (hroot : root.WellFormed)
    (hparts : ∀ part mem, LocatesCheck root (checkPart part mem)) :
    LocatesCheck root (node.validateWith checkPart) := by
  intro location value hvalue
  have hchildren : FailsOnlyWith (SchemaError.Inside root)
      (node.checkChildren checkPart location value) := by
    cases value with
    | record aggregate => exact checkRecord_inside hroot hparts hvalue
    | map entries => exact .forM fun entry hentry => checkEntry_inside hroot hparts hvalue hentry
    | list sequence => exact checkList_inside hroot hparts hvalue
    | ref referent =>
      rw [checkChildren]
      split
      · exact failsOnlyWith_pardon (hparts _ _ _ _ hvalue)
      · trivial
    | _ => trivial
  unfold validateWith
  split
  · split
    · trivial
    · exact hvalue.inside rfl
  · split
    · trivial
    · split
      · exact hchildren
      · exact violation_inside hvalue _ _

end Check

/-! ## Conversions -/

/-- The fault of a child that a node puts up with is none. -/
theorem failsOnlyWith_tolerate {α : Type} {motive : SchemaError → Prop}
    {outcome : Except SchemaError α} (houtcome : FailsOnlyWith motive outcome) :
    FailsOnlyWith motive (node.tolerate outcome) := by
  cases outcome with
  | ok child => trivial
  | error fault =>
    rw [tolerate]
    split
    · trivial
    · exact houtcome

theorem isEndedBy_of_ok {α : Type} {outcome : Except SchemaError α} {converted : Option α}
    (houtcome : node.tolerate outcome = .ok converted) : node.isEndedBy outcome = false := by
  rw [isEndedBy, houtcome]
  rfl

theorem unconvertible_inside {α : Type} (hvalue : Covers root location value) (found : Value)
    (why : Unconvertible) :
    FailsOnlyWith (α := α) (SchemaError.Inside root) (node.unconvertible location found why) :=
  hvalue.inside rfl

section Conversion

variable {convertPart : node.EachPart Convert} {decodedPart : node.EachPart DecodedTexts}
  {given : Entries Value}

/-- Fields are filled inside the root. -/
theorem fillRecord_inside
    (hparts : ∀ part mem, LocatesConvert root (convertPart part mem) (decodedPart part mem))
    (hgiven : ∀ entry ∈ given, Covers root (location.child (.key entry.1)) entry.2.target)
    (hquiet : node.decodedFields convertPart decodedPart location given = [])
    (aggregate : Record Value) :
    FailsOnlyWith (SchemaError.Inside root)
      (node.fillRecord convertPart location given aggregate) := by
  rw [decodedFields] at hquiet
  refine FailsOnlyWith.foldlM (fun done child _ next hnext => ?_) (fun done child _ hchild => ?_)
    hquiet
  · simp only at hnext
    cases hvalue : Entries.get? given child.1.1 with
    | none => rfl
    | some value =>
      rw [hvalue] at hnext
      obtain ⟨converted, hconverted, _⟩ := Outcome.bind_eq_ok_iff.mp hnext
      exact isEndedBy_of_ok hconverted
  · simp only
    cases hvalue : Entries.get? given child.1.1 with
    | none => trivial
    | some value =>
      rw [hvalue] at hchild
      refine (failsOnlyWith_tolerate (hparts _ _ _ _ _
        (hgiven (child.1.1, value) (Entries.mem_of_get? hvalue)) hchild)).bind fun converted _ => ?_
      cases converted with
      | none => trivial
      | some filled =>
        simp only
        split <;> trivial

/-- A value is converted to a record inside the root. -/
theorem convertRecord_inside (hroot : root.WellFormed)
    (hparts : ∀ part mem, LocatesConvert root (convertPart part mem) (decodedPart part mem))
    {strict : Bool} (hsource : Covers root location source)
    (hquiet : node.decodedRecord convertPart decodedPart strict location source = []) :
    FailsOnlyWith (SchemaError.Inside root)
      (node.convertRecord convertPart strict location source) := by
  unfold convertRecord
  unfold decodedRecord at hquiet
  cases hgiven : source.namedChildren? with
  | none => exact unconvertible_inside hsource _ _
  | some given =>
    rw [hgiven] at hquiet
    simp only at hquiet ⊢
    split
    · exact unconvertible_inside hsource _ _
    · rename_i hknown
      rw [hknown] at hquiet
      simp only at hquiet
      split
      · rename_i aggregate hzero
        rw [hzero] at hquiet
        refine (fillRecord_inside hparts (fun entry hentry => ?_) hquiet aggregate).map _
        exact hsource.child hroot (Value.mem_children_of_namedChildren? hgiven hentry)
      · exact unconvertible_inside hsource _ _

theorem convertKey_inside {convert : Convert} {decoded : DecodedTexts} {key : String}
    (hconvert : LocatesConvert root convert decoded) (hvalue : Covers root location value)
    (hquiet : decoded false location (.text key) = []) :
    FailsOnlyWith (SchemaError.Inside root) (convertKey convert location key) := by
  refine (hconvert _ _ _ (hvalue.leaf rfl) hquiet).bind fun converted _ => ?_
  cases converted <;> trivial

/-- The value of an entry is converted inside the root, whatever fault is reported. -/
theorem convertEntryValue_inside {schema : Schema} {convert : Convert} {decoded : DecodedTexts}
    (hconvert : LocatesConvert root convert decoded) (hvalue : Covers root location value.target)
    (hquiet : decoded false location value = []) :
    FailsOnlyWith (SchemaError.Inside root) (convertEntryValue schema convert location value) := by
  have houtcome := hconvert _ _ _ hvalue hquiet
  unfold convertEntryValue
  split
  · exact hvalue.inside rfl
  · exact houtcome

/-- An entry is converted inside the root. -/
theorem convertEntry_inside
    (hparts : ∀ part mem, LocatesConvert root (convertPart part mem) (decodedPart part mem))
    {strict : Bool} {key : String} (hvalue : Covers root location value.target)
    (hquiet : node.decodedEntry convertPart decodedPart location key value = []) :
    FailsOnlyWith (SchemaError.Inside root)
      (node.convertEntry convertPart strict location key value) := by
  unfold convertEntry
  split
  · rename_i part hpart
    rw [decodedEntry_of_part hpart] at hquiet
    exact (hparts _ _ _ _ _ hvalue hquiet).bind fun _ _ => trivial
  · rename_i hmissing
    split
    · rename_i schemas hentries
      rw [decodedEntry_of_entries hmissing hentries] at hquiet
      obtain ⟨hkey, hrest⟩ := List.append_eq_nil_iff.mp hquiet
      refine (convertKey_inside (hparts _ _) hvalue hkey).bind fun text htext => ?_
      obtain ⟨converted, hconverted, _⟩ := convertKey_eq_ok_iff.mp htext
      rw [hconverted] at hrest
      exact (convertEntryValue_inside (hparts _ _) hvalue hrest).bind fun _ _ => trivial
    · split
      · exact unconvertible_inside hvalue _ _
      · trivial

/-- A value is converted to a map inside the root. -/
theorem convertMap_inside (hroot : root.WellFormed)
    (hparts : ∀ part mem, LocatesConvert root (convertPart part mem) (decodedPart part mem))
    {strict : Bool} (hsource : Covers root location source)
    (hquiet : node.decodedMap convertPart decodedPart strict location source = []) :
    FailsOnlyWith (SchemaError.Inside root)
      (node.convertMap convertPart strict location source) := by
  unfold convertMap
  unfold decodedMap at hquiet
  cases hgiven : source.namedChildren? with
  | none => exact unconvertible_inside hsource _ _
  | some given =>
    rw [hgiven] at hquiet
    refine FailsOnlyWith.bind (FailsOnlyWith.foldlM (fun done entry _ next hnext => ?_)
      (fun done entry hentry hquiet => ?_) hquiet) fun _ _ => trivial
    · obtain ⟨converted, hconverted, _⟩ := Outcome.bind_eq_ok_iff.mp hnext
      exact isEndedBy_of_ok hconverted
    · have hhere : Covers root (location.child (.key entry.1)) entry.2.target :=
        hsource.child hroot (Value.mem_children_of_namedChildren? hgiven hentry)
      refine (failsOnlyWith_tolerate (convertEntry_inside hparts hhere hquiet)).bind
        fun converted _ => ?_
      cases converted <;> trivial

/-- An element is converted inside the root. -/
theorem convertItem_inside
    (hparts : ∀ part mem, LocatesConvert root (convertPart part mem) (decodedPart part mem))
    {position : Nat} {item : Value}
    (hitem : Covers root (location.child (.index position)) item.target)
    (hquiet : node.decodedItem decodedPart location position item = []) :
    FailsOnlyWith (SchemaError.Inside root)
      (node.convertItem convertPart location position item) := by
  unfold convertItem
  split
  · rename_i part hpart
    rw [decodedItem_of_part hpart] at hquiet
    exact hparts _ _ _ _ _ hitem hquiet
  · trivial

/-- The elements of a list are converted inside the root. -/
theorem convertItems_inside (hroot : root.WellFormed)
    (hparts : ∀ part mem, LocatesConvert root (convertPart part mem) (decodedPart part mem))
    {sequence : Sequence Value} (hsource : Covers root location (.list sequence))
    (hquiet : Outcome.inTurn
      (fun slot => node.isEndedBy (node.convertItem convertPart location slot.2 slot.1))
      (fun slot => node.decodedItem decodedPart location slot.2 slot.1)
      sequence.items.toList.zipIdx = []) :
    FailsOnlyWith (SchemaError.Inside root)
      (node.convertItems convertPart location sequence.items) := by
  refine FailsOnlyWith.foldlM (fun done slot _ next hnext => ?_)
    (fun done slot hslot hquiet => ?_) hquiet
  · obtain ⟨converted, hconverted, _⟩ := Outcome.bind_eq_ok_iff.mp hnext
    exact isEndedBy_of_ok hconverted
  · have hmem : (Step.index slot.2, slot.1) ∈ Value.children (.list sequence) :=
      List.mem_map.mpr ⟨slot, hslot, rfl⟩
    have hhere := hsource.child hroot hmem
    refine (failsOnlyWith_tolerate (convertItem_inside hparts hhere hquiet)).bind
      fun converted _ => ?_
    cases converted <;> trivial

/-- A value is converted to a list inside the root. -/
theorem convertList_inside (hroot : root.WellFormed)
    (hparts : ∀ part mem, LocatesConvert root (convertPart part mem) (decodedPart part mem))
    (hsource : Covers root location source)
    (hquiet : node.decodedList convertPart decodedPart location source = []) :
    FailsOnlyWith (SchemaError.Inside root) (node.convertList convertPart location source) := by
  cases source with
  | list sequence =>
    have hitems := convertItems_inside hroot hparts hsource
    simp only [decodedList] at hquiet
    simp only [convertList]
    by_cases harray : node.kind = .array
    · by_cases hlong : node.length?.getD sequence.items.size < sequence.items.size
      · simp only [harray, hlong, if_true]
        exact (unconvertible_inside hsource _ _).bind fun _ hrefused => by cases hrefused
      · simp only [harray, hlong, if_true, if_false]
        rw [if_neg (fun h => hlong h.2)] at hquiet
        exact (hitems hquiet).bind fun _ _ => trivial
    · rw [if_neg (fun h => harray h.1)] at hquiet
      simp only [harray, if_false]
      exact (hitems hquiet).bind fun _ _ => trivial
  | _ => exact unconvertible_inside hsource _ _

/-- A value that is there is converted inside the root. -/
theorem convertPresent_inside (hroot : root.WellFormed)
    (hparts : ∀ part mem, LocatesConvert root (convertPart part mem) (decodedPart part mem))
    {strict : Bool} (hsource : Covers root location source) (htarget : source.target = source)
    (hquiet : node.decodedPresent convertPart decodedPart strict location source = []) :
    FailsOnlyWith (SchemaError.Inside root)
      (node.convertPresent convertPart strict location source) := by
  unfold convertPresent
  cases hkind : node.kind with
  | any | null => trivial
  | bool | int | float | string =>
    simp only
    split
    · trivial
    · exact unconvertible_inside hsource _ _
  | record =>
    rw [decodedPresent, hkind] at hquiet
    exact convertRecord_inside hroot hparts hsource hquiet
  | map =>
    rw [decodedPresent, hkind] at hquiet
    exact convertMap_inside hroot hparts hsource hquiet
  | list | array =>
    rw [decodedPresent, hkind] at hquiet
    exact convertList_inside hroot hparts hsource hquiet
  | ref =>
    simp only
    split
    · rename_i part hpart
      rw [decodedPresent_of_pointee hkind hpart] at hquiet
      exact (hparts _ _ _ _ _ (htarget.symm ▸ hsource) hquiet).map _
    · trivial

/-- A text that cannot be decoded is named by its place. -/
theorem decodeSource_inside (hsource : Covers root location source) :
    FailsOnlyWith (SchemaError.Inside root) (node.decodeSource library location source) := by
  unfold decodeSource
  split
  · split
    · split
      · exact hsource.inside rfl
      · split
        · exact unconvertible_inside hsource _ _
        · trivial
    · trivial
  · trivial

/-- A value is converted by a node inside the root. -/
theorem convertWith_inside (hroot : root.WellFormed)
    (hparts : ∀ part mem, LocatesConvert root (convertPart part mem) (decodedPart part mem)) :
    LocatesConvert root (node.convertWith library convertPart)
      (node.decodedWith library convertPart decodedPart) := by
  intro strict location value hvalue hquiet
  unfold decodedWith at hquiet
  unfold convertWith
  split
  · split
    · trivial
    · exact hvalue.inside rfl
  · rename_i hconverter
    rw [hconverter] at hquiet
    refine (decodeSource_inside hvalue).bind fun source hsource => ?_
    rw [hsource] at hquiet
    obtain ⟨hhere, hrest⟩ := List.append_eq_nil_iff.mp hquiet
    obtain rfl := eq_of_decodeSource hsource hhere
    split
    · trivial
    · rename_i hthere
      rw [if_neg hthere] at hrest
      exact convertPresent_inside hroot hparts hvalue (Value.target_target value) hrest

end Conversion

end Node

namespace Schema

open Value (LocatesCheck LocatesConvert)

variable {library : Json.Library} {root : Value}

/-- A check against a schema names places of the root. -/
theorem locates_validate (hroot : root.WellFormed) (schema : Schema) :
    LocatesCheck root schema.validate := by
  induction schema using Schema.induct with
  | single node ih =>
    rw [validate_single]
    exact Node.validateWith_inside hroot ih
  | choice union _ =>
    intro location value hvalue
    rw [validate_choice, NodeUnion.validate]
    split
    · trivial
    · exact hvalue.inside rfl

/-- A conversion to a schema that decodes nothing names places of the root. -/
theorem locates_convert (hroot : root.WellFormed) (schema : Schema) :
    LocatesConvert root (schema.convert library) (schema.decodedTexts library) := by
  induction schema using Schema.induct with
  | single node ih =>
    rw [convert_single, decodedTexts_single]
    exact Node.convertWith_inside hroot ih
  | choice union _ =>
    intro strict location value hvalue _
    rw [convert_choice, NodeUnion.convert]
    split
    · trivial
    · exact hvalue.inside rfl

end Schema

/-! ## Paths of faults -/

/-- The path of the fault is read from its own text, selects one place and gets what the root has
there. -/
def SchemaError.LeadsInside (root : Value) (error : SchemaError) : Prop :=
  ∃ path, Path.parse error.path.render = .ok path ∧ path.isMultiValued = false ∧
    ∃ found, root.getAt path = .ok found

theorem SchemaError.Inside.leadsInside {root : Value} (hroot : root.Addressable)
    {error : SchemaError} (herror : error.Inside root) : error.LeadsInside root := by
  obtain ⟨location, found, hpath, hfound⟩ := herror
  rw [LeadsInside, hpath]
  exact ⟨location.toPath, Path.parse_render (hroot.isCanonical_toPath hfound),
    Value.isMultiValued_toPath location, found, Value.getAt_toPath hfound⟩

namespace Schema

variable {library : Json.Library} {root : Value}

/-- Whatever the schema, the path of a fault that a check finds, or that a conversion meets which has
decoded no text and no key on its way, is read from its own text, selects one place and gets what the
root has there. -/
theorem faults_lead_inside (hroot : root.WellFormed) (haddressable : root.Addressable)
    (schema : Schema) :
    (∀ error, schema.validate [] root = .error error → error.LeadsInside root) ∧
    ∀ error, schema.conform library root = .error error →
      schema.decodedTexts library false [] root = [] →
      error.LeadsInside root := by
  have hstart : Value.Covers root [] root.target := .here rfl
  constructor
  · intro error hfault
    exact ((schema.locates_validate hroot [] root hstart).of_eq hfault).leadsInside haddressable
  · intro error hfault hquiet
    exact ((schema.locates_convert hroot false [] root hstart hquiet).of_eq hfault).leadsInside
      haddressable

/-- In a list behind a reference, under a key that has to be quoted, there is a map where a number or a
text is asked for. -/
theorem faults_lead_inside_quoted :
    let scalar : NodeUnion Schema := {
      name := "Scalar"
      alternatives := [("Number", { shape := .int }), ("Text", { shape := .string })] }
    let schema : Schema := .single {
      shape := .map (some (.single { shape := .string },
        .single { shape := .ref (some (.single { shape := .list (some (.choice scalar)) })) })) }
    let root : Value := .map [("it's", .ref (.ofItems #[.int 1, .map []]))]
    let misfit : SchemaError := {
      path := Location.toPath [.key "it's", .index 1]
      schema := .choice scalar
      fault := .invalid (.map []) .noAlternative }
    let refused : SchemaError := {
      misfit with fault := .unconvertible (.map []) .noAlternative }
    root.WellFormed ∧ root.Addressable ∧ schema.decodedTexts Json.exact false [] root = [] ∧
      schema.validate [] root = .error misfit ∧ schema.conform Json.exact root = .error refused ∧
      misfit.LeadsInside root ∧ refused.LeadsInside root := by
  intro scalar schema root misfit refused
  have hroot : root.WellFormed := by
    simp [root, Value.ofItems, Sequence.growable, Entries.keys]
  have hplaces : root.places [] =
      [([], root), ([.key "it's"], .ofItems #[.int 1, .map []]),
        ([.key "it's", .index 0], .int 1), ([.key "it's", .index 1], .map [])] := by
    cbv
  have haddressable : root.Addressable := by
    refine Value.addressable_of_places hroot fun place hplace sequence hsequence => ?_
    rw [hplaces] at hplace
    simp only [List.mem_cons, List.not_mem_nil, or_false] at hplace
    rcases hplace with rfl | rfl | rfl | rfl <;> cases hsequence
    decide
  have hquiet : schema.decodedTexts Json.exact false [] root = [] := by
    simp only [schema, scalar, root]
    cbv
  have hmisfit : schema.validate [] root = .error misfit := by
    simp only [schema, scalar, root, misfit]
    cbv
  have hrefused : schema.conform Json.exact root = .error refused := by
    simp only [schema, scalar, root, refused, misfit]
    cbv
  obtain ⟨hvalidate, hconvert⟩ := faults_lead_inside hroot haddressable schema
  exact ⟨hroot, haddressable, hquiet, hmisfit, hrefused, hvalidate misfit hmisfit,
    hconvert refused hrefused hquiet⟩

end Schema

end NestedData
