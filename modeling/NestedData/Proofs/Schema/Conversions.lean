import NestedData.Proofs.Outcome
import NestedData.Proofs.Text.Spellings
import NestedData.Schema.Conversion

/-!
# The rules of conversion

This module states the steps that the conversion of a value by a node is made of: what becomes of a
child that may be left out, when a text is decoded, what an absent value, a scalar and a value of the
right kind become, and what is made of the keys and the values of entries and of the elements of
lists.  They hold whatever the parts of the node convert to.

Main results:

- `Node.tolerate_eq_ok_some_iff`: a child that is kept was converted.
- `Node.convertWith_target`: a value is converted as what its references end in is.
- `Node.convertWith_of_absent`, `Node.convertWith_of_coerce`, `Node.convertWith_of_kind`: what an absent
  value, a scalar and a container are converted to.
- `Node.kind_of_convertWith`: what a node converts to is of its kind.
- `Node.convertKey_eq_ok_iff`, `Node.convertEntry_eq_ok_iff`, `Node.convertItem_eq_ok_iff`: what a key,
  an entry and an element are converted to.
-/

namespace NestedData

theorem Kind.isContainer_of_isScalar {kind : Kind} (hscalar : kind.isScalar = true) :
    kind.isContainer = false := by
  revert hscalar
  cases kind <;> decide

theorem Kind.ne_any_of_isScalar {kind : Kind} (hscalar : kind.isScalar = true) : kind ≠ .any := by
  rintro rfl
  cases hscalar

namespace Value

variable {value : Value}

theorem target_of_kind (href : value.kind ≠ .ref) : value.target = value := by
  cases value with
  | ref referent => exact absurd rfl href
  | _ => rfl

theorem isAbsent_of_kind (hnull : value.kind ≠ .null) (href : value.kind ≠ .ref) :
    value.isAbsent = false := by
  cases value with
  | null => exact absurd rfl hnull
  | nilRef => exact absurd rfl href
  | _ => rfl

theorem eq_null_of_kind (hkind : value.kind = .null) : value = .null := by
  cases value with
  | null => rfl
  | list sequence =>
    rcases sequence with ⟨extent, items⟩
    cases extent <;> cases hkind
  | _ => cases hkind

end Value

namespace Node

variable {library : Json.Library} {node : Node Schema} {convertPart : node.EachPart Convert}
  {strict : Bool} {location : Location} {source value : Value}

/-! ## Children that may be left out -/

/-- A child that is there was converted. -/
theorem tolerate_eq_ok_some_iff {α : Type} {outcome : Except SchemaError α} {child : α} :
    node.tolerate outcome = .ok (some child) ↔ outcome = .ok child := by
  cases outcome with
  | ok converted => simp [tolerate]
  | error fault => cases hnilable : node.nilable <;> simp [tolerate, hnilable]

theorem nilable_of_tolerate_eq_none {α : Type} {outcome : Except SchemaError α}
    (hnone : node.tolerate outcome = .ok none) : node.nilable = true := by
  cases outcome with
  | ok converted => simp [tolerate] at hnone
  | error fault =>
    cases hnilable : node.nilable with
    | true => rfl
    | false => simp [tolerate, hnilable] at hnone

/-! ## Texts in place of containers -/

/-- A value that is of the kind of a node and no text in place of a container is not decoded. -/
theorem decodeSource_of_kind (hkind : value.kind = node.kind) :
    node.decodeSource library location value = .ok value := by
  unfold decodeSource
  split
  · rw [← hkind]
    rfl
  · rfl

theorem decodeSource_of_no_container (hcontainer : node.kind.isContainer = false) :
    node.decodeSource library location value = .ok value := by
  unfold decodeSource
  split
  · rw [hcontainer]
    rfl
  · rfl

/-! ## Values -/

/-- A value is converted as what its references end in is. -/
theorem convertWith_target (hconverter : node.converter? = none) (strict : Bool)
    (location : Location) (value : Value) :
    node.convertWith library convertPart strict location value.target =
      node.convertWith library convertPart strict location value := by
  rw [convertWith, convertWith, hconverter]
  simp only [Value.target_target]

/-- An absent value is converted to the zero value. -/
theorem convertWith_of_absent (hconverter : node.converter? = none)
    (habsent : value.target.isAbsent = true) :
    node.convertWith library convertPart strict location value = .ok node.zero := by
  have hsource : node.decodeSource library location value.target = .ok value.target := by
    unfold decodeSource
    split
    · rename_i content htext
      rw [htext] at habsent
      cases habsent
    · rfl
  rw [convertWith, hconverter]
  simp [hsource, habsent, bind, Except.bind]

/-- A value that is there and of the kind of a node is converted by the rules for its shape. -/
theorem convertWith_of_kind (hconverter : node.converter? = none) (hkind : value.kind = node.kind)
    (htarget : value.target = value) (hthere : value.isAbsent = false) :
    node.convertWith library convertPart strict location value =
      node.convertPresent convertPart strict location value := by
  rw [convertWith, hconverter]
  simp [htarget, decodeSource_of_kind hkind, hthere, bind, Except.bind]

/-- By a node for something other than containers, a value that is there is converted by the rules for
the shape. -/
theorem convertWith_of_no_container (hconverter : node.converter? = none)
    (hcontainer : node.kind.isContainer = false) (hthere : value.target.isAbsent = false) :
    node.convertWith library convertPart strict location value =
      node.convertPresent convertPart strict location value.target := by
  rw [convertWith, hconverter]
  simp [decodeSource_of_no_container hcontainer, hthere, bind, Except.bind]

/-- A value is converted to the scalar that it is coerced to. -/
theorem convertWith_of_coerce {scalar : Value} (hconverter : node.converter? = none)
    (hscalar : node.kind.isScalar = true) (hpresent : source.target.isAbsent = false)
    (hcoerce : source.target.coerce? node.kind = some scalar) :
    node.convertWith library convertPart strict location source = .ok scalar := by
  rw [convertWith_of_no_container hconverter (Kind.isContainer_of_isScalar hscalar) hpresent,
    convertPresent]
  cases hkind : node.kind with
  | bool | int | float | string => simp only [← hkind, hcoerce]
  | _ => simp [hkind, Kind.isScalar] at hscalar

/-- A scalar is made by coercion. -/
theorem coerce?_of_convertPresent (hscalar : node.kind.isScalar = true)
    (hconvert : node.convertPresent convertPart strict location source = .ok value) :
    source.coerce? node.kind = some value := by
  cases hkind : node.kind with
  | bool | int | float | string =>
    simp only [convertPresent, hkind] at hconvert
    split at hconvert
    · rename_i scalar hcoerce
      cases hconvert
      exact hcoerce
    · simp [unconvertible] at hconvert
  | _ => simp [hkind, Kind.isScalar] at hscalar

/-! ## Kinds -/

/-- What is converted to a record is one. -/
theorem kind_of_convertRecord
    (hconvert : node.convertRecord convertPart strict location source = .ok value) :
    value.kind = .record := by
  unfold convertRecord at hconvert
  split at hconvert
  · cases hconvert
  · split at hconvert
    · cases hconvert
    · split at hconvert
      · obtain ⟨_, _, rfl⟩ := Outcome.map_eq_ok_iff.mp hconvert
        rfl
      · cases hconvert

/-- What is converted to a map is one. -/
theorem kind_of_convertMap
    (hconvert : node.convertMap convertPart strict location source = .ok value) :
    value.kind = .map := by
  unfold convertMap at hconvert
  split at hconvert
  · cases hconvert
  · obtain ⟨_, _, hvalue⟩ := Outcome.bind_eq_ok_iff.mp hconvert
    cases hvalue
    rfl

/-- What is converted to a list or to an array is one. -/
theorem kind_of_convertList (hlinear : node.kind = .list ∨ node.kind = .array)
    (hconvert : node.convertList convertPart location source = .ok value) :
    value.kind = node.kind := by
  unfold convertList at hconvert
  split at hconvert
  · simp only at hconvert
    split at hconvert
    · rename_i harray
      split at hconvert
      · cases hconvert
      · obtain ⟨_, _, hvalue⟩ := Outcome.bind_eq_ok_iff.mp hconvert
        cases hvalue
        exact harray.symm
    · rename_i hother
      obtain ⟨_, _, hvalue⟩ := Outcome.bind_eq_ok_iff.mp hconvert
      cases hvalue
      exact (hlinear.resolve_right hother).symm
  · cases hconvert

/-- Unless it may be anything, what is made of a value that is there is of the kind of the node. -/
theorem kind_of_convertPresent (hany : node.kind ≠ .any)
    (hconvert : node.convertPresent convertPart strict location source = .ok value) :
    value.kind = node.kind := by
  cases hkind : node.kind with
  | any => exact absurd hkind hany
  | null =>
    simp only [convertPresent, hkind] at hconvert
    cases hconvert
    rfl
  | bool | int | float | string =>
    rw [← hkind]
    exact Value.kind_of_coerce? (coerce?_of_convertPresent (by rw [hkind]; rfl) hconvert)
  | record =>
    simp only [convertPresent, hkind] at hconvert
    exact kind_of_convertRecord hconvert
  | map =>
    simp only [convertPresent, hkind] at hconvert
    exact kind_of_convertMap hconvert
  | list | array =>
    simp only [convertPresent, hkind] at hconvert
    rw [← hkind]
    exact kind_of_convertList (by simp [hkind]) hconvert
  | ref =>
    simp only [convertPresent, hkind] at hconvert
    split at hconvert
    · obtain ⟨_, _, rfl⟩ := Outcome.map_eq_ok_iff.mp hconvert
      rfl
    · cases hconvert
      rfl

/-- Unless it may be anything, what a node converts to is of its kind. -/
theorem kind_of_convertWith (hconverter : node.converter? = none) (hdefault : node.default? = none)
    (hany : node.kind ≠ .any)
    (hconvert : node.convertWith library convertPart strict location source = .ok value) :
    value.kind = node.kind := by
  rw [convertWith, hconverter] at hconvert
  obtain ⟨decoded, _, hconvert⟩ := Outcome.bind_eq_ok_iff.mp hconvert
  split at hconvert
  · cases hconvert
    exact Schema.kind_zero hdefault hany
  · exact kind_of_convertPresent hany hconvert

/-! ## Entries -/

/-- A key is converted to the text of what it is converted to. -/
theorem convertKey_eq_ok_iff {convert : Convert} {key text : String} :
    convertKey convert location key = .ok text ↔
      ∃ converted, convert false location (.text key) = .ok converted ∧
        converted.keyText = text := by
  rw [convertKey, Outcome.bind_eq_ok_iff]
  refine exists_congr fun converted => and_congr_right fun _ => ?_
  split <;> simp [Value.keyText]

/-- The value of an entry is converted by its schema, whatever fault is reported. -/
theorem convertEntryValue_eq_ok_iff {schema : Schema} {convert : Convert} :
    convertEntryValue schema convert location source = .ok value ↔
      convert false location source = .ok value := by
  unfold convertEntryValue
  split
  · rename_i hfault
    simp [hfault]
  · rfl

/-- An entry with a schema of its own keeps its key; any other is converted by the schemas for all
entries, or left alone if there are none and it need not have one. -/
theorem convertEntry_eq_ok_iff {key text : String} :
    node.convertEntry convertPart strict location key source = .ok (text, value) ↔
      (∃ part, ∃ hfound : node.child? key = some part, text = key ∧
        convertPart part (mem_parts_of_child? hfound) false location source = .ok value) ∨
      (node.child? key = none ∧ ∃ schemas, ∃ hentries : node.entries? = some schemas,
        convertKey (convertPart schemas.1 (mem_parts_of_key hentries)) location key = .ok text ∧
        convertPart schemas.2 (mem_parts_of_value hentries) false location source = .ok value) ∨
      (node.child? key = none ∧ node.entries? = none ∧ strict = false ∧ text = key ∧
        value = source) := by
  unfold convertEntry
  split
  · rename_i part hfound
    rw [Outcome.bind_eq_ok_iff]
    constructor
    · rintro ⟨converted, hconverted, hpair⟩
      cases hpair
      exact .inl ⟨part, hfound, rfl, hconverted⟩
    · rintro (⟨other, hother, rfl, hconverted⟩ | ⟨hmissing, _⟩ | ⟨hmissing, _⟩)
      · obtain rfl := Option.some.inj (hfound.symm.trans hother)
        exact ⟨value, hconverted, rfl⟩
      all_goals
        rw [hfound] at hmissing
        cases hmissing
  · rename_i hmissing
    split
    · rename_i schemas hentries
      simp only [Outcome.bind_eq_ok_iff, convertEntryValue_eq_ok_iff]
      constructor
      · rintro ⟨name, hname, converted, hconverted, hpair⟩
        cases hpair
        exact .inr (.inl ⟨hmissing, schemas, hentries, hname, hconverted⟩)
      · rintro (⟨part, hfound, _⟩ | ⟨_, others, hothers, hname, hconverted⟩ | ⟨_, hnone, _⟩)
        · rw [hmissing] at hfound
          cases hfound
        · obtain rfl := Option.some.inj (hentries.symm.trans hothers)
          exact ⟨text, hname, value, hconverted, rfl⟩
        · rw [hentries] at hnone
          cases hnone
    · rename_i hnone
      cases strict <;> simp [hmissing, hnone, unconvertible, eq_comm]

/-! ## Elements -/

/-- An element is converted by the schema for its position, or left alone if there is none. -/
theorem convertItem_eq_ok_iff {position : Nat} {item : Value} :
    node.convertItem convertPart location position item = .ok value ↔
      (∀ part, ∀ hfound : node.elementAt? position = some part,
        convertPart part (mem_parts_of_elementAt? hfound) false (location.child (.index position))
          item = .ok value) ∧
      (node.elementAt? position = none → value = item) := by
  unfold convertItem
  split
  · rename_i part hfound
    constructor
    · refine fun hconverted => ⟨fun other hother => ?_, fun hmissing => ?_⟩
      · obtain rfl := Option.some.inj (hfound.symm.trans hother)
        exact hconverted
      · rw [hfound] at hmissing
        cases hmissing
    · exact fun hparts => hparts.1 part hfound
  · rename_i hmissing
    simp [hmissing, eq_comm]

end Node

end NestedData
