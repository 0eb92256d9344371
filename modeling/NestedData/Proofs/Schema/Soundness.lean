import Mathlib.Data.List.Permutation
import NestedData.Json.Reader
import NestedData.Proofs.Schema.Conversions
import NestedData.Proofs.Schema.ZeroValues

/-!
# Converted values are valid

This module proves that what conversion makes of a value is what validation accepts.
Conversion and validation walk over a schema by rules of their own; for every kind of
node the rules of the one are shown to meet those of the other, given that they do for
the parts of the node.

A record starts as its zero value and keeps declaring the children of the node; a list
keeps every element at its position unless the node puts up with any element; and the
text that a converted key is kept as reads back as a key of the right kind.

Main results:

- `Node.admits_convertWith`: what a node converts to, the node admits.
- `Schema.isValid_of_conform`: what a schema converts to is valid.
-/

namespace NestedData

namespace Node

variable {library : Json.Library} {node : Node Schema} {accepts : Schema → Value → Prop}
  {convertPart : node.EachPart Convert}

/-! ## Scalars -/

/-- A scalar of the kind of a node is what the node asks for. -/
theorem admits_of_scalar {value : Value} (hplain : node.IsPlain)
    (hscalar : node.kind.isScalar = true) (hkind : value.kind = node.kind) :
    node.Admits accepts value := by
  apply admits_of_kind hplain.validator hkind
  rw [← hkind] at hscalar
  cases value with
  | list sequence =>
    rcases sequence with ⟨extent, items⟩
    cases extent <;> simp [Value.kind, Kind.isScalar] at hscalar
  | bool | int | float | text => trivial
  | _ => simp [Value.kind, Kind.isScalar] at hscalar

/-! ## What is known of the parts -/

/-- Whatever the parts of a node make of a value, they accept: of a value that they
convert, of an absent one, and of a key. -/
structure PartsFit (node : Node Schema) (accepts : Schema → Value → Prop)
    (convertPart : node.EachPart Convert) : Prop where
  /-- A part accepts what it converts to. -/
  convert : ∀ part mem strict location source value,
    convertPart part mem strict location source = .ok value → accepts part value
  /-- A part accepts its zero value. -/
  zero : ∀ part ∈ node.parts, accepts part part.zero
  /-- The schema of the keys accepts what the text of a converted key reads as. -/
  key : ∀ schemas, ∀ hentries : node.entries? = some schemas, ∀ location key text,
    convertKey (convertPart schemas.1 (mem_parts_of_key hentries)) location key = .ok text →
      accepts schemas.1 (schemas.1.readKey text)

/-! ## Records -/

/-- Filling fields keeps a record that declares the children. -/
theorem Declares.fillRecord {location : Location} {given : Entries Value}
    {aggregate filled : Record Value} (hparts : node.PartsFit accepts convertPart)
    (hdeclares : node.Declares accepts aggregate)
    (hfill : node.fillRecord convertPart location given aggregate = .ok filled) :
    node.Declares accepts filled := by
  unfold Node.fillRecord at hfill
  refine Outcome.foldlM_preserves hdeclares ?_ hfill
  intro done hdone child _ next hround
  simp only at hround
  split at hround
  · cases hround
    exact hdone
  · rw [Outcome.bind_eq_ok_iff] at hround
    rcases hround with ⟨converted, hconverted, hround⟩
    split at hround
    · cases hround
      exact hdone
    · rename_i value
      have hfits := hparts.convert _ _ _ _ _ _ (tolerate_eq_ok_some_iff.mp hconverted)
      split at hround
      · cases hround
        exact hdone.setValue child.2 hfits
      · cases hround
        exact hdone.put child.2 hfits

/-- A converted record is what the node asks for. -/
theorem admits_convertRecord {strict : Bool} {location : Location} {source value : Value}
    (hplain : node.IsPlain) (hparts : node.PartsFit accepts convertPart)
    (hkind : node.kind = .record)
    (hconvert : node.convertRecord convertPart strict location source = .ok value) :
    node.Admits accepts value := by
  obtain ⟨aggregate, haggregate, hdeclares⟩ :=
    declares_zero hplain (shape_eq_record hkind) hparts.zero
  unfold convertRecord at hconvert
  split at hconvert
  · simp [unconvertible] at hconvert
  · split at hconvert
    · simp [unconvertible] at hconvert
    · rw [haggregate, Outcome.map_eq_ok_iff] at hconvert
      rcases hconvert with ⟨filled, hfill, rfl⟩
      have hfilled := hdeclares.fillRecord hparts hfill
      exact admits_of_kind hplain.validator hkind.symm (hfilled.admitsRecord hplain.names)

/-! ## Maps -/

/-- An entry finds a place in the maps of a node. -/
structure Places (node : Node Schema) (accepts : Schema → Value → Prop)
    (convertPart : node.EachPart Convert) (key : String) (value : Value) : Prop where
  /-- Unless there are schemas for all entries, the key is declared, or none is. -/
  declared : node.entries? = none → (node.child? key).isSome = true ∨ node.children = []
  /-- If the key is not declared but becomes a declared one, what the value becomes fits there. -/
  renamed : ∀ schemas, ∀ hentries : node.entries? = some schemas, node.child? key = none →
    ∀ location text part converted,
      convertKey (convertPart schemas.1 (mem_parts_of_key hentries)) location key = .ok text →
      node.child? text = some part →
      convertPart schemas.2 (mem_parts_of_value hentries) false location value = .ok converted →
      node.AdmitsChild accepts part converted

theorem Places.of_uniform {key : String} {value : Value} (hchildren : node.children = []) :
    node.Places accepts convertPart key value where
  declared _ := .inr hchildren
  renamed _ _ _ _ text part _ _ hfound _ := by
    rw [child?, hchildren] at hfound
    cases hfound

/-- A converted entry that finds a place is what the node asks for. -/
theorem admitsEntry_convertEntry {strict : Bool} {location : Location} {key text : String}
    {source value : Value} (hparts : node.PartsFit accepts convertPart)
    (hplaces : node.Places accepts convertPart key source)
    (hconvert : node.convertEntry convertPart strict location key source = .ok (text, value)) :
    node.AdmitsEntry accepts text value := by
  rw [AdmitsEntry]
  rcases convertEntry_eq_ok_iff.mp hconvert with ⟨part, hfound, rfl, hconverted⟩ |
    ⟨hmissing, schemas, hentries, htext, hconverted⟩ | ⟨hmissing, hentries, _, rfl, rfl⟩
  · simp only [hfound]
    exact Or.inr (hparts.convert _ _ _ _ _ _ hconverted)
  · cases hfound : node.child? text with
    | some part =>
      exact hplaces.renamed schemas hentries hmissing _ _ _ _ htext hfound hconverted
    | none =>
      simp only [hentries]
      have hkey := hparts.key schemas hentries _ _ _ htext
      exact ⟨Or.inr hkey, Or.inr (hparts.convert _ _ _ _ _ _ hconverted)⟩
  · have hnone : node.children = [] :=
      (hplaces.declared hentries).resolve_left (by simp [hmissing])
    simp only [hmissing, hentries]
    exact hnone

/-- A converted map whose entries find their places is what the node asks for. -/
theorem admits_convertMap {strict : Bool} {location : Location} {source value : Value}
    (hplain : node.IsPlain) (hparts : node.PartsFit accepts convertPart)
    (hkind : node.kind = .map)
    (hplaces : ∀ given, source.namedChildren? = some given →
      ∀ entry ∈ given, node.Places accepts convertPart entry.1 entry.2)
    (hconvert : node.convertMap convertPart strict location source = .ok value) :
    node.Admits accepts value := by
  unfold convertMap at hconvert
  split at hconvert
  · simp [unconvertible] at hconvert
  · rename_i given hgiven
    rw [Outcome.bind_eq_ok_iff] at hconvert
    rcases hconvert with ⟨entries, hentries, hconvert⟩
    cases hconvert
    refine admits_of_kind hplain.validator hkind.symm ?_
    refine Outcome.foldlM_preserves
      (motive := fun entries => ∀ entry ∈ entries, node.AdmitsEntry accepts entry.1 entry.2)
      ?_ ?_ hentries
    · simp
    · intro done hdone child hchild next hround
      rw [Outcome.bind_eq_ok_iff] at hround
      rcases hround with ⟨converted, hconverted, hround⟩
      split at hround
      · rename_i key value
        cases hround
        have hentry := admitsEntry_convertEntry hparts (hplaces given hgiven child hchild)
          (tolerate_eq_ok_some_iff.mp hconverted)
        intro entry hmem
        rcases Entries.mem_insert hmem with rfl | hother
        · exact hentry
        · exact hdone entry hother
      · cases hround
        exact hdone

/-! ## Lists -/

theorem accepts_convertItem {location : Location} {position : Nat} {item value : Value}
    (hparts : node.PartsFit accepts convertPart)
    (hconvert : node.convertItem convertPart location position item = .ok value) {part : Schema}
    (hfound : node.elementAt? position = some part) : accepts part value :=
  hparts.convert _ _ _ _ _ _ ((convertItem_eq_ok_iff.mp hconvert).1 part hfound)

theorem accepts_zeroAt (hparts : node.PartsFit accepts convertPart) {position : Nat}
    {part : Schema} (hfound : node.elementAt? position = some part) :
    accepts part (node.zeroAt position) := by
  rw [zeroAt, hfound]
  exact hparts.zero part (mem_parts_of_elementAt? hfound)

/-- What has been made of the elements before a position: each fits where it stands, and
unless some were left out there is one for every position. -/
structure Fits (node : Node Schema) (accepts : Schema → Value → Prop) (position : Nat)
    (items : Array Value) : Prop where
  /-- Nothing was left out. -/
  aligned : node.nilable = false ∨ node.kind = .array → items.size = position
  /-- Every element fits where it stands. -/
  items : ∀ index item, items[index]? = some item →
    ∀ part, node.elementAt? index = some part → node.AdmitsChild accepts part item

/-- An element that fits the next position may be added. -/
theorem Fits.push {position : Nat} {items : Array Value} {value : Value}
    (hfits : node.Fits accepts position items)
    (hvalue : ∀ part, node.elementAt? position = some part → accepts part value) :
    node.Fits accepts (position + 1) (items.push value) where
  aligned := by
    intro haligned
    rw [Array.size_push, hfits.aligned haligned]
  items := by
    intro index item hitem part hfound
    cases hnilable : node.nilable with
    | true => exact Or.inl hnilable
    | false =>
      rw [Array.getElem?_push] at hitem
      split at hitem
      · rename_i hlast
        rw [hfits.aligned (Or.inl hnilable)] at hlast
        subst hlast
        cases hitem
        exact Or.inr (hvalue part hfound)
      · exact hfits.items index item hitem part hfound

/-- Converted elements fit, and an array has one for every position. -/
theorem fits_convertItems {location : Location} {items converted : Array Value}
    (hparts : node.PartsFit accepts convertPart)
    (hconvert : node.convertItems convertPart location items = .ok converted) :
    node.Fits accepts items.size converted := by
  unfold convertItems at hconvert
  have hfits : node.Fits accepts (0 + items.toList.length) converted := by
    refine Outcome.foldlM_zipIdx_preserves ?_ ?_ hconvert
    · exact ⟨fun _ => rfl, by simp⟩
    · intro position done hdone item next hround
      simp only at hround
      rw [Outcome.bind_eq_ok_iff] at hround
      rcases hround with ⟨outcome, houtcome, hround⟩
      split at hround
      · cases hround
        refine hdone.push fun part hfound => ?_
        exact accepts_convertItem hparts (tolerate_eq_ok_some_iff.mp houtcome) hfound
      · have hnilable := nilable_of_tolerate_eq_none houtcome
        split at hround
        · cases hround
          exact hdone.push fun part hfound => accepts_zeroAt hparts hfound
        · -- The list has become shorter, but its node puts up with any element.
          rename_i hgrowable
          cases hround
          refine ⟨?_, hdone.items⟩
          simp [hnilable, hgrowable]
  simpa using hfits

/-- A converted list that may grow is what the node asks for. -/
theorem admits_growable {location : Location} {items converted : Array Value}
    (hplain : node.IsPlain) (hparts : node.PartsFit accepts convertPart)
    (hkind : node.kind = .list)
    (hconvert : node.convertItems convertPart location items = .ok converted) :
    node.Admits accepts (.list (.growable converted)) := by
  have hfits := fits_convertItems hparts hconvert
  refine admits_of_kind hplain.validator hkind.symm ⟨?_, hfits.items⟩
  intro length hlength
  rw [length?_of_kind (by simp [hkind])] at hlength
  cases hlength

/-- A converted array, padded to its length, is what the node asks for. -/
theorem admits_fixed {location : Location} {items converted : Array Value} {length : Nat}
    (hplain : node.IsPlain) (hparts : node.PartsFit accepts convertPart)
    (hkind : node.kind = .array) (hlength : node.length?.getD items.size = length)
    (hbound : items.size ≤ length)
    (hconvert : node.convertItems convertPart location items = .ok converted) :
    node.Admits accepts (.list ((Sequence.fixed converted).pad length node.zeroAt)) := by
  have hfits := fits_convertItems hparts hconvert
  refine admits_of_kind hplain.validator hkind.symm ⟨?_, ?_⟩
  · intro expected hexpected
    have hsize : converted.size = items.size := hfits.aligned (Or.inr hkind)
    rw [hexpected, Option.getD_some] at hlength
    rw [Sequence.size_pad, Sequence.size, Sequence.fixed, hsize, ← hlength]
    omega
  · intro index item hitem part hfound
    rcases Sequence.getElem?_pad hitem with hconverted | rfl
    · exact hfits.items index item hconverted part hfound
    · exact Or.inr (accepts_zeroAt hparts hfound)

/-- A converted list is what the node asks for. -/
theorem admits_convertList {location : Location} {source value : Value}
    (hplain : node.IsPlain) (hparts : node.PartsFit accepts convertPart)
    (hlinear : node.kind.isLinear = true)
    (hconvert : node.convertList convertPart location source = .ok value) :
    node.Admits accepts value := by
  unfold convertList at hconvert
  split at hconvert
  · rename_i extent items
    simp only at hconvert
    split at hconvert
    · rename_i harray
      split at hconvert
      · simp [unconvertible, bind, Except.bind] at hconvert
      · rename_i hbound
        rw [Outcome.bind_eq_ok_iff] at hconvert
        rcases hconvert with ⟨converted, hconverted, hconvert⟩
        cases hconvert
        exact admits_fixed hplain hparts harray rfl (by omega) hconverted
    · rename_i hother
      have hlist : node.kind = .list := by
        revert hlinear hother
        cases node.kind <;> simp [Kind.isLinear]
      rw [Outcome.bind_eq_ok_iff] at hconvert
      rcases hconvert with ⟨converted, hconverted, hconvert⟩
      cases hconvert
      exact admits_growable hplain hparts hlist hconverted
  · simp [unconvertible] at hconvert

/-! ## Nodes -/

/-- A reference to what its schema converts to is what the node asks for. -/
theorem admits_ref {part : Schema} {mem : part ∈ node.parts} {strict : Bool}
    {location : Location} {source referent : Value} (hplain : node.IsPlain)
    (hparts : node.PartsFit accepts convertPart) (hkind : node.kind = .ref)
    (hfound : node.pointee? = some part)
    (hconvert : convertPart part mem strict location source = .ok referent) :
    node.Admits accepts (.ref referent) := by
  refine admits_of_kind hplain.validator hkind.symm ?_
  intro other hother
  rcases Option.some.inj (hfound.symm.trans hother) with rfl
  exact Or.inr (hparts.convert _ _ _ _ _ _ hconvert)

/-- What a plain node with uniform entries makes of a value that is there, it admits. -/
theorem admits_convertPresent {strict : Bool} {location : Location} {source value : Value}
    (hplain : node.IsPlain) (huniform : node.HasUniformEntries)
    (hparts : node.PartsFit accepts convertPart)
    (hconvert : node.convertPresent convertPart strict location source = .ok value) :
    node.Admits accepts value := by
  cases hkind : node.kind with
  | any => exact admits_of_any hplain.validator hkind
  | null =>
    simp only [convertPresent, hkind] at hconvert
    cases hconvert
    exact admits_of_kind hplain.validator hkind.symm trivial
  | record =>
    simp only [convertPresent, hkind] at hconvert
    exact admits_convertRecord hplain hparts hkind hconvert
  | map =>
    simp only [convertPresent, hkind] at hconvert
    exact admits_convertMap hplain hparts hkind
      (fun _ _ _ _ => .of_uniform (huniform.children hkind)) hconvert
  | list =>
    simp only [convertPresent, hkind] at hconvert
    exact admits_convertList hplain hparts (by simp [hkind, Kind.isLinear]) hconvert
  | array =>
    simp only [convertPresent, hkind] at hconvert
    exact admits_convertList hplain hparts (by simp [hkind, Kind.isLinear]) hconvert
  | ref =>
    simp only [convertPresent, hkind] at hconvert
    split at hconvert
    · rename_i part hfound
      rw [Outcome.map_eq_ok_iff] at hconvert
      rcases hconvert with ⟨referent, hreferent, rfl⟩
      exact admits_ref hplain hparts hkind hfound hreferent
    · rename_i hmissing
      cases hconvert
      refine admits_of_kind hplain.validator hkind.symm ?_
      simp [AdmitsChildren, hmissing]
  | bool | int | float | string =>
    have hscalar : node.kind.isScalar = true := by
      rw [hkind]
      rfl
    have hcoerce := coerce?_of_convertPresent hscalar hconvert
    exact admits_of_scalar hplain hscalar (Value.kind_of_coerce? hcoerce)

/-- What a plain node with uniform entries converts to, it admits. -/
theorem admits_convertWith {strict : Bool} {location : Location} {source value : Value}
    (hplain : node.IsPlain) (huniform : node.HasUniformEntries)
    (hparts : node.PartsFit accepts convertPart)
    (hconvert : node.convertWith library convertPart strict location source = .ok value) :
    node.Admits accepts value := by
  unfold convertWith at hconvert
  rw [hplain.converter] at hconvert
  simp only at hconvert
  rw [Outcome.bind_eq_ok_iff] at hconvert
  rcases hconvert with ⟨decoded, _, hconvert⟩
  split at hconvert
  · cases hconvert
    exact admits_zero hplain hparts.zero
  · exact admits_convertPresent hplain huniform hparts hconvert

end Node

/-! ## Schemas -/

variable {library : Json.Library}

/-- What a union converts to is what one of the alternatives that are tried converts to. -/
theorem NodeUnion.exists_of_convert {union : NodeUnion Schema} {location : Location}
    {source : Value} {fit : String × Value}
    (hconvert : union.convert library location source = .ok fit) :
    ∃ node, (fit.1, node) ∈ union.ordered ∧
      (Schema.single node).convert library true location source = .ok fit.2 := by
  unfold NodeUnion.convert at hconvert
  split at hconvert
  · rename_i other hfirst
    cases hconvert
    rcases NodeUnion.exists_of_firstFit? hfirst with ⟨node, hmem, hnode⟩
    exact ⟨node, hmem, hnode⟩
  · cases hconvert

namespace Schema

/-- Keys that are converted by a plain node for scalars or for any value read back as
valid keys. -/
theorem isValid_readKey {key : Node Schema} {location : Location} {name text : String}
    (hplain : key.IsPlain) (hkey : key.kind = .any ∨ key.kind.isScalar = true)
    (hconvert : Node.convertKey ((Schema.single key).convert library) location name = .ok text) :
    (Schema.single key).isValid ((Schema.single key).readKey text) = true := by
  rw [isValid_single_iff]
  rcases hkey with hany | hscalar
  · exact Node.admits_of_any hplain.validator hany
  · obtain ⟨converted, hconverted, hkept⟩ := Node.convertKey_eq_ok_iff.mp hconvert
    rw [convert_single] at hconverted
    have hkind := Node.kind_of_convertWith hplain.converter hplain.default
      (Kind.ne_any_of_isScalar hscalar) hconverted
    have hread : (single key).readKey text = converted := by
      have hkeep := Kind.readKey_keyText (hkind.symm ▸ hscalar)
      rwa [hkind, hkept] at hkeep
    exact Node.admits_of_scalar hplain hscalar (by rw [hread, hkind])

/-- The parts of a node fit if they are plain, keys are scalars or anything, and what the parts
convert to is valid. -/
theorem partsFit {node : Node Schema} (hplain : ∀ part ∈ node.parts, part.IsPlain)
    (hkeys : ∀ schemas, node.entries? = some schemas → ∃ key : Node Schema,
      schemas.1 = .single key ∧ (key.kind = .any ∨ key.kind.isScalar = true))
    (hconvert : ∀ part ∈ node.parts, ∀ strict location source value,
      part.convert library strict location source = .ok value → part.isValid value = true) :
    node.PartsFit (fun part child => part.isValid child = true)
      fun part _ => part.convert library where
  convert := hconvert
  zero part hmem := isValid_zero (hplain part hmem)
  key schemas hschemas location name text hkey := by
    rcases hkeys schemas hschemas with ⟨key, hsingle, hkind⟩
    have hplainKey := hplain schemas.1 (Node.mem_parts_of_key hschemas)
    rw [hsingle] at hkey hplainKey ⊢
    exact isValid_readKey (everywhere_single_iff.mp hplainKey).1 hkind hkey

/-- What a plain schema with uniform entries converts to is valid. -/
theorem isValid_of_convert {schema : Schema} (hplain : schema.IsPlain)
    (huniform : schema.HasUniformEntries) : ∀ strict location source value,
      schema.convert library strict location source = .ok value → schema.isValid value = true := by
  induction schema using Schema.induct with
  | single node ih =>
    intro strict location source value hconvert
    rcases everywhere_single_iff.mp hplain with ⟨hnode, hparts⟩
    rcases everywhere_single_iff.mp huniform with ⟨hentries, hpartEntries⟩
    rw [convert_single] at hconvert
    rw [isValid_single_iff]
    have hfit := partsFit hparts hentries.keys fun part hmem =>
      ih part hmem (hparts part hmem) (hpartEntries part hmem)
    exact Node.admits_convertWith hnode hentries hfit hconvert
  | choice union ih =>
    intro strict location source value hconvert
    rcases everywhere_choice_iff.mp hplain with ⟨_, halternatives⟩
    rcases everywhere_choice_iff.mp huniform with ⟨_, halternativeEntries⟩
    rw [convert_choice, Outcome.map_eq_ok_iff] at hconvert
    rcases hconvert with ⟨fit, hfit, rfl⟩
    rcases NodeUnion.exists_of_convert hfit with ⟨node, hmem, hnode⟩
    rw [isValid_choice_iff]
    have halternative := NodeUnion.mem_of_mem_ordered hmem
    refine ⟨(fit.1, node), hmem, ?_⟩
    exact ih _ halternative (halternatives _ halternative) (halternativeEntries _ halternative)
      _ _ _ _ hnode

/-- What a plain schema with uniform entries brings a value into the shape of has that
shape: whatever the value was, the converted one is valid. -/
theorem isValid_of_conform {schema : Schema} (hplain : schema.IsPlain)
    (huniform : schema.HasUniformEntries) {source value : Value}
    (hconform : schema.conform library source = .ok value) : schema.isValid value = true :=
  isValid_of_convert hplain huniform false [] source value hconform

/-- A map becomes a record with a padded array, a list that an unfit element was left out
of, and a reference to nothing. -/
theorem isValid_conform_team :
    let mark : NodeUnion Schema := {
      name := "Mark"
      alternatives := [("Pair", { shape := .array (some (2, .single { shape := .bool })) }),
        ("Number", { shape := .int })] }
    let team : Schema := .single {
      shape := .record
      typeName := some "Team"
      children := [("size", .single { shape := .int }),
        ("marks", .single { shape := .list (some (.choice mark)), nilable := true }),
        ("seats", .single { shape := .map (some (.single { shape := .string },
          .single { shape := .ref (some (.single { shape := .float })) })) })] }
    let source : Value := .map [("size", .bool true), ("seats", .map [("left", .null)]),
      ("marks", .ofItems #[.ofItems #[.int 1], .map [], .int 3])]
    let value : Value := .record { name := "Team", fields := [
      { name := "size", value := .int 1 },
      { name := "marks", value := .ofItems #[.list (.fixed #[.bool true, .bool false]), .int 3] },
      { name := "seats", value := .map [("left", .nilRef)] }] }
    team.IsPlain ∧ team.HasUniformEntries ∧ team.conform Json.exact source = .ok value ∧
      team.isValid value = true := by
  intro mark team source value
  have hplain : team.IsPlain := by
    simp [team, mark, IsPlain, Node.isPlain_iff, NodeUnion.HasAlternatives, Node.parts,
      Node.element?, Node.entries?, Node.pointee?, Entries.keys]
  have huniform : team.HasUniformEntries := by
    simp [team, mark, HasUniformEntries, Node.hasUniformEntries_iff, Node.parts, Node.element?,
      Node.entries?, Node.pointee?, Node.kind, Shape.kind, Kind.isScalar]
  have hconform : team.conform Json.exact source = .ok value := by
    simp only [team, mark, source, value]
    cbv
  exact ⟨hplain, huniform, hconform, isValid_of_conform hplain huniform hconform⟩

end Schema

end NestedData
