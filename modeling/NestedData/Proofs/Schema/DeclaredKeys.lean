import NestedData.Json.Reader
import NestedData.Proofs.Schema.Soundness

/-!
# Maps with declared keys

A node for maps may declare keys, each with a schema for the value under it, and may give
schemas for the keys and values of all other entries.  Conversion places an entry by the key it
has, and converts the key; validation looks at the key that it has become.  This module proves
that what conversion makes of a map is valid if both agree: every entry is declared, or falls
under the schemas for all entries without taking the place of a declared one that its value
does not fit.

Main results:

- `Node.placesEntry_of_text`: where keys are texts or anything, an entry keeps its key.
- `Schema.isValid_of_conform_placed`: a converted map is valid if every entry finds its place.
-/

namespace NestedData

namespace Node

variable {library : Json.Library} {node : Node Schema} {entry : String × Value}

/-- The entries of the map, or the fields of the record, that a node for maps converts: those of
the source itself, or of the document that a text holds. -/
def given (library : Json.Library) (node : Node Schema) (location : Location) (source : Value) :
    Entries Value :=
  ((node.decodeSource library location source.target).toOption.bind Value.namedChildren?).getD []

/-- An entry finds a place in what it is converted to by the schemas of a node. -/
def PlacesEntry (library : Json.Library) (node : Node Schema) (entry : String × Value) : Prop :=
  node.Places (fun part child => part.isValid child = true) (fun part _ => part.convert library)
    entry.1 entry.2

theorem placesEntry_of_declared (hdeclared : (node.child? entry.1).isSome = true) :
    node.PlacesEntry library entry where
  declared _ := .inl hdeclared
  renamed _ _ hmissing := by
    rw [hmissing] at hdeclared
    cases hdeclared

/-- By a node for scalars, a value is converted to the scalar that it stands for. -/
theorem convert_of_coerce {scalar : Node Schema} {strict : Bool} {location : Location}
    {source value : Value} (hplain : scalar.converter? = none)
    (hscalar : scalar.kind.isScalar = true) (hpresent : source.target.isAbsent = false)
    (hcoerce : source.target.coerce? scalar.kind = some value) :
    (Schema.single scalar).convert library strict location source = .ok value := by
  rw [Schema.convert_single]
  exact convertWith_of_coerce hplain hscalar hpresent hcoerce

/-- A key is a text already, and is kept where keys are texts or anything. -/
theorem convertKey_of_text {key : Node Schema} (hplain : key.IsPlain)
    (hkind : key.kind = .any ∨ key.kind = .string) (location : Location) (name : String) :
    convertKey ((Schema.single key).convert library) location name = .ok name := by
  have hkept : (Schema.single key).convert library false location (.text name) =
      .ok (.text name) := by
    rcases hkind with hany | hstring
    · simp [Schema.convert_single, convertWith, hplain.converter, Value.target, decodeSource, hany,
        Kind.isContainer, Kind.isLinear, Kind.isAssociative, Value.isAbsent, convertPresent, bind,
        Except.bind]
    · exact convert_of_coerce hplain.converter (by rw [hstring]; rfl) rfl (by rw [hstring]; rfl)
  rw [convertKey, hkept]
  rfl

theorem eq_of_convertKey {key : Node Schema} {location : Location} {name text : String}
    (hplain : key.IsPlain) (hkind : key.kind = .any ∨ key.kind = .string)
    (hconvert : convertKey ((Schema.single key).convert library) location name = .ok text) :
    text = name :=
  (Except.ok.inj ((convertKey_of_text hplain hkind location name).symm.trans hconvert)).symm

/-- A key that spells an integer, blanks around it apart, becomes the decimal form of the
integer. -/
theorem convertKey_int {key : Node Schema} {location : Location} {name : String} {number : Int64}
    (hplain : key.converter? = none) (hkind : key.kind = .int)
    (hread : Text.readInt64? (Text.trim name.toList) = some number) :
    convertKey ((Schema.single key).convert library) location name =
      .ok (Text.ofInt number.toInt) := by
  have hcoerce : (Value.text name).coerce? key.kind = some (.int number) := by
    simp only [hkind, Value.coerce?, Value.coerceInt?, hread, Option.some_or, Option.map_some]
  have hconverted : (Schema.single key).convert library false location (.text name) =
      .ok (.int number) :=
    convert_of_coerce hplain (by rw [hkind]; rfl) rfl hcoerce
  simp only [convertKey, hconverted, Value.display, bind, Except.bind]

theorem convertKey_blank (location : Location) :
    convertKey ((Schema.single { shape := .int }).convert library) location " 1" = .ok "1" := by
  have htrim : Text.trim " 1".toList = Text.showInt 1 := by decide
  have hread : Text.readInt64? (Text.trim " 1".toList) = some 1 := by
    rw [Text.readInt64?, htrim, Text.readInt?_showInt]
    exact Text.exactInt64?_eq_some_iff.mpr rfl
  rw [convertKey_int rfl rfl hread]
  rfl

theorem convertEntry_of_declared {part : Schema} {strict : Bool} {location : Location}
    {key : String} {source value : Value} (hfound : node.child? key = some part)
    (hvalue : part.convert library false location source = .ok value) :
    node.convertEntry (fun part _ => part.convert library) strict location key source =
      .ok (key, value) :=
  convertEntry_eq_ok_iff.mpr (.inl ⟨part, hfound, rfl, hvalue⟩)

/-- Where it is not declared, its key and its value are converted by the schemas for all
entries. -/
theorem convertEntry_of_entries {key value : Node Schema} {strict : Bool} {location : Location}
    {name text : String} {source converted : Value} (hmissing : node.child? name = none)
    (hentries : node.entries? = some (.single key, .single value))
    (hkey : convertKey ((Schema.single key).convert library) location name = .ok text)
    (hvalue : (Schema.single value).convert library false location source = .ok converted) :
    node.convertEntry (fun part _ => part.convert library) strict location name source =
      .ok (text, converted) :=
  convertEntry_eq_ok_iff.mpr (.inr (.inl ⟨hmissing, _, hentries, hkey, hvalue⟩))

/-- Where all entries fall under schemas with keys that are texts or anything, every entry finds
its place. -/
theorem placesEntry_of_text {schemas : Schema × Schema} {key : Node Schema}
    (hentries : node.entries? = some schemas) (hkey : schemas.1 = .single key)
    (hplain : key.IsPlain) (hkind : key.kind = .any ∨ key.kind = .string) :
    node.PlacesEntry library entry where
  declared hnone := by
    rw [hentries] at hnone
    cases hnone
  renamed others hothers hmissing location text part converted hconvert hfound _ := by
    obtain rfl := Option.some.inj (hentries.symm.trans hothers)
    rw [hkey] at hconvert
    rw [eq_of_convertKey hplain hkind hconvert, hmissing] at hfound
    cases hfound

end Node

namespace Schema

variable {library : Json.Library} {node : Node Schema} {source value : Value}

theorem conform_map {entries : Entries Value} (hplain : node.converter? = none)
    (hmap : node.kind = .map) :
    (Schema.single node).conform library (.map entries) =
      node.convertMap (fun part _ => part.convert library) false [] (.map entries) := by
  simp only [conform, convert_single, Node.convertWith, hplain, Value.target, Node.decodeSource,
    Value.isAbsent, Node.convertPresent, hmap, bind, Except.bind, Bool.false_eq_true, if_false]

/-- What a plain node for maps makes of a value at a place is valid, if every entry finds its
place. -/
theorem isValid_of_convert_placed {strict : Bool} {location : Location} (hplain : node.IsPlain)
    (hmap : node.kind = .map)
    (hparts : ∀ part ∈ node.parts, part.IsPlain ∧ part.HasUniformEntries)
    (hkeys : ∀ schemas, node.entries? = some schemas → ∃ key : Node Schema,
      schemas.1 = .single key ∧ (key.kind = .any ∨ key.kind.isScalar = true))
    (hplaces : ∀ entry ∈ node.given library location source, node.PlacesEntry library entry)
    (hconvert : (Schema.single node).convert library strict location source = .ok value) :
    (Schema.single node).isValid value = true := by
  have hfit : node.PartsFit (fun part child => part.isValid child = true)
      fun part _ => part.convert library :=
    partsFit (fun part hmem => (hparts part hmem).1) hkeys fun part hmem =>
      isValid_of_convert (hparts part hmem).1 (hparts part hmem).2
  rw [convert_single, Node.convertWith, hplain.converter] at hconvert
  simp only at hconvert
  rw [Outcome.bind_eq_ok_iff] at hconvert
  rcases hconvert with ⟨decoded, hdecoded, hconvert⟩
  rw [isValid_single_iff]
  split at hconvert
  · cases hconvert
    exact Node.admits_zero hplain hfit.zero
  · simp only [Node.convertPresent, hmap] at hconvert
    refine Node.admits_convertMap hplain hfit hmap (fun given hgiven entry hmem => ?_) hconvert
    refine hplaces entry ?_
    rw [Node.given, hdecoded]
    simpa [Except.toOption, hgiven] using hmem

/-- What a plain node for maps converts to is valid, whatever keys it declares, if all other
entries fall under schemas whose keys are texts or anything. -/
theorem isValid_of_conform_texts {schemas : Schema × Schema} {key : Node Schema}
    (hplain : node.IsPlain) (hmap : node.kind = .map)
    (hparts : ∀ part ∈ node.parts, part.IsPlain ∧ part.HasUniformEntries)
    (hentries : node.entries? = some schemas) (hkey : schemas.1 = .single key)
    (hkind : key.kind = .any ∨ key.kind = .string)
    (hconform : (Schema.single node).conform library source = .ok value) :
    (Schema.single node).isValid value = true := by
  have hscalar : key.kind = .any ∨ key.kind.isScalar = true :=
    hkind.imp_right fun hstring => by rw [hstring]; rfl
  have hkeyPlain := (hparts schemas.1 (Node.mem_parts_of_key hentries)).1
  rw [hkey] at hkeyPlain
  refine isValid_of_convert_placed hplain hmap hparts (fun others hothers => ?_)
    (fun entry _ => Node.placesEntry_of_text hentries hkey (everywhere_single_iff.mp hkeyPlain).1
      hkind) hconform
  obtain rfl := Option.some.inj (hentries.symm.trans hothers)
  exact ⟨key, hkey, hscalar⟩

/-- What a plain node for maps brings a value into the shape of has that shape, if its parts are
plain schemas whose maps treat all entries alike, keys are scalars or anything, and every entry
finds its place: it is declared, or falls under the schemas for all entries and, if its key
becomes a declared one, has a value that fits there. -/
theorem isValid_of_conform_placed (hplain : node.IsPlain) (hmap : node.kind = .map)
    (hparts : ∀ part ∈ node.parts, part.IsPlain ∧ part.HasUniformEntries)
    (hkeys : ∀ schemas, node.entries? = some schemas → ∃ key : Node Schema,
      schemas.1 = .single key ∧ (key.kind = .any ∨ key.kind.isScalar = true))
    (hplaces : ∀ entry ∈ node.given library [] source, node.PlacesEntry library entry)
    (hconform : (Schema.single node).conform library source = .ok value) :
    (Schema.single node).isValid value = true :=
  isValid_of_convert_placed hplain hmap hparts hkeys hplaces hconform

/-- A key loses the blank before it and stays apart from the declared one. -/
theorem isValid_conform_trimmed :
    let node : Node Schema := {
      shape := .map (some (.single { shape := .int }, .single { shape := .int }))
      children := [("id", .single { shape := .string })] }
    let source : Value := .map [("id", .int 7), (" 1", .int 5)]
    let value : Value := .map [("id", .text "7"), ("1", .int 5)]
    (Schema.single node).conform Json.exact source = .ok value ∧
      (Schema.single node).isValid value = true := by
  intro node source value
  have hplain : node.IsPlain := by
    simp [node, Node.isPlain_iff, Entries.keys]
  have hparts : ∀ part ∈ node.parts, part.IsPlain ∧ part.HasUniformEntries := by
    simp [node, Node.parts, Node.element?, Node.entries?, Node.pointee?, IsPlain,
      HasUniformEntries, Node.isPlain_iff, Node.hasUniformEntries_iff, Entries.keys, Node.kind,
      Shape.kind]
  have hkeys : ∀ schemas, node.entries? = some schemas → ∃ key : Node Schema,
      schemas.1 = .single key ∧ (key.kind = .any ∨ key.kind.isScalar = true) := by
    rintro schemas hentries
    obtain rfl := Option.some.inj hentries
    exact ⟨_, rfl, .inr rfl⟩
  have hdeclared (location : Location) : node.convertEntry (fun part _ => part.convert Json.exact)
      false location "id" (.int 7) = .ok ("id", .text "7") :=
    Node.convertEntry_of_declared rfl (Node.convert_of_coerce rfl rfl rfl rfl)
  have hother (location : Location) : node.convertEntry (fun part _ => part.convert Json.exact)
      false location " 1" (.int 5) = .ok ("1", .int 5) :=
    Node.convertEntry_of_entries rfl rfl (Node.convertKey_blank location)
      (Node.convert_of_coerce rfl rfl rfl rfl)
  have hconform : (Schema.single node).conform Json.exact source = .ok value := by
    rw [conform_map rfl rfl]
    simp [Node.convertMap, Value.namedChildren?, Node.tolerate, hdeclared, hother, Entries.insert,
      value, bind, Except.bind, pure, Except.pure]
  have hgiven : node.given Json.exact [] source = [("id", .int 7), (" 1", .int 5)] := rfl
  have hplace : node.PlacesEntry Json.exact (" 1", .int 5) := by
    refine Node.Places.mk (fun hnone => (Option.some_ne_none _ hnone).elim) ?_
    intro schemas hentries _ location text part converted hbecomes hfound _
    obtain rfl := Option.some.inj hentries
    obtain rfl : "1" = text := Except.ok.inj ((Node.convertKey_blank location).symm.trans hbecomes)
    cases hfound
  refine ⟨hconform, isValid_of_conform_placed hplain rfl hparts hkeys ?_ hconform⟩
  rw [hgiven, List.forall_mem_cons, List.forall_mem_singleton]
  exact ⟨Node.placesEntry_of_declared rfl, hplace⟩

/-- A key that becomes a declared one brings its value along, and without schemas for all entries
one that is not declared is kept: what has been converted is not valid. -/
theorem isValid_conform_misplaced :
    let trimming : Node Schema := {
      shape := .map (some (.single { shape := .int }, .single { shape := .int }))
      children := [("1", .single { shape := .string })] }
    let closed : Node Schema := {
      shape := .map none, children := [("x", .single { shape := .int })] }
    (Schema.single trimming).conform Json.exact (.map [(" 1", .int 5)]) =
        .ok (.map [("1", .int 5)]) ∧
      (Schema.single trimming).isValid (.map [("1", .int 5)]) = false ∧
      (Schema.single closed).conform Json.exact (.map [("x", .int 5), ("y", .int 6)]) =
        .ok (.map [("x", .int 5), ("y", .int 6)]) ∧
      (Schema.single closed).isValid (.map [("x", .int 5), ("y", .int 6)]) = false := by
  intro trimming closed
  have hrenamed (location : Location) : trimming.convertEntry (fun part _ => part.convert Json.exact)
      false location " 1" (.int 5) = .ok ("1", .int 5) :=
    Node.convertEntry_of_entries rfl rfl (Node.convertKey_blank location)
      (Node.convert_of_coerce rfl rfl rfl rfl)
  have hdeclared (location : Location) : closed.convertEntry (fun part _ => part.convert Json.exact)
      false location "x" (.int 5) = .ok ("x", .int 5) :=
    Node.convertEntry_of_declared rfl (Node.convert_of_coerce rfl rfl rfl rfl)
  have hkept (location : Location) : closed.convertEntry (fun part _ => part.convert Json.exact)
      false location "y" (.int 6) = .ok ("y", .int 6) := rfl
  refine ⟨?_, by simp only [trimming]; cbv, ?_, by simp only [closed]; cbv⟩
  · rw [conform_map rfl rfl]
    simp [Node.convertMap, Value.namedChildren?, Node.tolerate, hrenamed, Entries.insert, bind,
      Except.bind, pure, Except.pure]
  · rw [conform_map rfl rfl]
    simp [Node.convertMap, Value.namedChildren?, Node.tolerate, hdeclared, hkept, Entries.insert,
      bind, Except.bind, pure, Except.pure]

end Schema

end NestedData
