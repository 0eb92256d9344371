import NestedData.Proofs.Json.RoundTrip
import NestedData.Value.Document

/-!
# What a document keeps of a value

A document follows references, leaves out the fields that paths do not see, does not tell records
from maps nor lists of fixed length from growable ones, and has nothing but null for a reference
to nothing and for infinities and not-a-number.  This module says what is left of a value: another
value, which is what the document of the value is read as and which has the same document.

Main results:

- `Value.ofTree_toTree`: a tree that was made of a well-formed value is read as what is left of it.
- `Value.toTree_canon`: what is left of a value has the same tree.
- `Value.nesting_ofTree`: a value that is read is nested as its tree is.
- `Value.ofJson_toJson`: with a faithful library, reading undoes writing, up to what documents do not
  keep.
-/

namespace NestedData.Value

/-- What a document keeps of a value: references are followed, records become maps of the fields
that paths see, lists become growable, and what a document cannot express becomes null. -/
def canon : Value → Value
  | .null | .nilRef => .null
  | .bool truth => .bool truth
  | .int number => .int number
  | .float number => if number.isFinite then .float number else .null
  | .text content => .text content
  | .list sequence => .ofItems (sequence.items.map canon)
  | .map entries => .map (entries.map fun entry => (entry.1, canon entry.2))
  | .record aggregate =>
    .map ((aggregate.fields.filter Field.exported).map fun field => (field.name, canon field.value))
  | .ref referent => canon referent
termination_by value => value
decreasing_by
  · exact sizeOf_item_lt ‹_›
  · exact sizeOf_entry_lt ‹_›
  · exact sizeOf_field_lt ‹_›
  · decreasing_tactic

/-- How many lists and maps are inside each other, at most; references do not count. -/
def nesting : Value → Nat
  | .list sequence => (sequence.items.map nesting).toList.foldr max 0 + 1
  | .map entries => (entries.map fun entry => nesting entry.2).foldr max 0 + 1
  | .record aggregate =>
    ((aggregate.fields.filter Field.exported).map fun field => nesting field.value).foldr max 0 + 1
  | .ref referent => nesting referent
  | _ => 0
termination_by value => value
decreasing_by
  · exact sizeOf_item_lt ‹_›
  · exact sizeOf_entry_lt ‹_›
  · exact sizeOf_field_lt ‹_›
  · decreasing_tactic

variable {value : Value}

/-! ## Numbers -/

theorem ofNumber_ofInt64 (number : Int64) : ofNumber (.ofInt64 number) = .int number := by
  have hexact : (Json.Number.ofInt64 number).toInt64? = some number :=
    Text.exactInt64?_eq_some_iff.mpr rfl
  rw [ofNumber, hexact]

theorem ofNumber_float (number : Binary64) (hfinite : number.isFinite = true) :
    ofNumber (.float number hfinite) = .float number :=
  rfl

theorem toTree_float_of_finite {number : Binary64} (hfinite : number.isFinite = true) :
    (float number).toTree = .number (.float number hfinite) := by
  simp [toTree, Json.Number.ofBinary64?, hfinite]

theorem toTree_float_of_not_finite {number : Binary64} (hfinite : ¬number.isFinite = true) :
    (float number).toTree = .null := by
  simp [toTree, Json.Number.ofBinary64?, hfinite]

/-! ## Maps -/

/-- Under distinct keys, the tree of a map has its entries as they stand. -/
theorem toTree_map {entries : Entries Value} (hkeys : (Entries.keys entries).Nodup) :
    (map entries).toTree = .map (entries.map fun entry => (entry.1, entry.2.toTree)) := by
  rw [toTree, Entries.ofList_of_nodup]
  simpa [Entries.keys, Function.comp_def] using hkeys

/-- Under distinct names, the tree of a record has the fields that paths see as they stand. -/
theorem toTree_record {aggregate : Record Value} (hnames : aggregate.names.Nodup) :
    (record aggregate).toTree = .map ((aggregate.fields.filter Field.exported).map fun field =>
      (field.name, field.value.toTree)) := by
  have hshown : ((aggregate.fields.filter Field.exported).map Field.name).Nodup :=
    hnames.sublist (List.filter_sublist.map Field.name)
  rw [toTree, Entries.ofList_of_nodup]
  simpa [Entries.keys, Function.comp_def] using hshown

/-- Under distinct keys, a map is read with its entries as they stand. -/
theorem ofTree_map {entries : Entries Json.Tree} (hkeys : (Entries.keys entries).Nodup) :
    ofTree (.map entries) = .map (entries.map fun entry => (entry.1, ofTree entry.2)) := by
  rw [ofTree, Entries.ofList_of_nodup]
  simpa [Entries.keys, Function.comp_def] using hkeys

/-! ## Trees of values -/

/-- The tree of a well-formed value is well-formed. -/
theorem wellFormed_toTree (hvalue : value.WellFormed) : value.toTree.WellFormed := by
  induction hvalue with
  | null =>
    rw [toTree]
    exact .null
  | bool truth =>
    rw [toTree]
    exact .bool truth
  | int number =>
    rw [toTree]
    exact .number _
  | float number =>
    by_cases hfinite : number.isFinite = true
    · rw [toTree_float_of_finite hfinite]
      exact .number _
    · rw [toTree_float_of_not_finite hfinite]
      exact .null
  | text content =>
    rw [toTree]
    exact .text content
  | @list sequence hitems ih =>
    rw [toTree]
    apply Json.Tree.WellFormed.list
    intro item hmem
    obtain ⟨original, horiginal, rfl⟩ := Array.mem_map.mp hmem
    exact ih original horiginal
  | @map entries hkeys hvalues ih =>
    rw [toTree_map hkeys]
    apply Json.Tree.WellFormed.map
    · simpa [Entries.keys, Function.comp_def] using hkeys
    · intro entry hmem
      obtain ⟨original, horiginal, rfl⟩ := List.mem_map.mp hmem
      exact ih original horiginal
  | @record aggregate hnames hvalues ih =>
    have hshown : ((aggregate.fields.filter Field.exported).map Field.name).Nodup :=
      hnames.sublist (List.filter_sublist.map Field.name)
    rw [toTree_record hnames]
    apply Json.Tree.WellFormed.map
    · simpa [Entries.keys, Function.comp_def] using hshown
    · intro entry hmem
      obtain ⟨field, hfield, rfl⟩ := List.mem_map.mp hmem
      exact ih field (List.mem_of_mem_filter hfield)
  | ref _ ih =>
    rw [toTree]
    exact ih
  | nilRef =>
    rw [toTree]
    exact .null

/-- A tree that was made of a well-formed value is read as what documents keep of the value. -/
theorem ofTree_toTree (hvalue : value.WellFormed) : ofTree value.toTree = value.canon := by
  induction hvalue with
  | int number => rw [toTree, ofTree, canon, ofNumber_ofInt64]
  | float number =>
    by_cases hfinite : number.isFinite = true
    · rw [toTree_float_of_finite hfinite, ofTree, canon, if_pos hfinite, ofNumber_float]
    · rw [toTree_float_of_not_finite hfinite, ofTree, canon, if_neg hfinite]
  | @list sequence hitems ih =>
    rw [toTree, ofTree, canon, Array.map_map]
    congr 1
    exact Array.map_congr_left ih
  | @map entries hkeys hvalues ih =>
    have hmapped : (Entries.keys (entries.map fun entry => (entry.1, entry.2.toTree))).Nodup := by
      simpa [Entries.keys, Function.comp_def] using hkeys
    rw [toTree_map hkeys, ofTree_map hmapped, canon, List.map_map]
    congr 1
    exact List.map_congr_left fun entry hmem => by rw [Function.comp_apply, ih entry hmem]
  | @record aggregate hnames hvalues ih =>
    have hmapped := wellFormed_toTree (.record hnames hvalues)
    rw [toTree_record hnames] at hmapped ⊢
    cases hmapped with
    | map hkeys hentries =>
      rw [ofTree_map hkeys, canon, List.map_map]
      congr 1
      refine List.map_congr_left fun field hmem => ?_
      rw [Function.comp_apply, ih field (List.mem_of_mem_filter hmem)]
  | ref _ ih => rw [toTree, canon, ih]
  | _ => rw [toTree, ofTree, canon]

/-- What documents keep of a value has the same tree. -/
theorem toTree_canon (value : Value) : value.canon.toTree = value.toTree := by
  induction value using Value.induct with
  | float number =>
    by_cases hfinite : number.isFinite = true
    · rw [canon, if_pos hfinite]
    · rw [canon, if_neg hfinite, toTree_float_of_not_finite hfinite, toTree]
  | list sequence ih =>
    rw [canon, ofItems, Sequence.growable, toTree, toTree, Array.map_map]
    congr 1
    exact Array.map_congr_left ih
  | map entries ih =>
    rw [canon, toTree, toTree, List.map_map]
    congr 2
    exact List.map_congr_left fun entry hmem => by rw [Function.comp_apply, ih entry hmem]
  | record aggregate ih =>
    rw [canon, toTree, toTree, List.map_map]
    congr 2
    refine List.map_congr_left fun field hmem => ?_
    rw [Function.comp_apply, ih field (List.mem_of_mem_filter hmem)]
  | ref referent ih => rw [canon, toTree, ih]
  | nilRef => rw [canon, toTree, toTree]
  | _ => rw [canon]

/-- A value that is read from a well-formed tree is nested as the tree is. -/
theorem nesting_ofTree {tree : Json.Tree} (htree : tree.WellFormed) :
    (ofTree tree).nesting = tree.nesting := by
  induction htree with
  | number number =>
    rw [ofTree, ofNumber, Json.Tree.nesting]
    · split <;> simp [nesting]
    all_goals simp
  | @list items hitems ih =>
    rw [ofTree, ofItems, Sequence.growable, nesting, Json.Tree.nesting, Array.map_map]
    congr 3
    exact Array.map_congr_left ih
  | @map entries hkeys hentries ih =>
    rw [ofTree_map hkeys, nesting, Json.Tree.nesting, List.map_map]
    congr 2
    exact List.map_congr_left fun entry hmem => by rw [Function.comp_apply, ih entry hmem]
  | _ => simp [ofTree, nesting, Json.Tree.nesting]

/-! ## Texts of values -/

/-- With a faithful library, reading the document of a well-formed value gives what documents keep of
the value, if no more than 127 lists and maps are inside each other there; and that is written as the
same document. -/
theorem ofJson_toJson {library : Json.Library} (hlibrary : library.Faithful)
    (hvalue : value.WellFormed) (hdepth : value.canon.nesting ≤ 127) :
    ofJson library (value.toJson library) = .ok value.canon ∧
      (ofJson library (value.toJson library)).map (toJson library) = .ok (value.toJson library) := by
  have htree := wellFormed_toTree hvalue
  have hnesting : value.toTree.nesting ≤ Json.depthLimit := by
    rw [← nesting_ofTree htree, ofTree_toTree hvalue]
    exact hdepth
  have hparse : library.parse (value.toJson library) = .ok value.toTree :=
    hlibrary.readsBack htree hnesting
  have hread : ofJson library (value.toJson library) = .ok value.canon := by
    rw [ofJson, hparse, ← ofTree_toTree hvalue]
  refine ⟨hread, ?_⟩
  rw [hread, Except.map, toJson, toTree_canon, toJson]

/-- A record is read as a map of the fields that paths see: its reference is followed, its list of
fixed length is read as a growable one that still begins with a negative zero, and what is no number
is read as null. -/
theorem ofJson_toJson_service :
    let ports : Value := .list (.fixed #[.float (.zero true), .int 80, .nilRef])
    let service : Value := .record { name := "Service", fields := [
      { name := "title", value := .ref (.text "a\"b\n\x01") },
      { name := "token", value := .text "secret", exported := false },
      { name := "", value := .map [("ports", ports), ("load", .float .nan)] }] }
    let kept : Value := .map [("title", .text "a\"b\n\x01"),
      ("", .map [("ports", .ofItems #[.float (.zero true), .int 80, .null]), ("load", .null)])]
    Json.exact.Faithful ∧ service.WellFormed ∧ service.canon.nesting = 3 ∧
      ofJson Json.exact (service.toJson Json.exact) = .ok kept ∧
      kept.toJson Json.exact = service.toJson Json.exact := by
  intro ports service kept
  have hservice : service.WellFormed := by
    simp [service, ports, Sequence.fixed, Entries.keys, Record.names]
  have hkept : service.canon = kept := by
    simp [service, ports, kept, canon, Sequence.fixed, Binary64.zero, Binary64.isFinite]
  have hnesting : kept.nesting = 3 := by
    simp [kept, nesting, ofItems, Sequence.growable]
  have hdepth : service.canon.nesting ≤ 127 := by
    rw [hkept, hnesting]
    decide
  obtain ⟨hread, hagain⟩ := ofJson_toJson Json.exact_faithful hservice hdepth
  rw [hread, hkept] at hagain
  rw [hkept] at hread hdepth
  exact ⟨Json.exact_faithful, hservice, by rw [hkept, hnesting], hread, Except.ok.inj hagain⟩

end NestedData.Value
