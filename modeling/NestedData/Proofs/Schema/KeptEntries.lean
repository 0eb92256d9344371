import Mathlib.Data.List.Dedup
import NestedData.Json.Reader
import NestedData.Proofs.Schema.DeclaredKeys
import NestedData.Proofs.Schema.UnionNames

/-!
# How many entries a map is converted to

A node for maps converts the entries of a source one after the other and puts each under the key that
it is converted to.  Entries that come to the same key replace each other.  This module counts what is
left: under a node that leaves out no child, as many entries as there are different keys after
conversion, so that nothing is lost exactly if keys that differ stay different.

Main results:

- `Entries.keys_ofList`: the keys of entries inserted one after the other are the different ones
  among theirs.
- `Node.exists_pairs_of_convertMap`: a converted map holds what each entry is converted to.
- `Schema.length_of_convert_map`: how many entries a converted map has, and when that is all of them.
- `Schema.length_of_convert_map_of_text`: keys that are texts, or anything, stay different.
-/

namespace NestedData

namespace Entries

variable {α : Type}

/-- The keys of entries inserted one after the other are the different ones among theirs, in the order
in which they come first. -/
theorem keys_ofList (pairs : List (String × α)) :
    keys (ofList pairs) = (keys pairs).reverse.dedup.reverse := by
  induction pairs using List.reverseRecOn with
  | nil => rfl
  | append_singleton pairs pair ih =>
    have hlast : ofList (pairs ++ [pair]) = insert (ofList pairs) pair.1 pair.2 := by
      rw [ofList, List.foldl_concat, ofList]
    have hkeys : (keys (pairs ++ [pair])).reverse = pair.1 :: (keys pairs).reverse := by
      simp [keys]
    have hmem : contains (ofList pairs) pair.1 = true ↔ pair.1 ∈ (keys pairs).reverse := by
      rw [contains_iff_mem_keys, ih, List.mem_reverse, List.mem_dedup]
    rw [hlast, keys_insert, hkeys, ih]
    by_cases hfound : pair.1 ∈ (keys pairs).reverse
    · rw [if_pos (hmem.mpr hfound), List.dedup_cons_of_mem hfound]
    · rw [if_neg (mt hmem.mp hfound), List.dedup_cons_of_notMem hfound, List.reverse_cons]

theorem length_ofList (pairs : List (String × α)) :
    (ofList pairs).length = (keys pairs).reverse.dedup.length := by
  have hlength := congrArg List.length (keys_ofList pairs)
  rwa [keys, List.length_map, List.length_reverse] at hlength

theorem length_ofList_le (pairs : List (String × α)) : (ofList pairs).length ≤ pairs.length := by
  calc (ofList pairs).length = (keys pairs).reverse.dedup.length := length_ofList pairs
    _ ≤ (keys pairs).reverse.length := (List.dedup_sublist _).length_le
    _ = pairs.length := by rw [List.length_reverse, keys, List.length_map]

theorem length_ofList_eq_iff {pairs : List (String × α)} :
    (ofList pairs).length = pairs.length ↔ (keys pairs).Nodup := by
  have hcount : pairs.length = (keys pairs).reverse.length := by
    rw [List.length_reverse, keys, List.length_map]
  rw [length_ofList, hcount, ← List.nodup_reverse, ← List.dedup_eq_self]
  exact ⟨(List.dedup_sublist _).eq_of_length, congrArg List.length⟩

end Entries

namespace Node

variable {library : Json.Library} {node : Node Schema} {strict : Bool} {location : Location}
  {source value : Value} {given : Entries Value}

/-- The key that an entry is put under: its own if it is declared or there are no schemas for all
entries, and else what the schema for keys makes of it. -/
def keyOf? (library : Json.Library) (node : Node Schema) (location : Location) (name : String) :
    Option String :=
  match node.child? name, node.entries? with
  | none, some schemas =>
    (convertKey (schemas.1.convert library) (location.child (.key name)) name).toOption
  | _, _ => some name

/-- Where keys are texts or anything, or fall under no schema, every entry is put under its own. -/
theorem keyOf?_of_text (hkeys : ∀ schemas, node.entries? = some schemas → ∃ key : Node Schema,
      schemas.1 = .single key ∧ key.IsPlain ∧ (key.kind = .any ∨ key.kind = .string))
    (location : Location) (name : String) : node.keyOf? library location name = some name := by
  unfold keyOf?
  split
  · rename_i schemas _ hentries
    obtain ⟨key, hkey, hplain, hkind⟩ := hkeys schemas hentries
    rw [hkey, convertKey_of_text hplain hkind, Except.toOption]
  · rfl

theorem keyOf?_of_convertEntry {name text : String}
    (hconvert : node.convertEntry (fun part _ => part.convert library) strict
      (location.child (.key name)) name source = .ok (text, value)) :
    node.keyOf? library location name = some text := by
  rcases convertEntry_eq_ok_iff.mp hconvert with
    ⟨part, hfound, rfl, _⟩ | ⟨hmissing, schemas, hentries, hkey, _⟩ | ⟨hmissing, hentries, _, rfl, _⟩
  · simp only [keyOf?, hfound]
  · simp only [keyOf?, hmissing, hentries, hkey, Except.toOption]
  · simp only [keyOf?, hmissing, hentries]

/-- A loop that puts up with no fault puts every entry under the key that it is converted to. -/
theorem exists_pairs_of_foldlM (hnilable : node.nilable = false)
    {convert : String × Value → Except SchemaError (String × Value)} {start entries : Entries Value}
    (hfold : given.foldlM (fun entries child => do
      match ← node.tolerate (convert child) with
      | some (key, value) => .ok (Entries.insert entries key value)
      | none => .ok entries) start = .ok entries) :
    ∃ pairs, List.Forall₂ (fun child pair => convert child = .ok pair) given pairs ∧
      entries = pairs.foldl (fun entries pair => Entries.insert entries pair.1 pair.2) start := by
  induction given generalizing start with
  | nil => exact ⟨[], .nil, (Except.ok.inj hfold).symm⟩
  | cons child rest ih =>
    obtain ⟨next, hround, hrest⟩ := Outcome.bind_eq_ok_iff.mp hfold
    obtain ⟨kept?, hkept, hnext⟩ := Outcome.bind_eq_ok_iff.mp hround
    cases kept? with
    | none => simp [nilable_of_tolerate_eq_none hkept] at hnilable
    | some pair =>
      cases hnext
      obtain ⟨pairs, hpairs, rfl⟩ := ih hrest
      exact ⟨pair :: pairs, .cons (tolerate_eq_ok_some_iff.mp hkept) hpairs, rfl⟩

/-- A node that leaves out no child converts a source to the entries that those of the source are
converted to, each put under its key. -/
theorem exists_pairs_of_convertMap {convertPart : node.EachPart Convert}
    (hnilable : node.nilable = false) (hgiven : source.namedChildren? = some given)
    (hconvert : node.convertMap convertPart strict location source = .ok value) :
    ∃ pairs, List.Forall₂ (fun child pair => node.convertEntry convertPart strict
        (location.child (.key child.1)) child.1 child.2 = .ok pair) given pairs ∧
      value = .map (Entries.ofList pairs) := by
  simp only [convertMap, hgiven] at hconvert
  obtain ⟨entries, hfold, hvalue⟩ := Outcome.bind_eq_ok_iff.mp hconvert
  obtain ⟨pairs, hpairs, rfl⟩ := exists_pairs_of_foldlM hnilable hfold
  exact ⟨pairs, hpairs, (Except.ok.inj hvalue).symm⟩

/-- The entries are put under the keys that the names in the source become. -/
theorem map_keyOf?_of_convertEntry {pairs : List (String × Value)}
    (hpairs : List.Forall₂ (fun child pair => node.convertEntry (fun part _ => part.convert library)
      strict (location.child (.key child.1)) child.1 child.2 = .ok pair) given pairs) :
    given.map (fun child => node.keyOf? library location child.1) =
      (Entries.keys pairs).map some := by
  induction hpairs with
  | nil => rfl
  | cons hpair _ ih =>
    rw [List.map_cons, keyOf?_of_convertEntry hpair, ih]
    rfl

end Node

namespace Schema

variable {library : Json.Library} {node : Node Schema} {strict : Bool} {location : Location}
  {source value : Value} {given : Entries Value}

/-- What a node that leaves out no child makes of a map, or of a record, has entries under the keys that
the names there become, and under no others.  There are never more of them than names, and as many
exactly if all names become different keys. -/
theorem length_of_convert_map (hplain : node.converter? = none) (hkind : node.kind = .map)
    (hnilable : node.nilable = false) (hgiven : source.target.namedChildren? = some given)
    (hconvert : (Schema.single node).convert library strict location source = .ok value) :
    ∃ entries, value = .map entries ∧
      (∀ text, text ∈ Entries.keys entries ↔
        ∃ child ∈ given, node.keyOf? library location child.1 = some text) ∧
      entries.length ≤ given.length ∧
      (entries.length = given.length ↔
        (given.map fun child => node.keyOf? library location child.1).Nodup) := by
  rw [convert_single, Node.convertWith_of_named hplain hgiven, Node.convertPresent, hkind]
    at hconvert
  obtain ⟨pairs, hpairs, rfl⟩ := Node.exists_pairs_of_convertMap hnilable hgiven hconvert
  have hkeys := Node.map_keyOf?_of_convertEntry hpairs
  refine ⟨_, rfl, fun text => ?_, ?_, ?_⟩
  · have hmem : some text ∈ given.map (fun child => node.keyOf? library location child.1) ↔
        text ∈ Entries.keys pairs := by
      rw [hkeys]
      simp
    rw [Entries.keys_ofList, List.mem_reverse, List.mem_dedup, List.mem_reverse, ← hmem,
      List.mem_map]
  · rw [hpairs.length_eq]
    exact Entries.length_ofList_le pairs
  · rw [hpairs.length_eq, hkeys, List.nodup_map_iff (Option.some_injective _)]
    exact Entries.length_ofList_eq_iff

/-- Names that differ stay different where keys are texts or anything, or fall under no schema, and no
entry is lost. -/
theorem length_of_convert_map_of_text (hplain : node.converter? = none) (hkind : node.kind = .map)
    (hnilable : node.nilable = false)
    (hkeys : ∀ schemas, node.entries? = some schemas → ∃ key : Node Schema,
      schemas.1 = .single key ∧ key.IsPlain ∧ (key.kind = .any ∨ key.kind = .string))
    (hgiven : source.target.namedChildren? = some given) (hnames : (Entries.keys given).Nodup)
    (hconvert : (Schema.single node).convert library strict location source = .ok value) :
    ∃ entries, value = .map entries ∧ entries.length = given.length := by
  obtain ⟨entries, hvalue, -, -, hcount⟩ :=
    length_of_convert_map hplain hkind hnilable hgiven hconvert
  have hsame : given.map (fun child => node.keyOf? library location child.1) =
      (Entries.keys given).map some := by
    simp [Entries.keys, Node.keyOf?_of_text hkeys]
  refine ⟨entries, hvalue, hcount.mpr ?_⟩
  rw [hsame]
  exact hnames.map (Option.some_injective _)

/-- Integers under integers, apart from a text under a declared key. -/
def numbered : Node Schema where
  shape := .map (some (.single { shape := .int }, .single { shape := .int }))
  children := [("0", .single { shape := .string })]

/-- An integer under a key that spells an integer is put under the decimal form of the key. -/
theorem convertEntry_numbered {name : String} (key : Int64) (hname : name ≠ "0")
    (hread : Text.readInt64? (Text.trim name.toList) = some key) (location : Location)
    (number : Int64) :
    numbered.convertEntry (fun part _ => part.convert library) false location name (.int number) =
      .ok (Text.ofInt key.toInt, .int number) := by
  have hmissing : numbered.child? name = none := if_neg (Ne.symm hname)
  exact Node.convertEntry_of_entries hmissing rfl (Node.convertKey_int rfl rfl hread)
    (Node.convert_of_coerce rfl rfl rfl rfl)

theorem convertEntry_numbered_zero (location : Location) (content : String) :
    numbered.convertEntry (fun part _ => part.convert library) false location "0" (.text content) =
      .ok ("0", .text content) :=
  Node.convertEntry_of_declared rfl (Node.convert_of_coerce rfl rfl rfl rfl)

/-- A key loses the blank before it, and no entry is lost. -/
theorem length_of_convert_map_trimmed :
    ∃ value entries, (Schema.single numbered).conform Json.exact
        (.map [("0", .text "a"), (" 2", .int 5), ("1", .int 6)]) = .ok value ∧
      value = .map entries ∧ entries.length = 3 := by
  have hsecond (location : Location) : numbered.convertEntry
      (fun part _ => part.convert Json.exact) false location " 2" (.int 5) = .ok ("2", .int 5) :=
    convertEntry_numbered 2 (by decide) (by decide) location 5
  have hfirst (location : Location) : numbered.convertEntry
      (fun part _ => part.convert Json.exact) false location "1" (.int 6) = .ok ("1", .int 6) :=
    convertEntry_numbered 1 (by decide) (by decide) location 6
  have hconform : (Schema.single numbered).conform Json.exact
      (.map [("0", .text "a"), (" 2", .int 5), ("1", .int 6)]) =
        .ok (.map [("0", .text "a"), ("2", .int 5), ("1", .int 6)]) := by
    rw [conform_map rfl rfl]
    simp [Node.convertMap, Value.namedChildren?, Node.tolerate, convertEntry_numbered_zero, hsecond,
      hfirst, Entries.insert, bind, Except.bind, pure, Except.pure]
  have hgiven : (Value.map [("0", .text "a"), (" 2", .int 5), ("1", .int 6)]).target.namedChildren? =
      some [("0", .text "a"), (" 2", .int 5), ("1", .int 6)] := rfl
  obtain ⟨entries, hvalue, -, -, hcount⟩ := length_of_convert_map rfl rfl rfl hgiven hconform
  refine ⟨_, entries, hconform, hvalue, hcount.mpr ?_⟩
  rw [List.map_cons, List.map_cons, List.map_singleton,
    Node.keyOf?_of_convertEntry (convertEntry_numbered_zero _ "a"),
    Node.keyOf?_of_convertEntry (hsecond _), Node.keyOf?_of_convertEntry (hfirst _)]
  decide

/-- Of two keys that spell one integer, the entry that comes last is left.  It even takes the place of a
declared one. -/
theorem length_of_convert_map_merged :
    (Schema.single numbered).conform Json.exact (.map [("1", .int 5), ("01", .int 6)]) =
        .ok (.map [("1", .int 6)]) ∧
      (Schema.single numbered).conform Json.exact (.map [("0", .text "a"), ("00", .int 7)]) =
        .ok (.map [("0", .int 7)]) := by
  have hfirst (location : Location) : numbered.convertEntry
      (fun part _ => part.convert Json.exact) false location "1" (.int 5) = .ok ("1", .int 5) :=
    convertEntry_numbered 1 (by decide) (by decide) location 5
  have hagain (location : Location) : numbered.convertEntry
      (fun part _ => part.convert Json.exact) false location "01" (.int 6) = .ok ("1", .int 6) :=
    convertEntry_numbered 1 (by decide) (by decide) location 6
  have hzero (location : Location) : numbered.convertEntry
      (fun part _ => part.convert Json.exact) false location "00" (.int 7) = .ok ("0", .int 7) :=
    convertEntry_numbered 0 (by decide) (by decide) location 7
  constructor
  · rw [conform_map rfl rfl]
    simp [Node.convertMap, Value.namedChildren?, Node.tolerate, hfirst, hagain, Entries.insert, bind,
      Except.bind, pure, Except.pure]
  · rw [conform_map rfl rfl]
    simp [Node.convertMap, Value.namedChildren?, Node.tolerate, convertEntry_numbered_zero, hzero,
      Entries.insert, bind, Except.bind, pure, Except.pure]

end Schema

end NestedData
