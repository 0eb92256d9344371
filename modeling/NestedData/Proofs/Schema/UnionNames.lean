import Mathlib
import NestedData.Json.Reader
import NestedData.Proofs.Schema.Soundness

/-!
# Names that a union accepts

A union tells its alternatives apart by the names in a source.  While an alternative is tried,
a record accepts only the fields that it declares, and a map without schemas for all entries only
the keys that it declares.  A record is checked before any of its fields is converted.  In a map
an undeclared key is the fault of one entry, and a node that may be absent puts up with that: the
entry is left out.

Main results:

- `Node.declared_of_convertRecord`, `Node.declared_of_convertMap`: what the names in a source are
  if an alternative accepts it.
- `NodeUnion.declared_of_convert`: the alternative that is chosen declares every name, unless it
  describes maps and may be absent, and then the entry is not in what has been converted.
-/

namespace NestedData

namespace Node

variable {library : Json.Library} {node : Node Schema} {convertPart : node.EachPart Convert}
  {location : Location} {source value : Value} {given : Entries Value}

/-- A source with named children is converted as it is, at the end of its references. -/
theorem convertWith_of_named (hplain : node.converter? = none)
    (hgiven : source.target.namedChildren? = some given) (strict : Bool) :
    node.convertWith library convertPart strict location source =
      node.convertPresent convertPart strict location source.target := by
  rw [convertWith, hplain]
  cases htarget : source.target with
  | map | record => rfl
  | _ => simp [htarget, Value.namedChildren?] at hgiven

/-- Without schemas for all entries, an alternative converts only an entry that it declares, and
keeps the key. -/
theorem declared_of_convertEntry {key text : String} (hentries : node.entries? = none)
    (hconvert : node.convertEntry convertPart true location key source = .ok (text, value)) :
    (node.child? key).isSome = true ∧ text = key := by
  rcases convertEntry_eq_ok_iff.mp hconvert with ⟨part, hfound, rfl, _⟩ | ⟨_, schemas, hsome, _⟩ |
    ⟨_, _, hstrict, _⟩
  · exact ⟨by rw [hfound]; rfl, rfl⟩
  · rw [hentries] at hsome
    cases hsome
  · cases hstrict

/-- A record that is an alternative converts only a source whose names it declares. -/
theorem declared_of_convertRecord (hgiven : source.namedChildren? = some given)
    (hconvert : node.convertRecord convertPart true location source = .ok value) :
    ∀ entry ∈ given, (node.child? entry.1).isSome = true := by
  simp only [convertRecord, hgiven, if_true] at hconvert
  split at hconvert
  · simp [unconvertible] at hconvert
  · rename_i hknown
    intro entry hmem
    have hdeclared := List.find?_eq_none.mp hknown entry hmem
    simpa [Option.isSome_iff_ne_none] using hdeclared

/-- A map that is an alternative, without schemas for all entries, converts to declared entries;
unless it may be absent, the source has no others. -/
theorem declared_of_convertMap (hentries : node.entries? = none)
    (hgiven : source.namedChildren? = some given)
    (hconvert : node.convertMap convertPart true location source = .ok value) :
    ∃ entries, value = .map entries ∧
      (∀ entry ∈ entries, (node.child? entry.1).isSome = true) ∧
      (node.nilable = false → ∀ entry ∈ given, (node.child? entry.1).isSome = true) := by
  simp only [convertMap, hgiven] at hconvert
  rw [Outcome.bind_eq_ok_iff] at hconvert
  obtain ⟨entries, hfold, hvalue⟩ := hconvert
  refine ⟨entries, (Except.ok.inj hvalue).symm, ?_, ?_⟩
  · refine Outcome.foldlM_preserves
      (motive := fun entries => ∀ entry ∈ entries, (node.child? entry.1).isSome = true)
      (by simp) ?_ hfold
    intro done hdone child _ next hround
    rw [Outcome.bind_eq_ok_iff] at hround
    obtain ⟨converted, hconverted, hround⟩ := hround
    split at hround
    · cases hround
      obtain ⟨hdeclared, rfl⟩ :=
        declared_of_convertEntry hentries (tolerate_eq_ok_some_iff.mp hconverted)
      intro entry hmem
      rcases Entries.mem_insert hmem with rfl | hother
      · exact hdeclared
      · exact hdone entry hother
    · cases hround
      exact hdone
  · intro hstrict entry hmem
    obtain ⟨done, next, hround⟩ := Outcome.exists_round_of_foldlM hfold hmem
    rw [Outcome.bind_eq_ok_iff] at hround
    obtain ⟨converted, hconverted, _⟩ := hround
    cases converted with
    | none => simp [nilable_of_tolerate_eq_none hconverted] at hstrict
    | some pair =>
      exact (declared_of_convertEntry hentries (tolerate_eq_ok_some_iff.mp hconverted)).1

end Node

namespace NodeUnion

variable {library : Json.Library} {union : NodeUnion Schema} {location : Location}
  {source value : Value} {name : String} {node : Node Schema}

/-- With distinct names, the alternative of the name that is given has converted the source. -/
theorem convert_of_mem (hnames : (Entries.keys union.alternatives).Nodup)
    (hmem : (name, node) ∈ union.alternatives)
    (hconvert : union.convert library location source = .ok (name, value)) :
    (Schema.single node).convert library true location source = .ok value := by
  obtain ⟨chosen, hchosen, hnode⟩ := exists_of_convert hconvert
  have hone := Entries.get?_of_mem hnames hmem
  have htwo := Entries.get?_of_mem hnames (mem_of_mem_ordered hchosen)
  obtain rfl : node = chosen := Option.some.inj (hone.symm.trans htwo)
  exact hnode

/-- If an alternative that is a record, or a map without schemas for all entries, is chosen for a
source, it declares the names of the source: all the keys of a map, or the fields of a record that
paths see.  Only a map that may be absent is chosen with a key that it does not declare, and that
key is not in what the source is converted to. -/
theorem declared_of_convert {given : Entries Value}
    (hnames : (Entries.keys union.alternatives).Nodup)
    (hplain : ∀ alternative ∈ union.alternatives, alternative.2.converter? = none)
    (hconvert : union.convert library location source = .ok (name, value))
    (hmem : (name, node) ∈ union.alternatives)
    (hclosed : node.kind = .record ∨ node.kind = .map ∧ node.entries? = none)
    (hgiven : source.target.namedChildren? = some given) :
    ∀ entry ∈ given, (node.child? entry.1).isSome = true ∨
      node.kind = .map ∧ node.nilable = true ∧
        ∃ entries, value = .map entries ∧ Entries.contains entries entry.1 = false := by
  have hnode := convert_of_mem hnames hmem hconvert
  rw [Schema.convert_single, Node.convertWith_of_named (hplain _ hmem) hgiven,
    Node.convertPresent] at hnode
  intro entry hentry
  rcases hclosed with hrecord | ⟨hmap, hentries⟩
  · simp only [hrecord] at hnode
    exact .inl (Node.declared_of_convertRecord hgiven hnode entry hentry)
  · simp only [hmap] at hnode
    obtain ⟨entries, hvalue, hdeclared, hall⟩ :=
      Node.declared_of_convertMap hentries hgiven hnode
    by_cases hknown : (node.child? entry.1).isSome = true
    · exact .inl hknown
    · refine .inr ⟨hmap, ?_, entries, hvalue, ?_⟩
      · by_contra hstrict
        exact hknown (hall (Bool.eq_false_of_not_eq_true hstrict) entry hentry)
      · by_contra hthere
        rw [Bool.not_eq_false, Entries.contains_iff_mem_keys] at hthere
        obtain ⟨kept, hkept, hsame⟩ := List.mem_map.mp hthere
        exact hknown (hsame ▸ hdeclared kept hkept)

/-- Behind a reference, a side is what tells a square from a circle. -/
theorem declared_of_convert_square :
    let circle : Node Schema := {
      shape := .record, typeName := some "Circle", children := [("Radius", .single { shape := .float })] }
    let square : Node Schema := {
      shape := .record, typeName := some "Square", children := [("Side", .single { shape := .int })] }
    let union : NodeUnion Schema := {
      name := "Shape", default? := some "Circle",
      alternatives := [("Circle", circle), ("Square", square)] }
    let source : Value := .ref (.map [("Side", .float .one)])
    let value : Value := .record { name := "Square", fields := [{ name := "Side", value := .int 1 }] }
    union.convert Json.exact [] source = .ok ("Square", value) ∧
      (square.child? "Side").isSome = true := by
  intro circle square union source value
  have hconvert : union.convert Json.exact [] source = .ok ("Square", value) := by
    simp only [circle, square, union, source, value]
    cbv
  have hplain : ∀ alternative ∈ union.alternatives, alternative.2.converter? = none := by
    simp [union, circle, square]
  have hmem : ("Square", square) ∈ union.alternatives := by simp [union]
  have hdeclared := declared_of_convert (by decide) hplain hconvert hmem (.inl rfl)
    (by rfl : source.target.namedChildren? = some _) ("Side", .float .one) List.mem_cons_self
  refine ⟨hconvert, hdeclared.resolve_right ?_⟩
  rintro ⟨hmap, _⟩
  cases hmap

/-- A map that may be absent is chosen before one that declares both keys, and one of them is
lost. -/
theorem convert_loses_name :
    let narrow : Node Schema := {
      shape := .map none, nilable := true, children := [("x", .single { shape := .int })] }
    let wide : Node Schema := {
      shape := .map none,
      children := [("x", .single { shape := .int }), ("y", .single { shape := .int })] }
    let union : NodeUnion Schema := {
      name := "Point", alternatives := [("Narrow", narrow), ("Wide", wide)] }
    union.convert Json.exact [] (.map [("x", .int 1), ("y", .int 2)]) =
        .ok ("Narrow", .map [("x", .int 1)]) ∧
      (narrow.child? "y").isSome = false := by
  intro narrow wide union
  refine ⟨?_, rfl⟩
  simp only [narrow, wide, union]
  cbv

end NodeUnion

end NestedData
