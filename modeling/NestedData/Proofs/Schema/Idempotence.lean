import Mathlib
import NestedData.Json.Reader
import NestedData.Proofs.Schema.Conversions
import NestedData.Proofs.Schema.Everywhere
import NestedData.Proofs.Schema.Validity
import NestedData.Proofs.Value.Assembly

/-!
# What conversion has made, it leaves as it is

Conversion drops, pads, renames and unwraps: keys are rewritten, elements that do not fit are left out,
arrays are padded with zero values, fields that are missing are filled in, and references are followed
and made again.  This module proves that all of this happens at once or not at all.  For each shape it
says what is made of a value that is converted, and that a value of this form is converted to itself,
given that the parts of the node keep what they have made.

Main results:

- `Node.exists_recordOf_convertRecord`, `Node.exists_entries_convertMap`,
  `Node.exists_keepsList_convertList`: the form of what records, maps and lists are converted to.
- `Node.keeps_convertWith`: a node keeps what it converts to if its parts do.
- `Schema.isAbsent_convert`: what is there does not become absent, unless it is to be null.
- `Schema.conform_of_conform`: what a value is converted to is converted to itself.
-/

namespace NestedData

/-- A conversion leaves a value as it is, at whatever place. -/
def Convert.Keeps (convert : Convert) (value : Value) : Prop :=
  ∀ location, convert false location value = .ok value

namespace Node

variable {library : Json.Library} {node : Node Schema} {convertPart : node.EachPart Convert}
  {location : Location} {source value : Value}

/-! ## What is known of the parts -/

/-- Whatever the parts of a node make of a value, they leave as it is. -/
structure PartsKeep (node : Node Schema) (convertPart : node.EachPart Convert) : Prop where
  /-- A part keeps what it converts to. -/
  convert : ∀ part mem location source value,
    convertPart part mem false location source = .ok value →
      Convert.Keeps (convertPart part mem) value
  /-- A part keeps its zero value. -/
  zero : ∀ part mem, Convert.Keeps (convertPart part mem) part.zero
  /-- The text of a converted key is converted to itself. -/
  key : ∀ schemas, ∀ hentries : node.entries? = some schemas, ∀ location name text,
    convertKey (convertPart schemas.1 (mem_parts_of_key hentries)) location name = .ok text →
      ∀ place, convertKey (convertPart schemas.1 (mem_parts_of_key hentries)) place text = .ok text
  /-- A value is converted as what its references end in is. -/
  target : ∀ part mem location value,
    convertPart part mem false location value.target = convertPart part mem false location value
  /-- What a reference refers to does not become absent. -/
  referent : ∀ part mem location source value, node.pointee? = some part →
    source.target.isAbsent = false → convertPart part mem false location source = .ok value →
      value.target.isAbsent = false

/-! ## Records -/

/-- The record of the children of a node, with given values under their names. -/
def recordOf (node : Node Schema) (valueOf : String → Value) : Record Value where
  name := node.typeName.getD ""
  fields := node.children.map fun child => { name := child.1, value := valueOf child.1 }

/-- The zero value of a record holds the zero values of the children. -/
theorem exists_recordOf_zero (hsteady : node.IsSteady) (hshape : node.shape = .record) :
    ∃ valueOf, node.zero = .record (node.recordOf valueOf) ∧
      ∀ child ∈ node.children, valueOf child.1 = child.2.zero := by
  have hvalue (child : String × Schema) (hmem : child ∈ node.children) :
      ((node.child? child.1).map Schema.zero).getD .null = child.2.zero := by
    rw [child?, Entries.get?_of_mem hsteady.names hmem]
    rfl
  refine ⟨fun name => ((node.child? name).map Schema.zero).getD .null, ?_, hvalue⟩
  have hfields : (node.children.attach.map fun child =>
      ({ name := child.1.1, value := child.1.2.zero } : Field Value)) =
      node.children.map fun child =>
        { name := child.1, value := ((node.child? child.1).map Schema.zero).getD .null } := by
    refine .trans (List.map_congr_left fun child _ => ?_) List.attach_map_val
    rw [hvalue child.1 child.2]
  have hnames : ((node.children.attach.map fun child =>
      ({ name := child.1.1, value := child.1.2.zero } : Field Value)).map Field.name).Nodup := by
    rw [hfields, List.map_map]
    exact hsteady.names
  rw [Node.zero, Schema.zero_single, zeroWith, hsteady.default]
  simp only [hshape]
  rw [Record.ofFields_of_nodup hnames, hfields]
  rfl

/-- A value is assigned to the field of its name and to no other one. -/
theorem setValue_recordOf (hnames : (Entries.keys node.children).Nodup)
    (valueOf : String → Value) (name : String) (value : Value) :
    (node.recordOf valueOf).setValue name value =
      node.recordOf (Function.update valueOf name value) := by
  have hfields (children : Entries Schema) (hnodup : (Entries.keys children).Nodup) :
      Record.modifyField.go name (fun field => { field with value })
        (children.map fun child => ({ name := child.1, value := valueOf child.1 } : Field Value)) =
      children.map fun child =>
        { name := child.1, value := Function.update valueOf name value child.1 } := by
    induction children with
    | nil => rfl
    | cons head rest ih =>
      obtain ⟨hhead, hrest⟩ := List.nodup_cons.mp hnodup
      rw [List.map_cons, List.map_cons, Record.modifyField.go]
      split
      · rename_i hsame
        obtain rfl : head.1 = name := hsame
        rw [Function.update_self]
        congr 1
        refine List.map_congr_left fun child hmem => ?_
        rw [Function.update_of_ne]
        rintro hsame
        exact hhead (hsame ▸ List.mem_map_of_mem hmem)
      · rename_i hother
        rw [Function.update_of_ne hother, ih hrest]
  rw [Record.setValue, Record.modifyField, recordOf, hfields node.children hnames]
  rfl

theorem isSome_field?_recordOf (valueOf : String → Value) {child : String × Schema}
    (hmem : child ∈ node.children) :
    ((node.recordOf valueOf).field? child.1).isSome = true := by
  rw [Record.isSome_field?_iff, Record.names, recordOf, List.map_map]
  exact List.mem_map_of_mem (f := Prod.fst) hmem

/-- The value of a child is found under its name. -/
theorem get?_recordOf (node : Node Schema) (valueOf : String → Value) :
    ∃ given, (Value.record (node.recordOf valueOf)).namedChildren? = some given ∧
      ∀ child ∈ node.children, Entries.get? given child.1 = some (valueOf child.1) := by
  refine ⟨_, rfl, ?_⟩
  have hget (children : Entries Schema) : ∀ child ∈ children,
      Entries.get? (children.map fun child => (child.1, valueOf child.1)) child.1 =
        some (valueOf child.1) := by
    induction children with
    | nil => simp
    | cons head rest ih =>
      intro child hmem
      rw [List.map_cons, Entries.get?]
      split
      · rename_i hsame
        rw [hsame]
      · rename_i hother
        rcases List.mem_cons.mp hmem with rfl | hlater
        · exact absurd rfl hother
        · exact ih child hlater
  have hall : (node.recordOf valueOf).exportedFields = (node.recordOf valueOf).fields := by
    rw [Record.exportedFields, List.filter_eq_self]
    intro field hmem
    obtain ⟨child, _, rfl⟩ := List.mem_map.mp hmem
    rfl
  intro child hmem
  rw [hall, recordOf, List.map_map]
  exact hget node.children child hmem

/-- A child is kept under its name, if its value is. -/
def KeepsFields (node : Node Schema) (convertPart : node.EachPart Convert)
    (valueOf : String → Value) : Prop :=
  ∀ child ∈ node.children, ∀ mem, Convert.Keeps (convertPart child.2 mem) (valueOf child.1)

/-- Fields that are filled hold values that are kept. -/
theorem exists_recordOf_fillRecord {given : Entries Value} {valueOf : String → Value}
    {filled : Record Value} (hnames : (Entries.keys node.children).Nodup)
    (hparts : node.PartsKeep convertPart) (hstart : node.KeepsFields convertPart valueOf)
    (hfill : node.fillRecord convertPart location given (node.recordOf valueOf) = .ok filled) :
    ∃ valueOf, filled = node.recordOf valueOf ∧ node.KeepsFields convertPart valueOf := by
  unfold fillRecord at hfill
  refine Outcome.foldlM_preserves (motive := fun aggregate =>
    ∃ valueOf, aggregate = node.recordOf valueOf ∧ node.KeepsFields convertPart valueOf)
    ⟨valueOf, rfl, hstart⟩ ?_ hfill
  rintro done ⟨valueOf, rfl, hkeeps⟩ child _ next hround
  simp only [isSome_field?_recordOf _ child.2, if_true] at hround
  split at hround
  · cases hround
    exact ⟨valueOf, rfl, hkeeps⟩
  · rw [Outcome.bind_eq_ok_iff] at hround
    obtain ⟨kept, hkept, hround⟩ := hround
    split at hround
    · cases hround
      exact ⟨valueOf, rfl, hkeeps⟩
    · rename_i value
      cases hround
      refine ⟨_, setValue_recordOf hnames _ _ _, fun other hother mem => ?_⟩
      by_cases hsame : other.1 = child.1.1
      · have hpart : other.2 = child.1.2 := by
          have hfound := Entries.get?_of_mem hnames hother
          rw [hsame, Entries.get?_of_mem hnames child.2] at hfound
          exact (Option.some.inj hfound).symm
        obtain rfl : other = child.1 := Prod.ext hsame hpart
        rw [Function.update_self]
        exact hparts.convert _ _ _ _ _ (tolerate_eq_ok_some_iff.mp hkept)
      · rw [Function.update_of_ne hsame]
        exact hkeeps other hother mem

/-- Fields that hold values that are kept are filled with them. -/
theorem fillRecord_recordOf {given : Entries Value} {valueOf : String → Value}
    (hnames : (Entries.keys node.children).Nodup) (hkeeps : node.KeepsFields convertPart valueOf)
    (hgiven : ∀ child ∈ node.children, Entries.get? given child.1 = some (valueOf child.1))
    (start : String → Value) (location : Location) :
    node.fillRecord convertPart location given (node.recordOf start) =
      .ok (node.recordOf valueOf) := by
  have hothers : ∀ child : { child // child ∈ node.children }, child ∉ node.children.attach →
      start child.1.1 = valueOf child.1.1 :=
    fun child hmissing => absurd (List.mem_attach _ child) hmissing
  unfold fillRecord
  -- The fields whose children are still to come may hold anything.
  generalize node.children.attach = rest at hothers
  induction rest generalizing start with
  | nil =>
    refine congrArg Except.ok ?_
    unfold recordOf
    congr 1
    refine List.map_congr_left fun child hmem => ?_
    rw [hothers ⟨child, hmem⟩ List.not_mem_nil]
  | cons head rest ih =>
    have hconverted : convertPart head.1.2 (mem_parts_of_attached head) false
        (location.child (.key head.1.1)) (valueOf head.1.1) = .ok (valueOf head.1.1) :=
      hkeeps head.1 head.2 _ _
    rw [List.foldlM_cons]
    simp only [hgiven head.1 head.2, hconverted, tolerate, bind, Except.bind,
      isSome_field?_recordOf _ head.2, if_true, setValue_recordOf hnames]
    refine ih _ fun child hmissing => ?_
    by_cases hname : child.1.1 = head.1.1
    · rw [hname, Function.update_self]
    · rw [Function.update_of_ne hname]
      refine hothers child ?_
      rw [List.mem_cons, not_or]
      exact ⟨fun hsame => hname (by rw [hsame]), hmissing⟩

/-- A converted record is kept. -/
theorem exists_recordOf_convertRecord (hsteady : node.IsSteady) (hparts : node.PartsKeep convertPart)
    (hkind : node.kind = .record)
    (hconvert : node.convertRecord convertPart false location source = .ok value) :
    ∃ valueOf, value = .record (node.recordOf valueOf) ∧ node.KeepsFields convertPart valueOf := by
  obtain ⟨zeroOf, hzero, hzeroOf⟩ := exists_recordOf_zero hsteady (shape_eq_record hkind)
  have hstart : node.KeepsFields convertPart zeroOf := by
    intro child hmem mem
    rw [hzeroOf child hmem]
    exact hparts.zero child.2 mem
  unfold convertRecord at hconvert
  split at hconvert
  · simp [unconvertible] at hconvert
  · simp only [Bool.false_eq_true, if_false, hzero, Outcome.map_eq_ok_iff] at hconvert
    obtain ⟨filled, hfill, rfl⟩ := hconvert
    obtain ⟨valueOf, rfl, hkeeps⟩ := exists_recordOf_fillRecord hsteady.names hparts hstart hfill
    exact ⟨valueOf, rfl, hkeeps⟩

/-- A record whose values are kept is kept. -/
theorem convertRecord_recordOf {valueOf : String → Value} (hsteady : node.IsSteady)
    (hkind : node.kind = .record) (hkeeps : node.KeepsFields convertPart valueOf)
    (location : Location) :
    node.convertRecord convertPart false location (.record (node.recordOf valueOf)) =
      .ok (.record (node.recordOf valueOf)) := by
  obtain ⟨zeroOf, hzero, _⟩ := exists_recordOf_zero hsteady (shape_eq_record hkind)
  obtain ⟨given, hnamed, hgiven⟩ := get?_recordOf node valueOf
  simp only [convertRecord, hnamed, Bool.false_eq_true, if_false, hzero,
    fillRecord_recordOf hsteady.names hkeeps hgiven]
  rfl

/-! ## Maps -/

/-- An entry is converted to itself. -/
def KeepsEntry (node : Node Schema) (convertPart : node.EachPart Convert)
    (entry : String × Value) : Prop :=
  ∀ location, node.convertEntry convertPart false location entry.1 entry.2 = .ok entry

/-- A converted entry is converted to itself. -/
theorem keepsEntry_convertEntry {key : String} {entry : String × Value} (hsteady : node.IsSteady)
    (hparts : node.PartsKeep convertPart)
    (hconvert : node.convertEntry convertPart false location key source = .ok entry) :
    node.KeepsEntry convertPart entry := by
  intro place
  obtain ⟨text, value⟩ := entry
  rw [convertEntry_eq_ok_iff] at hconvert ⊢
  rcases hconvert with ⟨part, hfound, rfl, hvalue⟩ | ⟨_, schemas, hentries, htext, hvalue⟩ |
    ⟨hmissing, hnone, _, rfl, rfl⟩
  · exact .inl ⟨part, hfound, rfl, hparts.convert _ _ _ _ _ hvalue place⟩
  · -- With schemas for all entries no key is declared, so the new key is not either.
    have hmissing : node.child? text = none := by
      rw [child?, hsteady.entries schemas hentries]
      rfl
    exact .inr (.inl ⟨hmissing, schemas, hentries, hparts.key _ hentries _ _ _ htext place,
      hparts.convert _ _ _ _ _ hvalue place⟩)
  · exact .inr (.inr ⟨hmissing, hnone, rfl, rfl, rfl⟩)

/-- A converted map has entries under distinct keys that are converted to themselves. -/
theorem exists_entries_convertMap (hsteady : node.IsSteady) (hparts : node.PartsKeep convertPart)
    (hconvert : node.convertMap convertPart false location source = .ok value) :
    ∃ entries, value = .map entries ∧ (Entries.keys entries).Nodup ∧
      ∀ entry ∈ entries, node.KeepsEntry convertPart entry := by
  unfold convertMap at hconvert
  split at hconvert
  · simp [unconvertible] at hconvert
  · obtain ⟨entries, hentries, hconvert⟩ := Outcome.bind_eq_ok_iff.mp hconvert
    cases hconvert
    have hstart : (Entries.keys ([] : Entries Value)).Nodup ∧
        ∀ entry ∈ ([] : Entries Value), node.KeepsEntry convertPart entry :=
      ⟨List.nodup_nil, by simp⟩
    refine ⟨entries, rfl, Outcome.foldlM_preserves (motive := fun entries : Entries Value =>
      (Entries.keys entries).Nodup ∧ ∀ entry ∈ entries, node.KeepsEntry convertPart entry)
      hstart ?_ hentries⟩
    rintro done ⟨hkeys, hkeeps⟩ child _ next hround
    obtain ⟨kept, hkept, hround⟩ := Outcome.bind_eq_ok_iff.mp hround
    split at hround
    · rename_i key value
      cases hround
      refine ⟨Entries.nodup_keys_insert hkeys key value, fun entry hmem => ?_⟩
      rcases Entries.mem_insert hmem with rfl | hother
      · exact keepsEntry_convertEntry hsteady hparts (tolerate_eq_ok_some_iff.mp hkept)
      · exact hkeeps entry hother
    · cases hround
      exact ⟨hkeys, hkeeps⟩

/-- A map with entries under distinct keys that are converted to themselves is kept. -/
theorem convertMap_of_keepsEntry {entries : Entries Value} (hkeys : (Entries.keys entries).Nodup)
    (hkeeps : ∀ entry ∈ entries, node.KeepsEntry convertPart entry) (location : Location) :
    node.convertMap convertPart false location (.map entries) = .ok (.map entries) := by
  simp only [convertMap, Value.namedChildren?]
  rw [Outcome.foldlM_eq_foldl (f := fun done entry => Entries.insert done entry.1 entry.2)]
  · exact congrArg (fun entries => Except.ok (Value.map entries)) (Entries.ofList_of_nodup hkeys)
  · intro done entry hmem
    rw [hkeeps entry hmem]
    rfl

/-! ## Lists -/

/-- An element stays as it is at a position. -/
def KeepsItem (node : Node Schema) (convertPart : node.EachPart Convert) (position : Nat)
    (item : Value) : Prop :=
  ∀ part, ∀ hfound : node.elementAt? position = some part,
    Convert.Keeps (convertPart part (mem_parts_of_elementAt? hfound)) item

theorem keepsItem_convertItem {position : Nat} {item : Value} (hparts : node.PartsKeep convertPart)
    (hconvert : node.convertItem convertPart location position item = .ok value) :
    node.KeepsItem convertPart position value := by
  intro part hfound
  exact hparts.convert _ _ _ _ _ ((convertItem_eq_ok_iff.mp hconvert).1 part hfound)

theorem keepsItem_zeroAt (hparts : node.PartsKeep convertPart) (position : Nat) :
    node.KeepsItem convertPart position (node.zeroAt position) := by
  intro part hfound
  rw [zeroAt, hfound]
  exact hparts.zero part _

theorem KeepsItem.convertItem_eq {position : Nat} {item : Value}
    (hkeeps : node.KeepsItem convertPart position item) (location : Location) :
    node.convertItem convertPart location position item = .ok item :=
  convertItem_eq_ok_iff.mpr ⟨fun part hfound => hkeeps part hfound _, fun _ => rfl⟩

/-- What has been made of the elements before a position stays as it is where it stands, and unless
some were left out there is one for every position. -/
structure KeepsItems (node : Node Schema) (convertPart : node.EachPart Convert) (position : Nat)
    (items : Array Value) : Prop where
  /-- Nothing was left out. -/
  aligned : node.nilable = false ∨ node.kind = .array → items.size = position
  /-- Every element stays as it is where it stands. -/
  items : ∀ index item, items[index]? = some item → node.KeepsItem convertPart index item

/-- An element that stays as it is at the next position may be added. -/
theorem KeepsItems.push {position : Nat} {items : Array Value} {item : Value}
    (hsteady : node.IsSteady) (hlinear : node.kind.isLinear = true)
    (hkeeps : node.KeepsItems convertPart position items)
    (hitem : node.KeepsItem convertPart position item) :
    node.KeepsItems convertPart (position + 1) (items.push item) where
  aligned := by
    intro haligned
    rw [Array.size_push, hkeeps.aligned haligned]
  items := by
    intro index other hother
    rw [Array.getElem?_push] at hother
    split at hother
    · rename_i hlast
      cases hother
      by_cases haligned : node.nilable = false ∨ node.kind = .array
      · rw [hlast, hkeeps.aligned haligned]
        exact hitem
      · -- Elements may have been left out, but they are all described by one schema.
        obtain ⟨hnilable, hkind⟩ := not_or.mp haligned
        have hlist : node.kind = .list := by
          revert hlinear hkind
          cases node.kind <;> simp [Kind.isLinear]
        have hsame (index : Nat) : node.elementAt? index = node.element? := by
          rw [elementAt?, hsteady.positions hlist (by simpa using hnilable) index]
          rfl
        intro part hfound
        exact hitem part (by rw [hsame, ← hsame index, hfound])
    · exact hkeeps.items index other hother

/-- Converted elements stay as they are, and an array has one for every position. -/
theorem keepsItems_convertItems {items converted : Array Value} (hsteady : node.IsSteady)
    (hlinear : node.kind.isLinear = true) (hparts : node.PartsKeep convertPart)
    (hconvert : node.convertItems convertPart location items = .ok converted) :
    node.KeepsItems convertPart items.size converted := by
  unfold convertItems at hconvert
  have hkeeps : node.KeepsItems convertPart (0 + items.toList.length) converted := by
    refine Outcome.foldlM_zipIdx_preserves ⟨fun _ => rfl, by simp⟩ ?_ hconvert
    intro position done hdone item next hround
    obtain ⟨outcome, houtcome, hround⟩ := Outcome.bind_eq_ok_iff.mp hround
    split at hround
    · cases hround
      exact hdone.push hsteady hlinear
        (keepsItem_convertItem hparts (tolerate_eq_ok_some_iff.mp houtcome))
    · have hnilable := nilable_of_tolerate_eq_none houtcome
      split at hround
      · cases hround
        exact hdone.push hsteady hlinear (keepsItem_zeroAt hparts position)
      · rename_i hgrowable
        cases hround
        exact ⟨by simp [hnilable, hgrowable], hdone.items⟩
  simpa using hkeeps

/-- Elements that stay as they are are converted to themselves. -/
theorem convertItems_of_keepsItem {items : Array Value}
    (hkeeps : ∀ index item, items[index]? = some item → node.KeepsItem convertPart index item)
    (location : Location) : node.convertItems convertPart location items = .ok items := by
  unfold convertItems
  rw [Outcome.foldlM_eq_foldl (f := fun done item => done.push item.1)]
  · simp
  · rintro done ⟨item, index⟩ hmem
    have hitem : items[index]? = some item := by
      simpa using List.mem_zipIdx_iff_getElem?.mp hmem
    simp only [(hkeeps index item hitem).convertItem_eq]
    rfl

/-- A list has the length that is asked for, and its elements stay as they are. -/
structure KeepsList (node : Node Schema) (convertPart : node.EachPart Convert)
    (sequence : Sequence Value) : Prop where
  /-- The list is of the kind of the node. -/
  kind : (Value.list sequence).kind = node.kind
  /-- An array has its length. -/
  length : node.length?.getD sequence.items.size = sequence.items.size
  /-- Every element stays as it is where it stands. -/
  items : ∀ index item, sequence.items[index]? = some item → node.KeepsItem convertPart index item

/-- A converted list has its length, and its elements stay as they are. -/
theorem exists_keepsList_convertList (hsteady : node.IsSteady) (hparts : node.PartsKeep convertPart)
    (hlinear : node.kind.isLinear = true)
    (hconvert : node.convertList convertPart location source = .ok value) :
    ∃ sequence, value = .list sequence ∧ node.KeepsList convertPart sequence := by
  unfold convertList at hconvert
  split at hconvert
  · rename_i extent items
    simp only at hconvert
    split at hconvert
    · rename_i harray
      split at hconvert
      · cases hconvert
      · rename_i hfits
        obtain ⟨converted, hconverted, hvalue⟩ := Outcome.bind_eq_ok_iff.mp hconvert
        cases hvalue
        have hkeeps := keepsItems_convertItems hsteady hlinear hparts hconverted
        have hsize : ((Sequence.fixed converted).pad (node.length?.getD items.size)
            node.zeroAt).items.size = node.length?.getD items.size := by
          have hpadded := (Sequence.fixed converted).size_pad (node.length?.getD items.size)
            node.zeroAt
          rw [Sequence.size, Sequence.size, Sequence.fixed, hkeeps.aligned (.inr harray)] at hpadded
          rw [Sequence.fixed, hpadded]
          omega
        refine ⟨_, rfl, harray.symm, ?_, fun index item hitem => ?_⟩
        · rw [hsize]
          cases node.length? <;> rfl
        · rcases Sequence.getElem?_pad hitem with hconverted | rfl
          · exact hkeeps.items index item hconverted
          · exact keepsItem_zeroAt hparts index
    · rename_i hother
      have hlist : node.kind = .list := by
        revert hlinear hother
        cases node.kind <;> simp [Kind.isLinear]
      obtain ⟨converted, hconverted, hvalue⟩ := Outcome.bind_eq_ok_iff.mp hconvert
      cases hvalue
      have hkeeps := keepsItems_convertItems hsteady hlinear hparts hconverted
      refine ⟨_, rfl, hlist.symm, ?_, hkeeps.items⟩
      rw [length?_of_kind hother]
      rfl
  · cases hconvert

/-- A list of the right length whose elements stay as they are is kept. -/
theorem KeepsList.convertList_eq {sequence : Sequence Value}
    (hkeeps : node.KeepsList convertPart sequence) (location : Location) :
    node.convertList convertPart location (.list sequence) = .ok (.list sequence) := by
  obtain ⟨extent, items⟩ := sequence
  have hitems := convertItems_of_keepsItem hkeeps.items location
  have hlength : node.length?.getD items.size = items.size := hkeeps.length
  have hkind := hkeeps.kind
  unfold convertList
  simp only [hlength, Nat.lt_irrefl, if_false, hitems, bind, Except.bind]
  cases extent with
  | growable =>
    have hother : node.kind ≠ .array := by
      rw [← hkind]
      simp [Value.kind]
    rw [if_neg hother]
    rfl
  | fixed =>
    have harray : node.kind = .array := hkind.symm
    rw [if_pos harray]
    simp [Sequence.pad, Sequence.fixed, Sequence.size]

/-! ## Nodes -/

theorem keeps_of_kind (hsteady : node.IsSteady) (hkind : value.kind = node.kind)
    (htarget : value.target = value) (hthere : value.isAbsent = false)
    (hpresent : ∀ location, node.convertPresent convertPart false location value = .ok value) :
    Convert.Keeps (node.convertWith library convertPart) value := by
  intro location
  rw [convertWith_of_kind hsteady.converter hkind htarget hthere, hpresent]

theorem keeps_recordOf {valueOf : String → Value} (hsteady : node.IsSteady)
    (hkind : node.kind = .record) (hkeeps : node.KeepsFields convertPart valueOf) :
    Convert.Keeps (node.convertWith library convertPart) (.record (node.recordOf valueOf)) := by
  refine keeps_of_kind hsteady hkind.symm rfl rfl fun location => ?_
  simp only [convertPresent, hkind]
  exact convertRecord_recordOf hsteady hkind hkeeps location

/-- A map with entries under distinct keys that are converted to themselves is kept. -/
theorem keeps_map {entries : Entries Value} (hsteady : node.IsSteady) (hkind : node.kind = .map)
    (hkeys : (Entries.keys entries).Nodup)
    (hkeeps : ∀ entry ∈ entries, node.KeepsEntry convertPart entry) :
    Convert.Keeps (node.convertWith library convertPart) (.map entries) := by
  refine keeps_of_kind hsteady hkind.symm rfl rfl fun location => ?_
  simp only [convertPresent, hkind]
  exact convertMap_of_keepsEntry hkeys hkeeps location

/-- A list of the right length whose elements stay as they are is kept. -/
theorem KeepsList.keeps {sequence : Sequence Value} (hsteady : node.IsSteady)
    (hkeeps : node.KeepsList convertPart sequence) :
    Convert.Keeps (node.convertWith library convertPart) (.list sequence) := by
  have hkind : node.kind = .list ∨ node.kind = .array := by
    rw [← hkeeps.kind]
    rcases sequence with ⟨extent, items⟩
    cases extent <;> simp [Value.kind]
  have hlist (location : Location) :
      node.convertPresent convertPart false location (.list sequence) = .ok (.list sequence) := by
    rcases hkind with hlist | harray
    · simp only [convertPresent, hlist]
      exact hkeeps.convertList_eq location
    · simp only [convertPresent, harray]
      exact hkeeps.convertList_eq location
  exact keeps_of_kind hsteady hkeeps.kind rfl rfl hlist

/-- A scalar of the kind of the node is kept. -/
theorem keeps_scalar (hsteady : node.IsSteady) (hscalar : node.kind.isScalar = true)
    (hkind : value.kind = node.kind) :
    Convert.Keeps (node.convertWith library convertPart) value := by
  have hcoerce := Value.coerce?_of_kind (hkind ▸ hscalar)
  rw [hkind] at hcoerce
  have hnull : value.kind ≠ .null := by
    rintro hnull
    rw [← hkind, hnull] at hscalar
    cases hscalar
  have href : value.kind ≠ .ref := by
    rintro href
    rw [← hkind, href] at hscalar
    cases hscalar
  intro location
  refine convertWith_of_coerce hsteady.converter hscalar ?_ ?_
  · rw [Value.target_of_kind href, Value.isAbsent_of_kind hnull href]
  · rw [Value.target_of_kind href, hcoerce]

theorem keeps_of_absent (hsteady : node.IsSteady) (habsent : node.zero.target.isAbsent = true) :
    Convert.Keeps (node.convertWith library convertPart) node.zero :=
  fun _ => convertWith_of_absent hsteady.converter habsent

/-- The zero value of a node is kept. -/
theorem keeps_zero (hsteady : node.IsSteady) (hparts : node.PartsKeep convertPart) :
    Convert.Keeps (node.convertWith library convertPart) node.zero := by
  have hkind : node.kind = node.shape.kind := rfl
  have hzero : node.zero = node.zeroWith fun part _ => part.zero := by
    rw [Node.zero, Schema.zero_single]
  rw [zeroWith, hsteady.default] at hzero
  cases hshape : node.shape with
  | any | null | ref pointee? =>
    simp only [hshape] at hzero
    exact keeps_of_absent hsteady (by rw [hzero]; rfl)
  | bool | int | float | string =>
    simp only [hshape] at hkind hzero
    rw [hzero]
    exact keeps_scalar hsteady (by rw [hkind]; rfl) hkind.symm
  | list element? =>
    simp only [hshape] at hkind hzero
    rw [hzero]
    refine KeepsList.keeps hsteady ⟨hkind.symm, ?_, fun index item hitem => ?_⟩
    · rw [length?_of_kind (by simp [hkind, Shape.kind])]
      rfl
    · simp [Sequence.growable] at hitem
  | array bound? =>
    simp only [hshape] at hkind hzero
    rw [hzero]
    refine KeepsList.keeps hsteady ⟨hkind.symm, ?_, fun index item hitem => ?_⟩
    · simp only [Sequence.fixed, Array.size_ofFn]
      cases node.length? <;> rfl
    · obtain ⟨hindex, rfl⟩ := Array.getElem?_eq_some_iff.mp hitem
      intro part hfound
      simp only [Sequence.fixed, Array.getElem_ofFn]
      split
      · rename_i element helement
        obtain rfl := Option.some.inj (hfound.symm.trans helement)
        exact hparts.zero part _
      · rename_i hmissing
        simp [hmissing] at hfound
  | map entries? =>
    simp only [hshape] at hkind hzero
    rw [hzero]
    exact keeps_map hsteady hkind List.nodup_nil (by simp)
  | record =>
    simp only [hshape] at hkind
    obtain ⟨zeroOf, hrecord, hzeroOf⟩ := exists_recordOf_zero hsteady hshape
    rw [hrecord]
    refine keeps_recordOf hsteady hkind fun child hmem mem => ?_
    rw [hzeroOf child hmem]
    exact hparts.zero child.2 mem

/-- A reference to what its schema keeps is kept. -/
theorem keeps_ref {part : Schema} {mem : part ∈ node.parts} {referent : Value}
    (hsteady : node.IsSteady) (hparts : node.PartsKeep convertPart) (hkind : node.kind = .ref)
    (hpointee : node.pointee? = some part) (hthere : referent.target.isAbsent = false)
    (hkeeps : Convert.Keeps (convertPart part mem) referent) :
    Convert.Keeps (node.convertWith library convertPart) (.ref referent) := by
  intro location
  have hpresent : (Value.ref referent).target.isAbsent = false := hthere
  rw [convertWith_of_no_container hsteady.converter (by rw [hkind]; rfl) hpresent]
  simp only [convertPresent, hkind]
  split
  · rename_i other hother
    obtain rfl := Option.some.inj (hpointee.symm.trans hother)
    rw [Value.target, hparts.target, hkeeps location]
    rfl
  · rename_i hmissing
    rw [hpointee] at hmissing
    cases hmissing

/-- A reference that a steady node makes of a value that is there is kept. -/
theorem keeps_convertPresent_ref (hsteady : node.IsSteady) (hparts : node.PartsKeep convertPart)
    (hkind : node.kind = .ref) (hsource : source.target = source)
    (hthere : source.isAbsent = false)
    (hconvert : node.convertPresent convertPart false location source = .ok value) :
    Convert.Keeps (node.convertWith library convertPart) value := by
  simp only [convertPresent, hkind] at hconvert
  split at hconvert
  · rename_i part hpointee
    obtain ⟨referent, hreferent, rfl⟩ := Outcome.map_eq_ok_iff.mp hconvert
    have hpresent := hparts.referent _ _ _ _ _ hpointee (by rw [hsource, hthere]) hreferent
    exact keeps_ref hsteady hparts hkind hpointee hpresent
      (hparts.convert _ _ _ _ _ hreferent)
  · rename_i hmissing
    cases hconvert
    intro place
    rw [convertWith_of_no_container hsteady.converter (by rw [hkind]; rfl)
      (by rw [Value.target, hsource, hthere]), Value.target, hsource]
    simp only [convertPresent, hkind]
    split
    · rename_i part hpointee
      rw [hmissing] at hpointee
      cases hpointee
    · rfl

/-- What a steady node makes of a value that is there is kept. -/
theorem keeps_convertPresent (hsteady : node.IsSteady) (hparts : node.PartsKeep convertPart)
    (htarget : node.kind.isContainer = false → source.target = source)
    (hthere : source.isAbsent = false)
    (hconvert : node.convertPresent convertPart false location source = .ok value) :
    Convert.Keeps (node.convertWith library convertPart) value := by
  cases hkind : node.kind with
  | any =>
    have hsource := htarget (by rw [hkind]; rfl)
    simp only [convertPresent, hkind] at hconvert
    cases hconvert
    intro place
    rw [convertWith_of_no_container hsteady.converter (by rw [hkind]; rfl) (by rw [hsource, hthere]),
      hsource]
    simp only [convertPresent, hkind]
  | null =>
    have hzero : node.zero.kind = .null :=
      (Schema.kind_zero hsteady.default (by simp [hkind])).trans hkind
    simp only [convertPresent, hkind] at hconvert
    cases hconvert
    intro place
    rw [convertWith_of_absent hsteady.converter rfl, Value.eq_null_of_kind hzero]
  | bool | int | float | string =>
    have hscalar : node.kind.isScalar = true := by
      rw [hkind]
      rfl
    exact keeps_scalar hsteady hscalar
      (Value.kind_of_coerce? (coerce?_of_convertPresent hscalar hconvert))
  | record =>
    simp only [convertPresent, hkind] at hconvert
    obtain ⟨valueOf, rfl, hkeeps⟩ := exists_recordOf_convertRecord hsteady hparts hkind hconvert
    exact keeps_recordOf hsteady hkind hkeeps
  | map =>
    simp only [convertPresent, hkind] at hconvert
    obtain ⟨entries, rfl, hkeys, hkeeps⟩ := exists_entries_convertMap hsteady hparts hconvert
    exact keeps_map hsteady hkind hkeys hkeeps
  | list | array =>
    simp only [convertPresent, hkind] at hconvert
    obtain ⟨sequence, rfl, hkeeps⟩ :=
      exists_keepsList_convertList hsteady hparts (by rw [hkind]; rfl) hconvert
    exact hkeeps.keeps hsteady
  | ref =>
    exact keeps_convertPresent_ref hsteady hparts hkind (htarget (by rw [hkind]; rfl)) hthere
      hconvert

/-- What a steady node converts to, it keeps. -/
theorem keeps_convertWith (hsteady : node.IsSteady) (hparts : node.PartsKeep convertPart)
    (hconvert : node.convertWith library convertPart false location source = .ok value) :
    Convert.Keeps (node.convertWith library convertPart) value := by
  unfold convertWith at hconvert
  rw [hsteady.converter] at hconvert
  simp only at hconvert
  obtain ⟨decoded, hdecoded, hconvert⟩ := Outcome.bind_eq_ok_iff.mp hconvert
  split at hconvert
  · cases hconvert
    exact keeps_zero hsteady hparts
  · rename_i hthere
    have htarget (hcontainer : node.kind.isContainer = false) : decoded.target = decoded := by
      rw [decodeSource_of_no_container hcontainer] at hdecoded
      cases hdecoded
      exact source.target_target
    exact keeps_convertPresent hsteady hparts htarget (by simpa using hthere) hconvert

/-- What a node makes of a value that is there does not become absent, if what a reference refers to
does not. -/
theorem isAbsent_convertWith (hsteady : node.IsSteady) (hnull : node.kind ≠ .null)
    (hreferent : ∀ part mem location source value, node.pointee? = some part →
      source.target.isAbsent = false → convertPart part mem false location source = .ok value →
        value.target.isAbsent = false)
    (hthere : source.target.isAbsent = false)
    (hconvert : node.convertWith library convertPart false location source = .ok value) :
    value.target.isAbsent = false := by
  by_cases hany : node.kind = .any
  · rw [convertWith_of_no_container hsteady.converter (by rw [hany]; rfl) hthere] at hconvert
    simp only [convertPresent, hany] at hconvert
    cases hconvert
    rw [Value.target_target, hthere]
  by_cases href : node.kind = .ref
  · rw [convertWith_of_no_container hsteady.converter (by rw [href]; rfl) hthere] at hconvert
    simp only [convertPresent, href] at hconvert
    split at hconvert
    · rename_i part hpointee
      obtain ⟨referent, hconverted, rfl⟩ := Outcome.map_eq_ok_iff.mp hconvert
      have hsource : source.target.target.isAbsent = false := by rw [Value.target_target, hthere]
      have hpresent := hreferent _ _ _ _ _ hpointee hsource hconverted
      exact hpresent
    · cases hconvert
      rw [Value.target, Value.target_target, hthere]
  · have hkind := kind_of_convertWith hsteady.converter hsteady.default hany hconvert
    rw [Value.target_of_kind (hkind ▸ href), Value.isAbsent_of_kind (hkind ▸ hnull) (hkind ▸ href)]

end Node

namespace Schema

variable {library : Json.Library}

/-- What a steady schema makes of a value that is there does not become absent, unless it is to be
null. -/
theorem isAbsent_convert {schema : Schema} (hsteady : schema.IsSteady)
    (hnull : ∀ node, schema = .single node → node.kind ≠ .null) {location : Location}
    {source value : Value} (hthere : source.target.isAbsent = false)
    (hconvert : schema.convert library false location source = .ok value) :
    value.target.isAbsent = false := by
  induction schema using Schema.induct generalizing location source value with
  | single node ih =>
    obtain ⟨hnode, hparts⟩ := everywhere_single_iff.mp hsteady
    rw [convert_single] at hconvert
    refine Node.isAbsent_convertWith hnode (hnull node rfl) ?_ hthere hconvert
    intro part mem location source value hpointee hthere hconvert
    refine ih part mem (hparts part mem) ?_ hthere hconvert
    rintro referent rfl
    exact hnode.referents referent hpointee
  | choice union => exact (everywhere_choice_iff.mp hsteady).1.elim

/-- The text of a converted key is converted to itself. -/
theorem convertKey_of_convertKey {key : Node Schema} {location : Location} {name text : String}
    (hkey : key.IsSteady) (hkind : key.kind = .any ∨ key.kind.isScalar = true)
    (hconvert : Node.convertKey ((Schema.single key).convert library) location name = .ok text)
    (place : Location) :
    Node.convertKey ((Schema.single key).convert library) place text = .ok text := by
  obtain ⟨converted, hconverted, rfl⟩ := Node.convertKey_eq_ok_iff.mp hconvert
  rw [convert_single] at hconverted
  rw [Node.convertKey_eq_ok_iff, convert_single]
  rcases hkind with hany | hscalar
  · refine ⟨.text converted.keyText, ?_, rfl⟩
    rw [Node.convertWith_of_no_container hkey.converter (by rw [hany]; rfl) rfl]
    simp only [Node.convertPresent, hany]
    rfl
  · refine ⟨converted, ?_, rfl⟩
    have hsame := Node.kind_of_convertWith hkey.converter hkey.default
      (Kind.ne_any_of_isScalar hscalar) hconverted
    have hread := Kind.readKey_keyText (hsame ▸ hscalar)
    have hcoerce := Kind.coerce?_readKey converted.kind converted.keyText
    rw [hread, hsame] at hcoerce
    exact Node.convertWith_of_coerce hkey.converter hscalar rfl hcoerce

/-- What a steady schema converts to, it keeps. -/
theorem keeps_convert {schema : Schema} (hsteady : schema.IsSteady) {location : Location}
    {source value : Value} (hconvert : schema.convert library false location source = .ok value) :
    Convert.Keeps (schema.convert library) value := by
  induction schema using Schema.induct generalizing location source value with
  | single node ih =>
    obtain ⟨hnode, hparts⟩ := everywhere_single_iff.mp hsteady
    rw [convert_single] at hconvert ⊢
    have hsingle (part : Schema) (mem : part ∈ node.parts) :
        ∃ inner : Node Schema, part = .single inner ∧ inner.IsSteady := by
      have hpart := hparts part mem
      cases part with
      | single inner => exact ⟨inner, rfl, (everywhere_single_iff.mp hpart).1⟩
      | choice union => exact (everywhere_choice_iff.mp hpart).1.elim
    refine Node.keeps_convertWith hnode ?_ hconvert
    refine {
      convert := fun part mem location source value => ih part mem (hparts part mem)
      zero := ?_, key := ?_, target := ?_, referent := ?_ }
    · intro part mem
      obtain ⟨inner, rfl, hinner⟩ := hsingle part mem
      exact ih _ mem (hparts _ mem) (@convert_absent _ _ hinner.converter .null rfl false [])
    · intro schemas hentries location name text hkey
      obtain ⟨key, hsame, hkind⟩ := hnode.keys schemas hentries
      have hsteadyKey := hparts _ (Node.mem_parts_of_key hentries)
      rw [hsame] at hkey hsteadyKey ⊢
      exact convertKey_of_convertKey (everywhere_single_iff.mp hsteadyKey).1 hkind hkey
    · intro part mem location value
      obtain ⟨inner, rfl, hinner⟩ := hsingle part mem
      rw [convert_single, Node.convertWith_target hinner.converter]
    · intro part mem location source value hpointee
      refine isAbsent_convert (hparts part mem) ?_
      rintro referent rfl
      exact hnode.referents referent hpointee
  | choice union => exact (everywhere_choice_iff.mp hsteady).1.elim

/-- What a value is converted to is converted to itself. -/
theorem conform_of_conform {schema : Schema} (hsteady : schema.IsSteady) {source value : Value}
    (hconvert : schema.conform library source = .ok value) :
    schema.conform library value = .ok value :=
  keeps_convert hsteady hconvert []

/-- A record is made of a map with a field missing, a record in place of a map, an array with an element
left out, and a reference to a reference; what is made is converted to itself. -/
theorem conform_of_conform_order :
    let order : Schema := .single {
      shape := .record
      typeName := some "Order"
      children := [
        ("lines", .single {
          shape := .map (some (.single { shape := .string }, .single { shape := .float })) }),
        ("seats", .single { shape := .array (some (3, .single { shape := .bool })), nilable := true }),
        ("parent", .single { shape := .ref (some (.single { shape := .string })) }),
        ("note", .single { shape := .any })] }
    let source : Value := .map [
      ("parent", .ref (.ref (.int 8))),
      ("lines", .record { name := "Lines", fields := [
        { name := "left", value := .bool true }, { name := "right", value := .null }] }),
      ("seats", .ofItems #[.int 2, .map []])]
    let value : Value := .record { name := "Order", fields := [
      { name := "lines", value := .map [("left", .float .one), ("right", .float (.zero false))] },
      { name := "seats", value := .list (.fixed #[.bool true, .bool false, .bool false]) },
      { name := "parent", value := .ref (.text "8") },
      { name := "note", value := .null }] }
    order.IsSteady ∧ order.conform Json.exact source = .ok value ∧
      order.conform Json.exact value = .ok value := by
  intro order source value
  have hsteady : order.IsSteady := by
    simp [order, IsSteady, Node.isSteady_iff, Node.parts, Node.element?, Node.entries?,
      Node.pointee?, Entries.keys, Node.kind, Shape.kind, Kind.isScalar]
  have hconform : order.conform Json.exact source = .ok value := by
    simp only [order, source, value]
    cbv
  exact ⟨hsteady, hconform, conform_of_conform hsteady hconform⟩

end Schema

end NestedData
