import NestedData.Json.Reader
import NestedData.Proofs.Access.Growing
import NestedData.Proofs.Schema.UnionNames

/-!
# What a nilable node leaves out

A node whose value may be absent puts up with children that cannot be converted.  A record keeps
the zero values of such fields, a map and a list go without such entries and elements, and an
array keeps the zero values of its slots; the conversion itself succeeds whatever the schemas of
the children are.  A reference alone passes the fault of what it refers to on, nilable or not.

Main results:

- `Node.tolerate_of_nilable`: a nilable node is not failed by the outcome of a child.
- `Node.convertRecord_of_nilable`, `Node.convertMap_of_nilable`, `Node.convertList_of_nilable`: what
  the containers are made of.
- `Schema.exists_convert_of_nilable`: a nilable node converts every source of its shape, and leaves
  out the children that cannot be converted.
-/

namespace NestedData

/-! ## Fields -/

namespace Record

variable {α : Type}

/-- The value of a field, seen by paths or not. -/
def value? (record : Record α) (name : String) : Option α :=
  (record.field? name).map Field.value

/-- Assigning a value changes what is found under its name. -/
theorem value?_setValue {record : Record α} {name : String}
    (hdeclared : (record.field? name).isSome = true) (other : String) (value : α) :
    (record.setValue name value).value? other =
      if other = name then some value else record.value? other := by
  obtain ⟨field, hfield⟩ := Option.isSome_iff_exists.mp hdeclared
  rw [value?, field?_setValue]
  split
  · rw [hfield]
    rfl
  · rfl

/-- Declaring a new field adds what is found under its name. -/
theorem value?_put {record : Record α} {name : String}
    (hmissing : (record.field? name).isSome = false) (other : String) (value : α) :
    (record.put { name, value }).value? other =
      if other = name then some value else record.value? other := by
  have hnone : record.field? name = none := by simpa using hmissing
  rw [put, if_neg (by simp [hmissing]), value?, value?, field?, List.find?_append]
  by_cases hother : other = name
  · subst hother
    rw [field?] at hnone
    simp [hnone]
  · rw [if_neg hother, List.find?_singleton, if_neg (by simp [Ne.symm hother]), Option.or_none,
      field?]

end Record

namespace Node

variable {library : Json.Library} {node : Node Schema} {location : Location} {source : Value}
  {given : Entries Value}

/-- A nilable node is not failed by a child: the child is converted or left out. -/
theorem tolerate_of_nilable {α : Type} (hnilable : node.nilable = true)
    (outcome : Except SchemaError α) : node.tolerate outcome = .ok outcome.toOption := by
  cases outcome with
  | ok child => rfl
  | error fault =>
    rw [tolerate, if_pos hnilable]
    rfl

/-! ## Records -/

/-- What a child becomes, by the schema under its name, if it is given and can be converted. -/
def partOf? (library : Json.Library) (location : Location) (given : Entries Value)
    (child : String × Schema) : Option Value :=
  (Entries.get? given child.1).bind fun value =>
    (child.2.convert library false (location.child (.key child.1)) value).toOption

/-- What a declared field becomes, if it is given and can be converted. -/
def fieldOf? (library : Json.Library) (node : Node Schema) (location : Location)
    (given : Entries Value) (name : String) : Option Value :=
  (node.child? name).bind fun part => partOf? library location given (name, part)

/-- Fills a field with what the child becomes, if it becomes something. -/
def fillField (library : Json.Library) (location : Location) (given : Entries Value)
    (aggregate : Record Value) (child : String × Schema) : Record Value :=
  (partOf? library location given child).elim aggregate fun value =>
    if (aggregate.field? child.1).isSome then aggregate.setValue child.1 value
    else aggregate.put { name := child.1, value }

/-- A filled field holds what the child becomes, or what it held before. -/
theorem value?_fillField (aggregate : Record Value) (child : String × Schema) (name : String) :
    (fillField library location given aggregate child).value? name =
      if name = child.1 then (partOf? library location given child).or (aggregate.value? name)
      else aggregate.value? name := by
  rw [fillField]
  cases partOf? library location given child with
  | none => simp
  | some value =>
    rw [Option.elim_some, Option.some_or]
    split <;> rename_i hdeclared
    · exact Record.value?_setValue hdeclared name value
    · exact Record.value?_put (by simpa using hdeclared) name value

/-- After all fields have been filled, each holds what the child of its name becomes, or what it
held before. -/
theorem value?_foldl_fillField {children : Entries Schema}
    (hnames : (Entries.keys children).Nodup) (aggregate : Record Value) (name : String) :
    (children.foldl (fillField library location given) aggregate).value? name =
      ((Entries.get? children name).bind fun part => partOf? library location given (name, part)).or
        (aggregate.value? name) := by
  induction children generalizing aggregate with
  | nil => rfl
  | cons child rest ih =>
    rw [Entries.keys, List.map_cons, List.nodup_cons] at hnames
    rw [List.foldl_cons, ih hnames.2, value?_fillField]
    obtain ⟨key, part⟩ := child
    by_cases hname : key = name
    · subst hname
      have hlater : Entries.get? rest key = none := by
        rw [← Option.not_isSome_iff_eq_none]
        exact fun hsome => hnames.1 ((Entries.contains_iff_mem_keys rest key).mp hsome)
      simp [Entries.get?, hlater]
    · simp [Entries.get?, hname, Ne.symm hname]

/-- A nilable record is filled child by child, each for itself. -/
theorem fillRecord_of_nilable (hnilable : node.nilable = true) (aggregate : Record Value) :
    node.fillRecord (fun part _ => part.convert library) location given aggregate =
      .ok (node.children.foldl (fillField library location given) aggregate) := by
  refine (Outcome.foldlM_eq_foldl
    (f := fun done child => fillField library location given done child.1)
    (fun done child _ => ?_) aggregate).trans (by rw [List.foldl_attach])
  simp only [tolerate_of_nilable hnilable, fillField, partOf?]
  cases Entries.get? given child.1.1 with
  | none => rfl
  | some value =>
    simp only [Option.bind_some]
    cases child.1.2.convert library false (location.child (.key child.1.1)) value with
    | error fault => rfl
    | ok converted => exact (apply_ite Except.ok _ _ _).symm

/-- A nilable record node converts a source with named children, to its zero record with the
children that can be converted. -/
theorem convertRecord_of_nilable {aggregate : Record Value} (hnilable : node.nilable = true)
    (hzero : node.zero = .record aggregate) (hgiven : source.namedChildren? = some given) :
    node.convertRecord (fun part _ => part.convert library) false location source =
      .ok (.record (node.children.foldl (fillField library location given) aggregate)) := by
  simp [convertRecord, hgiven, hzero, fillRecord_of_nilable hnilable, Except.map]

/-! ## Maps -/

/-- What an entry becomes, if it can be converted. -/
def entryOf? (library : Json.Library) (node : Node Schema) (location : Location)
    (child : String × Value) : Option (String × Value) :=
  (node.convertEntry (fun part _ => part.convert library) false (location.child (.key child.1))
    child.1 child.2).toOption

/-- A nilable map node converts a source with named children, to the entries that can be
converted. -/
theorem convertMap_of_nilable (hnilable : node.nilable = true)
    (hgiven : source.namedChildren? = some given) :
    node.convertMap (fun part _ => part.convert library) false location source =
      .ok (.map (Entries.ofList (given.filterMap (node.entryOf? library location)))) := by
  simp only [convertMap, hgiven, tolerate_of_nilable hnilable]
  rw [Outcome.foldlM_eq_foldl (f := fun entries child =>
      (node.entryOf? library location child).elim entries fun pair =>
        Entries.insert entries pair.1 pair.2)]
  · rw [Entries.ofList, List.foldl_filterMap]
    refine congrArg (fun fill => Except.ok (Value.map (given.foldl fill []))) ?_
    funext entries child
    cases node.entryOf? library location child <;> rfl
  · intro entries child _
    rw [entryOf?]
    cases node.convertEntry (fun part _ => part.convert library) false
      (location.child (.key child.1)) child.1 child.2 <;> rfl

/-! ## Lists -/

/-- What an element becomes, if it can be converted. -/
def itemOf? (library : Json.Library) (node : Node Schema) (location : Location)
    (item : Value × Nat) : Option Value :=
  (node.convertItem (fun part _ => part.convert library) location item.2 item.1).toOption

/-- A nilable node converts elements one by one, each for itself. -/
theorem convertItems_of_nilable (hnilable : node.nilable = true) (items : Array Value) :
    node.convertItems (fun part _ => part.convert library) location items =
      .ok (items.toList.zipIdx.foldl (fun done item => (node.itemOf? library location item).elim
        (if node.kind = .array then done.push (node.zeroAt item.2) else done) done.push) #[]) := by
  simp only [convertItems, tolerate_of_nilable hnilable]
  refine Outcome.foldlM_eq_foldl (fun done item _ => ?_) #[]
  rw [itemOf?]
  cases node.convertItem (fun part _ => part.convert library) location item.2 item.1 <;> rfl

/-- A nilable list node converts a list to the elements that can be converted. -/
theorem convertList_of_list (hnilable : node.nilable = true) (hkind : node.kind = .list)
    (sequence : Sequence Value) :
    node.convertList (fun part _ => part.convert library) location (.list sequence) =
      .ok (.ofItems
        (sequence.items.toList.zipIdx.filterMap (node.itemOf? library location)).toArray) := by
  have hitems : node.convertItems (fun part _ => part.convert library) location sequence.items =
      .ok (sequence.items.toList.zipIdx.filterMap (node.itemOf? library location)).toArray := by
    have hpush : ∀ kept : List Value, kept.toArray = kept.foldl Array.push #[] := by simp
    rw [convertItems_of_nilable hnilable, hpush (List.filterMap _ _), List.foldl_filterMap]
    refine congrArg (fun fill => Except.ok (List.foldl fill #[] sequence.items.toList.zipIdx)) ?_
    funext done item
    rw [hkind]
    cases node.itemOf? library location item <;> rfl
  simp [convertList, hkind, hitems, bind, Except.bind, Value.ofItems]

/-- A nilable array node converts a list that is not longer than the array, to a slot for each
element: what the element becomes, or the zero value if it cannot be converted. -/
theorem convertList_of_array (hnilable : node.nilable = true) (hkind : node.kind = .array)
    {sequence : Sequence Value}
    (hlength : sequence.items.size ≤ node.length?.getD sequence.items.size) :
    node.convertList (fun part _ => part.convert library) location (.list sequence) =
      .ok (.list ((Sequence.fixed (sequence.items.toList.zipIdx.map fun item =>
        (node.itemOf? library location item).getD (node.zeroAt item.2)).toArray).pad
          (node.length?.getD sequence.items.size) node.zeroAt)) := by
  have hitems : node.convertItems (fun part _ => part.convert library) location sequence.items =
      .ok (sequence.items.toList.zipIdx.map fun item =>
        (node.itemOf? library location item).getD (node.zeroAt item.2)).toArray := by
    have hslot (done : Array Value) (item : Value × Nat) :
        (node.itemOf? library location item).elim (done.push (node.zeroAt item.2)) done.push =
          done.push ((node.itemOf? library location item).getD (node.zeroAt item.2)) := by
      cases node.itemOf? library location item <;> rfl
    simp only [convertItems_of_nilable hnilable, if_pos hkind, hslot, List.foldl_push_eq_append,
      Array.empty_append]
  simp [convertList, hkind, hitems, Nat.not_lt.mpr hlength, bind, Except.bind]

/-! ## What is left out -/

/-- The node makes something of every source of this shape, whatever the children of the source
are. -/
inductive TakesShape (node : Node Schema) : Value → Prop
  /-- A record node makes a record of named children, if its zero value is one. -/
  | record {source : Value} {aggregate : Record Value} (hkind : node.kind = .record)
      (hzero : node.zero = .record aggregate) (hgiven : source.namedChildren?.isSome = true) :
      TakesShape node source
  /-- A map node makes a map of named children. -/
  | map {source : Value} (hkind : node.kind = .map)
      (hgiven : source.namedChildren?.isSome = true) : TakesShape node source
  /-- A list node makes a list of a list. -/
  | list {sequence : Sequence Value} (hkind : node.kind = .list) :
      TakesShape node (.list sequence)
  /-- An array node makes an array of a list that is not longer. -/
  | array {sequence : Sequence Value} (hkind : node.kind = .array)
      (hlength : sequence.items.size ≤ node.length?.getD sequence.items.size) :
      TakesShape node (.list sequence)

/-- The value is what the node makes of the source by converting each child for itself and leaving
out those that cannot be converted. -/
inductive LeavesOut (library : Json.Library) (node : Node Schema) (location : Location) :
    Value → Value → Prop
  /-- A field that is left out holds what the zero value of the node has there. -/
  | record {source : Value} {given : Entries Value} {aggregate made : Record Value}
      (hkind : node.kind = .record) (hgiven : source.namedChildren? = some given)
      (hzero : node.zero = .record aggregate)
      (hfields : ∀ name, made.value? name =
        (node.fieldOf? library location given name).or (aggregate.value? name)) :
      LeavesOut library node location source (.record made)
  /-- An entry that is left out is missing. -/
  | map {source : Value} {given : Entries Value} (hkind : node.kind = .map)
      (hgiven : source.namedChildren? = some given) :
      LeavesOut library node location source
        (.map (Entries.ofList (given.filterMap (node.entryOf? library location))))
  /-- An element of a list that is left out is missing. -/
  | list {sequence : Sequence Value} (hkind : node.kind = .list) :
      LeavesOut library node location (.list sequence)
        (.ofItems (sequence.items.toList.zipIdx.filterMap (node.itemOf? library location)).toArray)
  /-- The slot of an element that is left out holds the zero value of the element. -/
  | array {sequence : Sequence Value} (hkind : node.kind = .array) :
      LeavesOut library node location (.list sequence)
        (.list ((Sequence.fixed (sequence.items.toList.zipIdx.map fun item =>
          (node.itemOf? library location item).getD (node.zeroAt item.2)).toArray).pad
            (node.length?.getD sequence.items.size) node.zeroAt))

theorem convertWith_of_list {convertPart : node.EachPart Convert} {sequence : Sequence Value}
    (hconverter : node.converter? = none) (hsource : source.target = .list sequence)
    (strict : Bool) :
    node.convertWith library convertPart strict location source =
      node.convertPresent convertPart strict location (.list sequence) := by
  rw [convertWith, hconverter, hsource]
  rfl

end Node

namespace Schema

open Node

variable {library : Json.Library} {node : Node Schema}

/-- A nilable node without a converter of its own is not failed by the children of the source: it
converts every source of its shape, and leaves out the children that cannot be converted.  A node
for references converts what is there exactly as its pointee does, faults included. -/
theorem exists_convert_of_nilable (hnilable : node.nilable = true)
    (hconverter : node.converter? = none) (hnames : (Entries.keys node.children).Nodup)
    (location : Location) (source : Value) :
    (node.TakesShape source.target → ∃ made,
      (Schema.single node).convert library false location source = .ok made ∧
        node.LeavesOut library location source.target made) ∧
    (node.kind = .ref → source.target.isAbsent = false →
      (∀ part, node.pointee? = some part →
        (Schema.single node).convert library false location source =
          (part.convert library false location source.target).map .ref) ∧
      (node.pointee? = none →
        (Schema.single node).convert library false location source = .ok (.ref source.target))) := by
  rw [convert_single]
  constructor
  · generalize hsource : source.target = target
    intro hshape
    cases hshape with
    | record hkind hzero hgiven =>
      obtain ⟨given, hgiven⟩ := Option.isSome_iff_exists.mp hgiven
      subst hsource
      refine ⟨_, ?_, .record hkind hgiven hzero (value?_foldl_fillField hnames _)⟩
      rw [convertWith_of_named hconverter hgiven, convertPresent, hkind]
      exact convertRecord_of_nilable hnilable hzero hgiven
    | map hkind hgiven =>
      obtain ⟨given, hgiven⟩ := Option.isSome_iff_exists.mp hgiven
      subst hsource
      refine ⟨_, ?_, .map hkind hgiven⟩
      rw [convertWith_of_named hconverter hgiven, convertPresent, hkind]
      exact convertMap_of_nilable hnilable hgiven
    | list hkind =>
      refine ⟨_, ?_, .list hkind⟩
      rw [convertWith_of_list hconverter hsource, convertPresent, hkind]
      exact convertList_of_list hnilable hkind _
    | array hkind hlength =>
      refine ⟨_, ?_, .array hkind⟩
      rw [convertWith_of_list hconverter hsource, convertPresent, hkind]
      exact convertList_of_array hnilable hkind hlength
  · intro hkind hthere
    have hcontainer : node.kind.isContainer = false := by rw [hkind]; rfl
    rw [convertWith_of_no_container hconverter hcontainer hthere, convertPresent, hkind]
    dsimp only
    constructor
    · intro part hpart
      split <;> rename_i hfound
      · rw [Option.some.inj (hpart.symm.trans hfound)]
      · cases hpart.symm.trans hfound
    · intro hnone
      split <;> rename_i hfound
      · cases hnone.symm.trans hfound
      · rfl

/-- A service that may be absent is converted although its port and one of its tags are maps: the
port keeps its zero value and the tag is left out. -/
theorem exists_convert_of_nilable_service :
    let tags : Schema :=
      .single { shape := .list (some (.single { shape := .string })), nilable := true }
    let node : Node Schema :=
      { shape := .record, nilable := true,
        children := [("port", .single { shape := .int }), ("tags", tags)] }
    let given : Entries Value :=
      [("port", .map []), ("tags", .ofItems #[.text "a", .map [], .text "b"])]
    let source : Value := .ref (.map given)
    node.TakesShape source.target ∧
      ∃ made, (Schema.single node).convert Json.exact false [] source = .ok (.record made) ∧
        made.value? "port" = some (.int 0) ∧
        made.value? "tags" = some (.ofItems #[.text "a", .text "b"]) := by
  intro tags node given source
  have hzero : node.zero = .record { name := "", fields :=
      [{ name := "port", value := .int 0 }, { name := "tags", value := .ofItems #[] }] } := by
    simp only [node, tags]
    cbv
  have hport : node.fieldOf? Json.exact [] given "port" = none := by
    simp only [node, tags, given]
    cbv
  have htags : node.fieldOf? Json.exact [] given "tags" =
      some (.ofItems #[.text "a", .text "b"]) := by
    simp only [node, tags, given]
    cbv
  have hnamed : source.target.namedChildren? = some given := rfl
  have hshape : node.TakesShape source.target := .record rfl hzero rfl
  have hnames : (Entries.keys node.children).Nodup := by
    decide
  obtain ⟨value, hconvert, hleaves⟩ :=
    (exists_convert_of_nilable rfl rfl hnames [] source).1 hshape
  generalize hsource : source.target = target at hleaves
  cases hleaves with
  | map hkind => cases hkind
  | list hkind => cases hkind
  | array hkind => cases hkind
  | record _ hgiven haggregate hfields =>
    subst hsource
    obtain rfl := Option.some.inj (hgiven.symm.trans hnamed)
    obtain rfl := Value.record.inj (haggregate.symm.trans hzero)
    refine ⟨hshape, _, hconvert, ?_, ?_⟩
    · rw [hfields, hport]
      rfl
    · rw [hfields, htags]
      rfl

/-- A reference that may be absent is failed by what it refers to; nothing is left out. -/
theorem convert_nilable_reference :
    let node : Node Schema :=
      { shape := .ref (some (.single { shape := .int })), nilable := true }
    node.nilable = true ∧ node.converter? = none ∧
      (Value.map []).target.isAbsent = false ∧
      (Schema.single node).convert Json.exact false [] (.map []) ≠ .ok .nilRef ∧
      ((Schema.single node).convert Json.exact false [] (.map [])).isOk = false := by
  intro node
  have hfailed : ((Schema.single node).convert Json.exact false [] (.map [])).isOk = false := by
    simp only [node]
    cbv
  refine ⟨rfl, rfl, rfl, fun hnil => ?_, hfailed⟩
  rw [hnil] at hfailed
  cases hfailed

end Schema

end NestedData
