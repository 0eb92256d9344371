import NestedData.Proofs.Value.WellFormed

/-!
# Containers that are put together

This module says what a container holds after a child was added to it: what it held
before, and the new child.  Nothing else about the other children changes.

Main results:

- `Entries.mem_insert`, `Record.mem_fields_setValue`, `Record.mem_fields_put`: where an
  entry or a field comes from.
- `Sequence.getElem?_pad`: where an element of a padded list comes from.
- `Entries.ofList_of_nodup`, `Record.ofFields_of_nodup`: entries under distinct keys and fields of
  distinct names are put together as they are.
- `Record.mem_fields_ofFields`, `Record.mem_names_ofFields`, `Record.nodup_names_ofFields`:
  the fields of a record that is made of a list of fields.
-/

namespace NestedData

variable {α : Type}

/-! ## Entries and elements -/

/-- After an insertion, an entry is the inserted one or one of the others. -/
theorem Entries.mem_insert {entries : Entries α} {key : String} {value : α} {entry : String × α}
    (hmem : entry ∈ Entries.insert entries key value) :
    entry = (key, value) ∨ entry ∈ entries := by
  induction entries with
  | nil => simpa [Entries.insert] using hmem
  | cons head rest ih =>
    rw [Entries.insert] at hmem
    split at hmem
    · rename_i hsame
      rcases List.mem_cons.mp hmem with rfl | hlater
      · exact Or.inl (by rw [hsame])
      · exact Or.inr (List.mem_cons_of_mem _ hlater)
    · rcases List.mem_cons.mp hmem with rfl | hlater
      · exact Or.inr List.mem_cons_self
      · rcases ih hlater with hsame | hother
        · exact Or.inl hsame
        · exact Or.inr (List.mem_cons_of_mem _ hother)

/-- An entry under a new key is added at the end. -/
theorem Entries.insert_of_not_mem {entries : Entries α} {key : String}
    (hkey : key ∉ Entries.keys entries) (value : α) :
    Entries.insert entries key value = entries ++ [(key, value)] := by
  induction entries with
  | nil => rfl
  | cons head rest ih =>
    obtain ⟨hhead, hrest⟩ := not_or.mp (mt List.mem_cons.mpr hkey)
    rw [Entries.insert, if_neg (Ne.symm hhead), ih hrest]
    rfl

/-- Entries under distinct keys, inserted one after the other, are these entries. -/
theorem Entries.ofList_of_nodup {entries : Entries α} (hkeys : (Entries.keys entries).Nodup) :
    Entries.ofList entries = entries := by
  have hfold (rest : Entries α) : ∀ done : Entries α, (Entries.keys (done ++ rest)).Nodup →
      rest.foldl (fun entries pair => Entries.insert entries pair.1 pair.2) done = done ++ rest := by
    induction rest with
    | nil => simp
    | cons head rest ih =>
      intro done hnodup
      have hmissing : head.1 ∉ Entries.keys done := by
        rw [Entries.keys, List.map_append] at hnodup
        intro hmem
        exact (List.nodup_append.mp hnodup).2.2 _ hmem _ List.mem_cons_self rfl
      rw [List.foldl_cons, Entries.insert_of_not_mem hmissing, ih _ (by simpa using hnodup),
        List.append_assoc]
      rfl
  exact hfold entries [] hkeys

/-- An element of a padded list is one of the elements of the list, or what fills its
position. -/
theorem Sequence.getElem?_pad {sequence : Sequence α} {length : Nat} {fill : Nat → α}
    {position : Nat} {item : α}
    (hitem : (sequence.pad length fill).items[position]? = some item) :
    sequence.items[position]? = some item ∨ item = fill position := by
  have hfold (count : Nat) : ∀ items : Array α,
      ((List.range' items.size count).foldl (fun items index => items.push (fill index))
        items)[position]? = some item → items[position]? = some item ∨ item = fill position := by
    induction count with
    | zero =>
      intro items hitem
      exact Or.inl hitem
    | succ count ih =>
      intro items hitem
      rw [List.range'_succ, List.foldl_cons] at hitem
      have hnext := ih (items.push (fill items.size)) (by rwa [Array.size_push])
      rcases hnext with hnext | hfilled
      · rw [Array.getElem?_push] at hnext
        split at hnext
        · rename_i hlast
          cases hnext
          exact Or.inr (by rw [hlast])
        · exact Or.inl hnext
      · exact Or.inr hfilled
  exact hfold _ _ hitem

/-! ## Fields -/

namespace Record

theorem isSome_field?_iff {record : Record α} {name : String} :
    (record.field? name).isSome = true ↔ name ∈ record.names := by
  simp [field?, names]

/-- After a field was changed, a field is one of the others or the changed one. -/
theorem mem_fields_modifyField {record : Record α} {name : String} {f : Field α → Field α}
    {field : Field α} (hmem : field ∈ (record.modifyField name f).fields) :
    field ∈ record.fields ∨ ∃ old ∈ record.fields, old.name = name ∧ field = f old := by
  rcases record with ⟨typeName, fields⟩
  simp only [modifyField] at hmem ⊢
  induction fields with
  | nil => simp [modifyField.go] at hmem
  | cons head rest ih =>
    rw [modifyField.go] at hmem
    split at hmem
    · rename_i hsame
      rcases List.mem_cons.mp hmem with rfl | hlater
      · exact Or.inr ⟨head, List.mem_cons_self, hsame, rfl⟩
      · exact Or.inl (List.mem_cons_of_mem _ hlater)
    · rcases List.mem_cons.mp hmem with rfl | hlater
      · exact Or.inl List.mem_cons_self
      · rcases ih hlater with hother | ⟨old, hold, hchanged⟩
        · exact Or.inl (List.mem_cons_of_mem _ hother)
        · exact Or.inr ⟨old, List.mem_cons_of_mem _ hold, hchanged⟩

/-- A change that keeps the name of the changed field keeps all names. -/
theorem names_modifyField (record : Record α) {name : String} {f : Field α → Field α}
    (hname : ∀ field, field.name = name → (f field).name = name) :
    (record.modifyField name f).names = record.names := by
  rcases record with ⟨typeName, fields⟩
  simp only [modifyField, names]
  induction fields with
  | nil => rfl
  | cons head rest ih =>
    rw [modifyField.go]
    split
    · rename_i hsame
      rw [List.map_cons, List.map_cons, hname head hsame, hsame]
    · rw [List.map_cons, List.map_cons, ih]

/-- After an assignment, a field is one of the others, or the assigned one with the value. -/
theorem mem_fields_setValue {record : Record α} {name : String} {value : α} {field : Field α}
    (hmem : field ∈ (record.setValue name value).fields) :
    field ∈ record.fields ∨
      ∃ old ∈ record.fields, old.name = name ∧ field = { old with value } :=
  mem_fields_modifyField hmem

/-- After a declaration, a field is the declared one or one of the others. -/
theorem mem_fields_put {record : Record α} {field other : Field α}
    (hmem : other ∈ (record.put field).fields) : other = field ∨ other ∈ record.fields := by
  unfold put at hmem
  split at hmem
  · rcases mem_fields_modifyField hmem with hother | ⟨old, _, _, rfl⟩
    · exact Or.inr hother
    · exact Or.inl rfl
  · rcases List.mem_append.mp hmem with hother | hlast
    · exact Or.inr hother
    · exact Or.inl (List.mem_singleton.mp hlast)

/-- After a declaration, a name is that of the declared field or one of the others. -/
theorem mem_names_put {record : Record α} {field : Field α} {name : String} :
    name ∈ (record.put field).names ↔ name ∈ record.names ∨ name = field.name := by
  unfold put
  split
  · rename_i hfound
    rw [isSome_field?_iff] at hfound
    rw [names_modifyField record fun _ _ => rfl]
    constructor
    · intro hmem
      exact Or.inl hmem
    · rintro (hmem | rfl)
      · exact hmem
      · exact hfound
  · simp [names]

/-- Names stay distinct when a field is declared. -/
theorem nodup_names_put {record : Record α} (hnames : record.names.Nodup) (field : Field α) :
    (record.put field).names.Nodup := by
  unfold put
  split
  · rwa [names_modifyField record fun _ _ => rfl]
  · rename_i habsent
    rw [isSome_field?_iff] at habsent
    simp only [names, List.map_append, List.map_singleton]
    apply List.nodup_append.mpr
    refine ⟨hnames, List.nodup_singleton _, fun one hone other hother hsame => ?_⟩
    rw [List.mem_singleton] at hother
    exact habsent (hother ▸ hsame ▸ hone)

@[simp]
theorem name_put (record : Record α) (field : Field α) : (record.put field).name = record.name := by
  unfold put
  split <;> rfl

/-! ## Records made of a list of fields -/

@[simp]
theorem name_ofFields (name : String) (fields : List (Field α)) :
    (ofFields name fields).name = name := by
  unfold ofFields
  refine List.foldlRecOn (motive := fun record => record.name = name) fields put ?_ ?_
  · rfl
  · intro record hname field _
    rw [name_put, hname]

/-- The fields of a record made of fields are among these. -/
theorem mem_fields_ofFields {name : String} {fields : List (Field α)} {field : Field α} :
    field ∈ (ofFields name fields).fields → field ∈ fields := by
  unfold ofFields
  refine List.foldlRecOn (motive := fun record => field ∈ record.fields → field ∈ fields)
    fields put ?_ ?_
  · intro hmem
    simp at hmem
  · intro record hrecord other hother hmem
    rcases mem_fields_put hmem with rfl | hmem
    · exact hother
    · exact hrecord hmem

/-- The names of a record made of fields are distinct. -/
theorem nodup_names_ofFields (name : String) (fields : List (Field α)) :
    (ofFields name fields).names.Nodup := by
  unfold ofFields
  refine List.foldlRecOn (motive := fun record => record.names.Nodup) fields put ?_ ?_
  · exact List.nodup_nil
  · intro record hrecord field _
    exact nodup_names_put hrecord field

/-- A record made of fields declares the names of them all. -/
theorem mem_names_ofFields {typeName name : String} {fields : List (Field α)} :
    name ∈ (ofFields typeName fields).names ↔ ∃ field ∈ fields, field.name = name := by
  have hfold (fields : List (Field α)) : ∀ record : Record α,
      name ∈ (fields.foldl put record).names ↔
        name ∈ record.names ∨ ∃ field ∈ fields, field.name = name := by
    induction fields with
    | nil => simp
    | cons field rest ih =>
      intro record
      rw [List.foldl_cons, ih, mem_names_put, or_assoc, List.exists_mem_cons_iff]
      rw [eq_comm (a := name)]
  rw [ofFields, hfold]
  simp [names]

/-- Fields of distinct names, declared one after the other, are the fields of the record. -/
theorem ofFields_of_nodup {typeName : String} {fields : List (Field α)}
    (hnames : (fields.map Field.name).Nodup) :
    ofFields typeName fields = { name := typeName, fields } := by
  have hfold (rest : List (Field α)) : ∀ done : List (Field α),
      ((done ++ rest).map Field.name).Nodup →
        rest.foldl put { name := typeName, fields := done } =
          { name := typeName, fields := done ++ rest } := by
    induction rest with
    | nil => simp
    | cons field rest ih =>
      intro done hnodup
      have hmissing : ¬ (field? { name := typeName, fields := done } field.name).isSome = true := by
        rw [isSome_field?_iff]
        rw [List.map_append] at hnodup
        intro hmem
        exact (List.nodup_append.mp hnodup).2.2 _ hmem _ List.mem_cons_self rfl
      rw [List.foldl_cons, put, if_neg hmissing, ih _ (by simpa using hnodup), List.append_assoc]
      rfl
  exact hfold fields [] hnames

end Record

end NestedData
