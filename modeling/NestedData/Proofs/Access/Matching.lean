import NestedData.Access.Select
import NestedData.Proofs.Value.Places

/-!
# What a path matches

This module gives paths their meaning without following them: it says which steps
a segment selects from a container, to which places a group of segments leads, and
which places a path matches.  A search leads through an arbitrary run of steps
before its group applies.  The selection that the traversals share is shown to
agree with it.

Main results:

- `Segment.mem_steps_iff`: the steps a segment picks are those it selects.
- `Selection.steps_of_select`: whatever the circumstances, a selection that is not
  a fault and creates nothing picks these steps.
- `Segment.nodup_steps`: a segment picks no child twice, unless it is a union that
  names one twice.
- `Selection.cases_of_single`: a segment for one child selects one that it denotes, or
  nothing.
-/

namespace NestedData

/-! ## What a segment selects -/

/-- The entry of a union names the child that a step of a container leads to: a
name means entries and fields, a position means elements and the entry under the
position in decimal. -/
def Selector.Names (selector : Selector) (container : Value) (step : Step) : Prop :=
  match selector, container, step with
  | .key name, .map _, .key other => other = name
  | .key name, .record _, .key other => other = name
  | .index position, .map _, .key other => other = Text.ofNat position
  | .index position, .list _, .index other => other = position
  | _, _, _ => False

/-- The segment selects the child that a step of a container leads to. -/
def Segment.Selects (segment : Segment) (container : Value) (step : Step) : Prop :=
  (container.child? step).isSome = true ∧
    match segment with
    | .root => False
    | .key name => (Selector.key name).Names container step
    | .wildcard => True
    | .index position => (Selector.index position).Names container step
    | .union entries => ∃ entry ∈ entries, entry.Names container step
    | .slice start stop width =>
      match container, step with
      | .list sequence, .index position =>
        position ∈ sliceIndices start stop width sequence.size
      | _, _ => False

/-! ## What a path matches -/

/-- The segments lead from a value along some steps to another, one step for every
segment other than the root mark. -/
inductive Leads : List Segment → Value → Location → Value → Prop
  /-- Without segments there are no steps. -/
  | done (value : Value) : Leads [] value [] value.target
  /-- The root mark takes no step. -/
  | root {rest : List Segment} {value final : Value} {steps : Location}
      (hrest : Leads rest value steps final) : Leads (.root :: rest) value steps final
  /-- A segment takes a step to a child that it selects. -/
  | step {segment : Segment} {rest : List Segment} {value child final : Value} {step : Step}
      {steps : Location} (hselects : segment.Selects value.target step)
      (hchild : value.target.child? step = some child) (hrest : Leads rest child steps final) :
      Leads (segment :: rest) value (step :: steps) final

/-- The groups searched for lead from a value along some steps to another, each of
them after an arbitrary run of steps. -/
inductive SearchLeads : List (List Segment) → Value → Location → Value → Prop
  /-- Without searches there are no steps. -/
  | done (value : Value) : SearchLeads [] value [] value.target
  /-- A search runs to some place, from where its group leads on. -/
  | search {group : List Segment} {rest : List (List Segment)} {value start middle final : Value}
      {run own later : Location} (hrun : value.valueAt? run = some start)
      (hown : Leads group start own middle) (hlater : SearchLeads rest middle later final) :
      SearchLeads (group :: rest) value (run ++ (own ++ later)) final

/-- The path matches a place inside a value: the steps to it can be cut into those
of the first group and those of the searches. -/
def Path.Matches (path : Path) (root : Value) (location : Location) : Prop :=
  ∃ own later middle final, location = own ++ later ∧
    Leads path.first root own middle ∧ SearchLeads path.searches middle later final

/-- No union of the path names a child twice, where a position counts as the name
that it is in decimal. -/
def Path.UnionsDistinct (path : Path) : Prop :=
  ∀ entries, .union entries ∈ path.segments → (entries.map Selection.keyOf).Nodup

/-! ## Leading from place to place -/

namespace Leads

variable {segments : List Segment} {value final : Value} {steps : Location}

theorem valueAt (hleads : Leads segments value steps final) :
    value.valueAt? steps = some final := by
  induction hleads with
  | done value => rfl
  | root _ ih => exact ih
  | step _ hchild _ ih => simp [Value.valueAt?, hchild, ih]

/-- There is a step for every segment other than the root mark. -/
theorem length_eq (hleads : Leads segments value steps final) :
    steps.length = (segments.filter (· != .root)).length := by
  induction hleads with
  | done value => rfl
  | root _ ih => simpa using ih
  | @step segment rest value child final step steps hselects _ _ ih =>
    have hsegment : segment ≠ .root := by
      rintro rfl
      exact hselects.2
    rw [List.filter_cons_of_pos (by simpa using hsegment), List.length_cons, List.length_cons, ih]

end Leads

theorem SearchLeads.valueAt {searches : List (List Segment)} {value final : Value}
    {steps : Location} (hleads : SearchLeads searches value steps final) :
    value.valueAt? steps = some final := by
  induction hleads with
  | done value => rfl
  | search hrun hown _ ih =>
    rw [Value.valueAt?_append, hrun, Option.bind_some, Value.valueAt?_append, hown.valueAt,
      Option.bind_some, ih]

/-! ## The steps that a segment picks -/

/-- The circumstances under which a miss is no fault and nothing is created. -/
def Selection.tolerant : Selection where
  operation := .forEach
  location := []
  strict := false
  create := false
  searching := true

namespace Segment

/-- The steps that a segment picks from a container when misses are passed over. -/
def steps (segment : Segment) (container : Value) : List Step :=
  match Selection.tolerant.select container segment with
  | .ok steps => steps
  | .error _ => []

variable {segment : Segment} {step : Step}

/-! ### The steps for each kind of container -/

/-- The entries of a map that a segment picks. -/
theorem steps_map (segment : Segment) (entries : Entries Value) :
    segment.steps (.map entries) =
      match segment with
      | .key name => if Entries.contains entries name then [.key name] else []
      | .index position =>
        if Entries.contains entries (Text.ofNat position) then [.key (Text.ofNat position)] else []
      | .wildcard => (Entries.keys entries).map .key
      | .union selectors =>
        ((selectors.map Selection.keyOf).filter (Entries.contains entries)).map .key
      | .slice .. | .root => [] := by
  cases segment with
  | key name =>
    cases hpresent : Entries.contains entries name <;>
      simp [steps, Selection.select, Selection.selectInMap, Selection.selectEntry, Selection.miss,
        Selection.tolerant, hpresent]
  | index position =>
    cases hpresent : Entries.contains entries (Text.ofNat position) <;>
      simp [steps, Selection.select, Selection.selectInMap, Selection.selectEntry, Selection.miss,
        Selection.tolerant, hpresent]
  | _ =>
    simp [steps, Selection.select, Selection.selectInMap, Selection.miss, Selection.tolerant]

/-- The fields of a record that a segment picks. -/
theorem steps_record (segment : Segment) (aggregate : Record Value) :
    segment.steps (.record aggregate) =
      match segment with
      | .key name => if (aggregate.get? name).isSome then [.key name] else []
      | .wildcard => aggregate.exportedFields.map fun field => .key field.name
      | .union selectors => selectors.filterMap (Selection.fieldOf? aggregate)
      | .index _ | .slice .. | .root => [] := by
  cases segment with
  | key name =>
    unfold steps Selection.select Selection.selectInRecord Record.get?
    cases hfield : aggregate.field? name with
    | none => simp [Selection.miss, Selection.tolerant, hfield]
    | some field =>
      cases hexported : field.exported <;> simp [Selection.tolerant, hfield, hexported]
  | _ =>
    simp [steps, Selection.select, Selection.selectInRecord, Selection.miss, Selection.tolerant]

/-- The elements of a list that a segment picks. -/
theorem steps_list (segment : Segment) (sequence : Sequence Value) :
    segment.steps (.list sequence) =
      match segment with
      | .index position => if position < sequence.size then [.index position] else []
      | .wildcard => (List.range sequence.size).map .index
      | .union selectors =>
        selectors.filterMap (Selection.tolerant.positionOf? sequence)
      | .slice start stop step => (sliceIndices start stop step sequence.size).map .index
      | .key _ | .root => [] := by
  have hreaches (position : Nat) :
      Selection.tolerant.reaches sequence position = decide (position < sequence.size) := by
    simp [Selection.reaches, Selection.mayGrow, Selection.tolerant]
  cases segment with
  | index position =>
    have hgrow : Selection.tolerant.mayGrow sequence = false := by
      simp [Selection.mayGrow, Selection.tolerant]
    have hmiss (obstacle : Obstacle) :
        Selection.tolerant.miss (.list sequence) obstacle = .ok [] :=
      Selection.miss_of_lenient rfl _ _
    by_cases hinside : position < sequence.size <;>
      simp [steps, Selection.select, Selection.selectInList, hreaches, hgrow, hinside, hmiss]
  | slice start stop step =>
    have hlength : Selection.tolerant.sliceLength sequence stop = sequence.size := by
      cases stop <;> simp [Selection.sliceLength, Selection.mayGrow, Selection.tolerant]
    have hall : (sliceIndices start stop step sequence.size).filter
        (Selection.tolerant.reaches sequence) = sliceIndices start stop step sequence.size := by
      rw [List.filter_eq_self]
      intro position hmem
      rw [hreaches]
      exact decide_eq_true (sliceIndices_lt_length hmem)
    simp only [steps, Selection.select, Selection.selectInList, hlength, hall]
  | _ =>
    simp [steps, Selection.select, Selection.selectInList, Selection.miss, Selection.tolerant]

theorem steps_of_scalar (segment : Segment) {value : Value} (hmap : ∀ entries, value ≠ .map entries)
    (hrecord : ∀ aggregate, value ≠ .record aggregate)
    (hlist : ∀ sequence, value ≠ .list sequence) : segment.steps value = [] := by
  cases value with
  | map entries => exact absurd rfl (hmap entries)
  | record aggregate => exact absurd rfl (hrecord aggregate)
  | list sequence => exact absurd rfl (hlist sequence)
  | _ => rfl

/-! ### The steps picked are those selected -/

theorem names_map_iff {selector : Selector} {entries : Entries Value} :
    selector.Names (.map entries) step ↔ step = .key (Selection.keyOf selector) := by
  cases selector <;> cases step <;> simp [Selector.Names, Selection.keyOf]

theorem names_record_iff {name : String} {aggregate : Record Value} :
    (Selector.key name).Names (.record aggregate) step ↔ step = .key name := by
  cases step <;> simp [Selector.Names]

theorem names_list_iff {position : Nat} {sequence : Sequence Value} :
    (Selector.index position).Names (.list sequence) step ↔ step = .index position := by
  cases step <;> simp [Selector.Names]

/-- One step is picked if there is a child, and no other. -/
theorem mem_ite_child?_iff {container : Value} {other : Step} {present : Prop} [Decidable present]
    (hdecides : present ↔ (container.child? other).isSome = true) :
    step ∈ (if present then [other] else []) ↔
      (container.child? step).isSome = true ∧ step = other := by
  rw [List.mem_ite_nil_right, List.mem_singleton, hdecides]
  constructor
  · rintro ⟨hpresent, rfl⟩
    exact ⟨hpresent, rfl⟩
  · rintro ⟨hpresent, rfl⟩
    exact ⟨hpresent, rfl⟩

/-- The steps that a segment picks from a map are those that it selects. -/
theorem mem_steps_map_iff {entries : Entries Value} :
    step ∈ segment.steps (.map entries) ↔ segment.Selects (.map entries) step := by
  rw [steps_map]
  cases segment with
  | key name =>
    simp only [Selects, names_map_iff]
    exact mem_ite_child?_iff Iff.rfl
  | index position =>
    simp only [Selects, names_map_iff]
    exact mem_ite_child?_iff Iff.rfl
  | union selectors =>
    simp only [Selects, names_map_iff, List.mem_map, List.mem_filter]
    constructor
    · rintro ⟨key, ⟨⟨selector, hselector, rfl⟩, hpresent⟩, rfl⟩
      exact ⟨hpresent, selector, hselector, rfl⟩
    · rintro ⟨hpresent, selector, hselector, rfl⟩
      exact ⟨Selection.keyOf selector, ⟨⟨selector, hselector, rfl⟩, hpresent⟩, rfl⟩
  | wildcard =>
    have hkeys (name : String) :
        name ∈ Entries.keys entries ↔ (Entries.get? entries name).isSome = true :=
      (Entries.contains_iff_mem_keys entries name).symm
    cases step <;> simp [Selects, Value.child?, hkeys]
  | _ => simp [Selects]

/-- The steps that a segment picks from a record are those that it selects. -/
theorem mem_steps_record_iff {aggregate : Record Value} (hnames : aggregate.names.Nodup) :
    step ∈ segment.steps (.record aggregate) ↔ segment.Selects (.record aggregate) step := by
  rw [steps_record]
  cases segment with
  | key name =>
    simp only [Selects, names_record_iff]
    exact mem_ite_child?_iff Iff.rfl
  | wildcard =>
    have hget (name : String) : (aggregate.get? name).isSome = true ↔
        ∃ field ∈ aggregate.exportedFields, field.name = name := by
      rw [Option.isSome_iff_exists]
      constructor
      · rintro ⟨value, hvalue⟩
        rcases Record.get?_eq_some_iff.mp hvalue with ⟨field, hfield, hexported, _⟩
        rcases Record.mem_of_field? hfield with ⟨hmem, hname⟩
        exact ⟨field, List.mem_filter.mpr ⟨hmem, hexported⟩, hname⟩
      · rintro ⟨field, hmem, rfl⟩
        rcases List.mem_filter.mp hmem with ⟨hmem, hexported⟩
        exact ⟨field.value, Record.get?_eq_some_iff.mpr
          ⟨field, Record.field?_of_mem hnames hmem, hexported, rfl⟩⟩
    cases step <;> simp [Selects, Value.child?, hget]
  | union selectors =>
    have hfield (selector : Selector) : Selection.fieldOf? aggregate selector = some step ↔
        (Value.child? (.record aggregate) step).isSome = true ∧
          selector.Names (.record aggregate) step := by
      cases selector with
      | index position => cases step <;> simp [Selection.fieldOf?, Selector.Names]
      | key name =>
        rw [names_record_iff, ← mem_ite_child?_iff Iff.rfl]
        cases hvalue : aggregate.get? name <;>
          simp [Selection.fieldOf?, Value.child?, hvalue, eq_comm]
    simp only [Selects, List.mem_filterMap, hfield]
    constructor
    · rintro ⟨selector, hselector, hpresent, hnamed⟩
      exact ⟨hpresent, selector, hselector, hnamed⟩
    · rintro ⟨hpresent, selector, hselector, hnamed⟩
      exact ⟨selector, hselector, hpresent, hnamed⟩
  | _ => cases step <;> simp [Selects, Selector.Names]

/-- The steps that a segment picks from a list are those that it selects. -/
theorem mem_steps_list_iff {sequence : Sequence Value} :
    step ∈ segment.steps (.list sequence) ↔ segment.Selects (.list sequence) step := by
  have hinside (position : Nat) : position < sequence.size ↔
      (Value.child? (.list sequence) (.index position)).isSome = true := by
    simp [Value.child?, Sequence.get?, Sequence.size]
  rw [steps_list]
  cases segment with
  | index position =>
    simp only [Selects, names_list_iff]
    exact mem_ite_child?_iff (hinside position)
  | wildcard =>
    cases step <;> simp [Selects, Value.child?, Sequence.get?, Sequence.size]
  | union selectors =>
    have hitem (selector : Selector) :
        Selection.tolerant.positionOf? sequence selector = some step ↔
        (Value.child? (.list sequence) step).isSome = true ∧
          selector.Names (.list sequence) step := by
      cases selector with
      | key name => cases step <;> simp [Selection.positionOf?, Selector.Names]
      | index position =>
        rw [names_list_iff, ← mem_ite_child?_iff (hinside position)]
        simp [Selection.positionOf?, Selection.reaches, Selection.mayGrow, Selection.tolerant,
          eq_comm]
    simp only [Selects, List.mem_filterMap, hitem]
    constructor
    · rintro ⟨selector, hselector, hpresent, hnamed⟩
      exact ⟨hpresent, selector, hselector, hnamed⟩
    · rintro ⟨hpresent, selector, hselector, hnamed⟩
      exact ⟨selector, hselector, hpresent, hnamed⟩
  | slice start stop width =>
    cases step with
    | key name => simp [Selects]
    | index position =>
      simp only [Selects, ← hinside, List.mem_map, Step.index.injEq, exists_eq_right]
      exact ⟨fun hmem => ⟨sliceIndices_lt_length hmem, hmem⟩, And.right⟩
  | _ => cases step <;> simp [Selects, Selector.Names]

/-- The steps that a segment picks from a container are those that it selects. -/
theorem mem_steps_iff {container : Value} (hcontainer : container.WellFormed) :
    step ∈ segment.steps container ↔ segment.Selects container step := by
  cases hcontainer with
  | map hkeys hvalues => exact mem_steps_map_iff
  | record hnames hvalues => exact mem_steps_record_iff hnames
  | list hitems => exact mem_steps_list_iff
  | _ => simp [steps_of_scalar, Selects, Value.child?]

/-- A segment picks no child twice, unless it is a union that names one twice. -/
theorem nodup_steps {container : Value} (hcontainer : container.WellFormed)
    (hdistinct : ∀ entries, segment = .union entries → (entries.map Selection.keyOf).Nodup) :
    (segment.steps container).Nodup := by
  have hsingle {present : Prop} [Decidable present] (step : Step) :
      (if present then [step] else []).Nodup := by
    split <;> simp
  cases hcontainer with
  | @map entries hkeys hvalues =>
    rw [steps_map]
    cases segment with
    | wildcard => exact List.Nodup.map (fun _ _ h => by cases h; rfl) hkeys
    | union selectors =>
      refine List.Nodup.map (fun _ _ h => by cases h; rfl) ?_
      exact (hdistinct selectors rfl).filter _
    | key name => exact hsingle _
    | index position => exact hsingle _
    | _ => exact List.nodup_nil
  | @record aggregate hnames hvalues =>
    rw [steps_record]
    cases segment with
    | key name => exact hsingle _
    | wildcard =>
      have hdistinctSteps : (Value.record aggregate).HasDistinctSteps := hnames
      have hsteps := Value.nodup_steps hdistinctSteps
      simpa [Value.children, Function.comp_def] using hsteps
    | union selectors =>
      refine List.Nodup.filterMap ?_ (hdistinct selectors rfl).of_map
      intro one other step hone hother
      cases one <;> cases other <;> simp [Selection.fieldOf?] at hone hother
      rw [Step.key.inj (hone.2.trans hother.2.symm)]
    | _ => exact List.nodup_nil
  | @list sequence hitems =>
    rw [steps_list]
    cases segment with
    | index position => exact hsingle _
    | wildcard => exact List.Nodup.map (fun _ _ h => by cases h; rfl) List.nodup_range
    | union selectors =>
      refine List.Nodup.filterMap ?_ (hdistinct selectors rfl).of_map
      intro one other step hone hother
      cases one <;> cases other <;> simp [Selection.positionOf?] at hone hother
      rw [Step.index.inj (hone.2.trans hother.2.symm)]
    | slice start stop width =>
      refine List.Nodup.map (fun _ _ h => by cases h; rfl) ?_
      exact List.nodup_range' _ (sliceStep_pos width)
    | _ => exact List.nodup_nil
  | _ => simp [steps_of_scalar]

end Segment

/-! ### Selections under any circumstances -/

namespace Selection

variable {selection : Selection} {segment : Segment} {steps : List Step}

theorem eq_nil_of_miss {value : Value} {obstacle : Obstacle}
    (hmiss : selection.miss value obstacle = .ok steps) : steps = [] := by
  unfold miss at hmiss
  split at hmiss
  · cases hmiss
  · exact (Except.ok.inj hmiss).symm

/-- In a map, a selection that creates nothing picks the steps of the segment. -/
theorem steps_of_select_map {entries : Entries Value} (hcreate : selection.create = false)
    (hsteps : selection.select (.map entries) segment = .ok steps) :
    segment.steps (.map entries) = steps := by
  have hentry {key : String} (hkey : selection.selectEntry entries key = .ok steps) :
      (if Entries.contains entries key then [.key key] else []) = steps := by
    unfold selectEntry at hkey
    rw [hcreate, Bool.false_or] at hkey
    split at hkey
    · rw [if_pos ‹_›]
      exact Except.ok.inj hkey
    · rw [if_neg ‹_›]
      exact (eq_nil_of_miss hkey).symm
  rw [Segment.steps_map]
  cases segment with
  | key name => exact hentry hsteps
  | index position => exact hentry hsteps
  | wildcard => exact Except.ok.inj hsteps
  | union selectors =>
    simp only [select, selectInMap, hcreate, Bool.false_or] at hsteps
    exact Except.ok.inj hsteps
  | _ => exact (eq_nil_of_miss hsteps).symm

/-- In a record, a selection picks the steps of the segment. -/
theorem steps_of_select_record {aggregate : Record Value}
    (hsteps : selection.select (.record aggregate) segment = .ok steps) :
    segment.steps (.record aggregate) = steps := by
  rw [Segment.steps_record]
  cases segment with
  | key name =>
    change (if (aggregate.get? name).isSome then [.key name] else []) = steps
    simp only [select, selectInRecord] at hsteps
    unfold Record.get?
    cases hfield : aggregate.field? name with
    | none =>
      simp only [hfield] at hsteps
      rw [eq_nil_of_miss hsteps]
      rfl
    | some field =>
      cases hexported : field.exported with
      | true => simpa [hfield, hexported] using hsteps
      | false =>
        cases hsearching : selection.searching with
        | true => simpa [hfield, hexported, hsearching] using hsteps
        | false => simp [hfield, hexported, hsearching] at hsteps
  | wildcard => exact Except.ok.inj hsteps
  | union selectors => exact Except.ok.inj hsteps
  | _ => exact (eq_nil_of_miss hsteps).symm

/-- In a list, a selection that creates nothing picks the steps of the segment. -/
theorem steps_of_select_list {sequence : Sequence Value} (hcreate : selection.create = false)
    (hsteps : selection.select (.list sequence) segment = .ok steps) :
    segment.steps (.list sequence) = steps := by
  have hgrow : selection.mayGrow sequence = false := by
    simp [mayGrow, hcreate]
  have hreaches : selection.reaches sequence = tolerant.reaches sequence := by
    funext position
    simp [reaches, mayGrow, hcreate, tolerant]
  cases segment with
  | index position =>
    simp only [select, selectInList, hgrow, hreaches] at hsteps
    simp only [Segment.steps, select, selectInList]
    split at hsteps
    · rw [if_pos ‹_›]
      exact Except.ok.inj hsteps
    · rw [if_neg ‹_›, eq_nil_of_miss hsteps]
      rfl
  | slice start stop step =>
    have hlength : selection.sliceLength sequence stop = tolerant.sliceLength sequence stop := by
      cases stop <;> simp [sliceLength, mayGrow, hcreate, tolerant]
    simp only [select, selectInList, hlength, hreaches] at hsteps
    exact Except.ok.inj hsteps
  | wildcard => exact Except.ok.inj hsteps
  | union selectors =>
    have hposition : selection.positionOf? sequence = tolerant.positionOf? sequence := by
      funext selector
      cases selector <;> simp [positionOf?, hreaches]
    simp only [select, selectInList, hposition] at hsteps
    exact Except.ok.inj hsteps
  | key name => exact (eq_nil_of_miss hsteps).symm
  | root => exact Except.ok.inj hsteps

/-- A selection that is not a fault and creates nothing picks the steps of the segment. -/
theorem steps_of_select {container : Value} (hcreate : selection.create = false)
    (hsteps : selection.select container segment = .ok steps) :
    segment.steps container = steps := by
  cases container with
  | map entries => exact steps_of_select_map hcreate hsteps
  | record aggregate => exact steps_of_select_record hsteps
  | list sequence => exact steps_of_select_list hcreate hsteps
  | _ =>
    rw [eq_nil_of_miss hsteps]
    simp [Segment.steps_of_scalar]

end Selection

theorem Value.isSome_child?_index {sequence : Sequence Value} {position : Nat} :
    ((Value.list sequence).child? (.index position)).isSome = true ↔ position < sequence.size := by
  simp [child?, Sequence.get?, Sequence.size]

/-! ## Segments for one child -/

/-- A segment for one child denotes the child that a step of a container leads to: a name those of
maps and records, and a position those of lists and, in decimal, of maps. -/
inductive Segment.Denotes : Segment → Value → Step → Prop
  /-- A name denotes the entry under it. -/
  | entry (entries : Entries Value) (name : String) : Denotes (.key name) (.map entries) (.key name)
  /-- A position denotes the entry under the decimal. -/
  | numbered (entries : Entries Value) (position : Nat) :
      Denotes (.index position) (.map entries) (.key (Text.ofNat position))
  /-- A name denotes the field of that name. -/
  | field (aggregate : Record Value) (name : String) :
      Denotes (.key name) (.record aggregate) (.key name)
  /-- A position denotes the element there. -/
  | element (sequence : Sequence Value) (position : Nat) :
      Denotes (.index position) (.list sequence) (.index position)

/-- A segment for one child selects the children that it denotes. -/
theorem Segment.selects_iff_of_single {segment : Segment} {container : Value} {step : Step}
    (hsingle : segment.isMultiValued = false) :
    segment.Selects container step ↔
      (container.child? step).isSome = true ∧ segment.Denotes container step := by
  refine and_congr_right fun _ => ⟨fun hnames => ?_, ?_⟩
  · cases segment with
    | key name | index position =>
      cases container <;> cases step <;>
        first
        | exact hnames.elim
        | (cases hnames; constructor)
    | root => exact hnames.elim
    | _ => cases hsingle
  · rintro (_ | _ | _ | _) <;> rfl

/-- A segment for one child selects a child that it denotes, which is there if nothing is created;
the root mark, a miss that is passed over, and a hidden field that is searched for select nothing. -/
theorem Selection.cases_of_single {selection : Selection} {container : Value} {segment : Segment}
    {steps : List Step} (hsingle : segment.isMultiValued = false)
    (hselect : selection.select container segment = .ok steps) :
    (∃ step, steps = [step] ∧ segment.Denotes container step ∧
      (selection.create = false → (container.child? step).isSome = true)) ∨
    (steps = [] ∧
      (segment = .root ∨ selection.strict = false ∨ selection.searching = true)) := by
  have hmiss {value : Value} {obstacle : Obstacle}
      (hok : selection.miss value obstacle = .ok steps) :
      steps = [] ∧
        (segment = .root ∨ selection.strict = false ∨ selection.searching = true) := by
    unfold Selection.miss at hok
    split at hok
    · cases hok
    · exact ⟨(Except.ok.inj hok).symm, .inr (.inl (eq_false_of_ne_true ‹_›))⟩
  cases container with
  | map entries =>
    have hentry {name : String} (hdenotes : segment.Denotes (.map entries) (.key name))
        (hok : selection.selectEntry entries name = .ok steps) :
        (∃ step, steps = [step] ∧ segment.Denotes (.map entries) step ∧
          (selection.create = false → ((Value.map entries).child? step).isSome = true)) ∨
        (steps = [] ∧
          (segment = .root ∨ selection.strict = false ∨ selection.searching = true)) := by
      unfold Selection.selectEntry at hok
      split at hok
      · rename_i hpresent
        refine .inl ⟨.key name, (Except.ok.inj hok).symm, hdenotes, fun hcreate => ?_⟩
        rwa [hcreate, Bool.false_or] at hpresent
      · exact .inr (hmiss hok)
    cases segment with
    | key name => exact hentry (.entry entries name) hselect
    | index position => exact hentry (.numbered entries position) hselect
    | root => exact .inr (hmiss hselect)
    | _ => cases hsingle
  | record aggregate =>
    cases segment with
    | key name =>
      simp only [Selection.select, Selection.selectInRecord] at hselect
      cases hfield : aggregate.field? name with
      | none =>
        rw [hfield] at hselect
        exact .inr (hmiss hselect)
      | some field =>
        simp only [hfield] at hselect
        split at hselect
        · rename_i hexported
          refine .inl ⟨.key name, (Except.ok.inj hselect).symm, .field aggregate name, fun _ => ?_⟩
          simp [Value.child?, Record.get?, hfield, hexported]
        · split at hselect
          · exact .inr ⟨(Except.ok.inj hselect).symm, .inr (.inr ‹_›)⟩
          · cases hselect
    | index position => exact .inr (hmiss hselect)
    | root => exact .inr (hmiss hselect)
    | _ => cases hsingle
  | list sequence =>
    cases segment with
    | key name => exact .inr (hmiss hselect)
    | index position =>
      simp only [Selection.select, Selection.selectInList] at hselect
      split at hselect
      · rename_i hreaches
        refine .inl ⟨.index position, (Except.ok.inj hselect).symm, .element sequence position,
          fun hcreate => ?_⟩
        rw [Value.isSome_child?_index]
        simpa [Selection.reaches, Selection.mayGrow, hcreate] using hreaches
      · split at hselect <;> exact .inr (hmiss hselect)
    | root => exact .inr ⟨(Except.ok.inj hselect).symm, .inl rfl⟩
    | _ => cases hsingle
  | _ => exact .inr (hmiss hselect)

/-- If a segment for one child selects one, it denotes it. -/
theorem Selection.denotes_of_select {selection : Selection} {container : Value} {segment : Segment}
    {step : Step} (hsingle : segment.isMultiValued = false)
    (hselect : selection.select container segment = .ok [step]) :
    segment.Denotes container step := by
  rcases Selection.cases_of_single hsingle hselect with ⟨other, hone, hdenotes, _⟩ | ⟨hnone, _⟩
  · rwa [List.singleton_inj.mp hone]
  · cases hnone

/-- A segment for one child selects one at most. -/
theorem Selection.length_le_of_select {selection : Selection} {container : Value}
    {segment : Segment} {steps : List Step} (hsingle : segment.isMultiValued = false)
    (hselect : selection.select container segment = .ok steps) : steps.length ≤ 1 := by
  rcases Selection.cases_of_single hsingle hselect with ⟨step, rfl, _⟩ | ⟨rfl, _⟩
  · exact Nat.le_refl 1
  · exact Nat.zero_le 1

/-- A segment that is not multi-valued picks one child at most. -/
theorem Segment.length_steps_le {segment : Segment} (hsingle : segment.isMultiValued = false)
    (container : Value) : (segment.steps container).length ≤ 1 := by
  rw [steps]
  cases hselect : Selection.tolerant.select container segment with
  | error error => exact Nat.zero_le 1
  | ok steps => exact Selection.length_le_of_select hsingle hselect

end NestedData
