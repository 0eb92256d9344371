import NestedData.Proofs.Access.Reselection
import NestedData.Proofs.Value.Repruning

/-!
# Faults on the way

This module says where following segments and searching meet a fault: at the containers
from which a segment cannot select.  A traversal fails only if it meets one, and what is
left of a container by deletions selects without a fault only if the container does.  A
fault below a place that a search finds is a fault of the search from farther down too, so
that a deletion has come across it before it deletes the place.

Main results:

- `Visit.descend_of_faultless`, `Visit.search_of_faultless`: a traversal that meets no fault
  does not fail.
- `Selection.select_of_prune`: what is left of a container can be selected from only if the
  container can.
- `MeetsFault.searchFaults_child`: a fault that a group and the searches after it meet below a
  place that has been found inside a child is met by the search there.
-/

namespace NestedData

/-- Following segments from a value meets a fault at the end of some steps, where the next
segment cannot select. -/
inductive Faults : Bool → Bool → List Segment → Value → Location → Prop
  /-- The first segment cannot select from the value. -/
  | here {searching strict : Bool} {segment : Segment} {rest : List Segment} {value : Value}
      {operation : Operation} {location : Location} {error : AccessError}
      (hfault : Selection.select { operation, location, strict, create := false, searching }
        value.target segment = .error error) : Faults searching strict (segment :: rest) value []
  /-- Going on from a child that the first segment picks meets a fault. -/
  | step {searching strict : Bool} {segment : Segment} {rest : List Segment} {value child : Value}
      {step : Step} {steps : Location} (hstep : step ∈ segment.steps value.target)
      (hchild : value.target.child? step = some child)
      (hrest : Faults false (strict && !segment.isMultiValued) rest child steps) :
      Faults searching strict (segment :: rest) value (step :: steps)

/-- Searching inside a value meets a fault at the end of some steps. -/
inductive SearchFaults : List (List Segment) → Value → Location → Prop
  /-- The first group meets it. -/
  | here {group : List Segment} {rest : List (List Segment)} {value start : Value}
      {run own : Location} (hrun : value.valueAt? run = some start)
      (hfault : Faults true false group start own) :
      SearchFaults (group :: rest) value (run ++ own)
  /-- The searches after it meet it. -/
  | later {group : List Segment} {rest : List (List Segment)} {value start middle : Value}
      {run own steps : Location} (hrun : value.valueAt? run = some start)
      (hown : Leads group start own middle) (hlater : SearchFaults rest middle steps) :
      SearchFaults (group :: rest) value (run ++ (own ++ steps))

/-- Following segments and then searching meets a fault at the end of some steps. -/
def MeetsFault (searches : List (List Segment)) (searching strict : Bool)
    (segments : List Segment) (value : Value) (location : Location) : Prop :=
  Faults searching strict segments value location ∨
    ∃ own middle later, Leads segments value own middle ∧ SearchFaults searches middle later ∧
      location = own ++ later

/-- References to the start do not matter. -/
theorem leads_target {segments : List Segment} {value final : Value} {steps : Location} :
    Leads segments value.target steps final ↔ Leads segments value steps final := by
  induction segments generalizing value with
  | nil =>
    constructor
    · rintro ⟨⟩
      rw [Value.target_target]
      exact .done value
    · rintro ⟨⟩
      have hdone := Leads.done value.target
      rwa [Value.target_target] at hdone
  | cons segment rest ih =>
    constructor
    · intro hleads
      cases hleads with
      | root hrest => exact .root (ih.mp hrest)
      | step hselects hchild hrest =>
        rw [Value.target_target] at hselects hchild
        exact .step hselects hchild hrest
    · intro hleads
      cases hleads with
      | root hrest => exact .root (ih.mpr hrest)
      | step hselects hchild hrest =>
        rw [← Value.target_target] at hselects hchild
        exact .step hselects hchild hrest

/-! ## Faults below a place that has been found -/

theorem Leads.length_eq_length {segments : List Segment} {value final : Value} {steps : Location}
    (hroot : .root ∉ segments) (hleads : Leads segments value steps final) :
    steps.length = segments.length := by
  rw [hleads.length_eq, List.filter_eq_self.mpr fun segment hmem => ?_]
  exact bne_iff_ne.mpr fun hsame => hroot (hsame ▸ hmem)

theorem Faults.length_lt {searching strict : Bool} {segments : List Segment} {value : Value}
    {steps : Location} (hfault : Faults searching strict segments value steps) :
    steps.length < segments.length := by
  induction hfault with
  | here => exact Nat.succ_pos _
  | step _ _ _ ih => exact Nat.succ_lt_succ ih

theorem Value.valueAt?_of_append {value middle start : Value} {between later : Location}
    (hmiddle : value.valueAt? between = some middle)
    (hstart : value.valueAt? (between ++ later) = some start) :
    middle.valueAt? later = some start := by
  rwa [valueAt?_append, hmiddle, Option.bind_some] at hstart

/-- A fault that searches meet below a place that they find from farther down they meet from
there too. -/
theorem SearchFaults.of_leads {searches : List (List Segment)} {value middle final : Value}
    {steps between last : Location} (hroot : ∀ group ∈ searches, .root ∉ group)
    (hfault : SearchFaults searches value steps) (hmiddle : value.valueAt? between = some middle)
    (hleads : SearchLeads searches middle last final) (hbegins : between ++ last <+: steps) :
    ∃ rest, steps = between ++ rest ∧ SearchFaults searches middle rest := by
  induction hfault generalizing middle between last with
  | @here group rest value start run own hrun hfault =>
    have hshort := hfault.length_lt
    cases hleads with
    | @search _ _ _ _ _ _ further reached later _ hown _ =>
      have hlong := hown.length_eq_length (hroot group List.mem_cons_self)
      -- The run ends below the place in between, as the fault would not lie below the place
      -- found otherwise.
      have hlength := hbegins.length_le
      simp only [List.length_append] at hlength
      obtain ⟨more, rfl⟩ : between <+: run := by
        refine List.prefix_of_prefix_length_le ((List.prefix_append _ _).trans hbegins)
          (List.prefix_append _ _) ?_
        omega
      exact ⟨more ++ own, List.append_assoc _ _ _,
        .here (Value.valueAt?_of_append hmiddle hrun) hfault⟩
  | @later group rest value start deep run own steps hrun hown hlater ih =>
    cases hleads with
    | @search _ _ _ other below _ further reached later hfurther hreached hlast =>
      have hrest : ∀ group ∈ rest, .root ∉ group := fun other hother =>
        hroot other (List.mem_cons_of_mem _ hother)
      have hlength := hown.length_eq_length (hroot group List.mem_cons_self)
      have hsame := hreached.length_eq_length (hroot group List.mem_cons_self)
      have hbetween : between <+: run ++ (own ++ steps) := (List.prefix_append _ _).trans hbegins
      by_cases hshort : between.length ≤ run.length
      · obtain ⟨more, rfl⟩ : between <+: run :=
          List.prefix_of_prefix_length_le hbetween (List.prefix_append _ _) hshort
        exact ⟨more ++ (own ++ steps), List.append_assoc _ _ _,
          .later (Value.valueAt?_of_append hmiddle hrun) hown hlater⟩
      · -- The group ends higher up on the way to the fault than on the way to the place found.
        have hway : run ++ own <+: run ++ (own ++ steps) := by
          rw [← List.append_assoc]
          exact List.prefix_append _ _
        have hfound : between ++ (further ++ reached) <+: run ++ (own ++ steps) :=
          .trans ⟨later, by simp⟩ hbegins
        have hend : run ++ own <+: between ++ (further ++ reached) := by
          refine List.prefix_of_prefix_length_le hway hfound ?_
          simp only [List.length_append]
          omega
        obtain ⟨more, hmore⟩ := hend
        have hdeep : value.valueAt? (run ++ own) = some deep := by
          rw [Value.valueAt?_append, hrun, Option.bind_some, hown.valueAt]
        have hbelow : deep.valueAt? more = some below := by
          refine Value.valueAt?_of_append hdeep ?_
          rw [hmore, Value.valueAt?_append, hmiddle, Option.bind_some, Value.valueAt?_append,
            hfurther, Option.bind_some, hreached.valueAt]
        obtain ⟨fault, rfl, hfault⟩ := ih hrest hbelow hlast (by
          rw [← List.prefix_append_right_inj (run ++ own), ← List.append_assoc, hmore]
          simpa using hbegins)
        refine ⟨further ++ (reached ++ fault), ?_, .later hfurther hreached hfault⟩
        rw [← List.append_assoc run, ← List.append_assoc, hmore]
        simp

/-- A fault below a place that a search finds inside a child, met by its group from the
container or by the searches after it, is met by the search inside the child. -/
theorem MeetsFault.searchFaults_child {group : List Segment} {searches : List (List Segment)}
    {container child final : Value} {step : Step} {later steps : Location}
    (hcontainer : container.WellFormed) (htarget : container.target = container)
    (hroot : .root ∉ group) (hgroups : ∀ group ∈ searches, .root ∉ group)
    (hchild : container.child? step = some child)
    (hfound : (later, final) ∈ Visit.found (group :: searches) child)
    (hfault : MeetsFault searches true false group container steps)
    (hbegins : step :: later <+: steps) :
    ∃ rest, steps = step :: rest ∧ SearchFaults (group :: searches) child rest := by
  have hinside := hcontainer.child hchild
  rw [← Visit.found_target] at hfound
  cases (Visit.mem_found_iff hinside.target (Value.target_target child)).mp hfound with
  | @search _ _ _ start below _ run own last hrun hown hlast =>
    rw [Value.valueAt?_target] at hrun
    have hlong := hown.length_eq_length hroot
    rcases hfault with hfault | ⟨above, middle, tail, habove, htail, rfl⟩
    · have hshort := hfault.length_lt
      have hlength := hbegins.length_le
      simp only [List.length_cons, List.length_append] at hlength
      omega
    · have hsame := habove.length_eq_length hroot
      have hupper : above <+: step :: (run ++ own) := by
        refine List.prefix_of_prefix_length_le (List.prefix_append above tail) ?_ ?_
        · refine List.IsPrefix.trans ?_ hbegins
          exact ⟨last, by simp⟩
        · simp only [List.length_cons, List.length_append]
          omega
      obtain ⟨more, hmore⟩ := hupper
      have hbelow : middle.valueAt? more = some below := by
        refine Value.valueAt?_of_append habove.valueAt ?_
        rw [hmore, Value.valueAt?, htarget, hchild, Option.bind_some, Value.valueAt?_append, hrun,
          Option.bind_some, hown.valueAt]
      obtain ⟨rest, rfl, hrest⟩ := htail.of_leads hgroups hbelow hlast (by
        rw [← List.prefix_append_right_inj above, ← List.append_assoc, hmore]
        simpa using hbegins)
      refine ⟨run ++ (own ++ rest), ?_, .later hrun hown hrest⟩
      rw [← List.append_assoc, hmore]
      simp

/-! ## Faults from children -/

/-- A fault from a child that the first segment picks is met from the value. -/
theorem MeetsFault.cons {searches : List (List Segment)} {searching strict : Bool}
    {segment : Segment} {rest : List Segment} {value child : Value} {step : Step}
    {steps : Location} (hvalue : value.WellFormed) (hstep : step ∈ segment.steps value.target)
    (hchild : value.target.child? step = some child)
    (hfault : MeetsFault searches false (strict && !segment.isMultiValued) rest child steps) :
    MeetsFault searches searching strict (segment :: rest) value (step :: steps) := by
  have hselects := (Segment.mem_steps_iff hvalue.target).mp hstep
  rcases hfault with hfault | ⟨own, middle, later, hown, hlater, rfl⟩
  · exact .inl (.step hstep hchild hfault)
  · exact .inr ⟨step :: own, middle, later, .step hselects hchild hown, hlater, rfl⟩

/-- A fault of segments the first of which can select is one from a child that it picks. -/
theorem MeetsFault.exists_child {searches : List (List Segment)} {searching strict : Bool}
    {segment : Segment} {rest : List Segment} {value : Value} {steps : Location}
    (hvalue : value.WellFormed) (hsegment : segment ≠ .root)
    (hselects : ∀ operation location, Selection.select
      { operation, location, strict, create := false, searching } value.target segment =
        .ok (segment.steps value.target))
    (hfault : MeetsFault searches searching strict (segment :: rest) value steps) :
    ∃ step child later, step ∈ segment.steps value.target ∧
      value.target.child? step = some child ∧
        MeetsFault searches false (strict && !segment.isMultiValued) rest child later := by
  rcases hfault with hfault | ⟨own, middle, later, hown, hlater, _⟩
  · cases hfault with
    | here hfault =>
      rw [hselects] at hfault
      cases hfault
    | step hstep hchild hrest => exact ⟨_, _, _, hstep, hchild, .inl hrest⟩
  · cases hown with
    | root => exact absurd rfl hsegment
    | step hselects hchild hown =>
      have hstep := (Segment.mem_steps_iff hvalue.target).mpr hselects
      exact ⟨_, _, _, hstep, hchild, .inr ⟨_, middle, later, hown, hlater, rfl⟩⟩

/-- Without segments, faults are those of the searches. -/
theorem meetsFault_nil {searches : List (List Segment)} {searching strict : Bool} {value : Value}
    {steps : Location} :
    MeetsFault searches searching strict [] value steps ↔
      SearchFaults searches value.target steps := by
  constructor
  · rintro (hfault | ⟨own, middle, later, hown, hlater, rfl⟩)
    · cases hfault
    · cases hown
      exact hlater
  · exact fun hfault => .inr ⟨[], value.target, steps, .done value, hfault, rfl⟩

/-- A fault of a search inside a child is one inside the container. -/
theorem SearchFaults.of_child {searches : List (List Segment)} {value child : Value} {step : Step}
    {steps : Location} (hchild : value.target.child? step = some child)
    (hfault : SearchFaults searches child steps) : SearchFaults searches value (step :: steps) := by
  have hbelow {run : Location} {start : Value} (hrun : child.valueAt? run = some start) :
      value.valueAt? (step :: run) = some start := by
    rw [Value.valueAt?, hchild, Option.bind_some, hrun]
  cases hfault with
  | here hrun hfault => exact .here (hbelow hrun) hfault
  | later hrun hown hlater => exact .later (hbelow hrun) hown hlater

/-- A fault of a search is one of its group from the value or of a search inside a child. -/
theorem SearchFaults.cases_value {group : List Segment} {searches : List (List Segment)}
    {value : Value} {steps : Location} (hfault : SearchFaults (group :: searches) value steps) :
    MeetsFault searches true false group value.target steps ∨
      ∃ step child later, value.target.child? step = some child ∧ steps = step :: later ∧
        SearchFaults (group :: searches) child later := by
  have hsplit {run : Location} {start : Value} (hrun : value.valueAt? run = some start) :
      (run = [] ∧ start = value.target) ∨ ∃ step child later,
        value.target.child? step = some child ∧ run = step :: later ∧
          child.valueAt? later = some start := by
    cases run with
    | nil => exact .inl ⟨rfl, (Option.some.inj hrun).symm⟩
    | cons step later =>
      obtain ⟨child, hchild, hlater⟩ := Option.bind_eq_some_iff.mp hrun
      exact .inr ⟨step, child, later, hchild, rfl, hlater⟩
  cases hfault with
  | here hrun hfault =>
    rcases hsplit hrun with ⟨rfl, rfl⟩ | ⟨step, child, later, hchild, rfl, hrest⟩
    · exact .inl (.inl hfault)
    · exact .inr ⟨step, child, _, hchild, rfl, .here hrest hfault⟩
  | later hrun hown hlater =>
    rcases hsplit hrun with ⟨rfl, rfl⟩ | ⟨step, child, later, hchild, rfl, hrest⟩
    · exact .inl (.inr ⟨_, _, _, hown, hlater, rfl⟩)
    · exact .inr ⟨step, child, _, hchild, rfl, .later hrest hown hlater⟩

theorem searchFaults_target (value : Value) {searches : List (List Segment)} {steps : Location} :
    SearchFaults searches value.target steps ↔ SearchFaults searches value steps := by
  constructor <;> rintro (⟨hrun, hfault⟩ | ⟨hrun, hown, hlater⟩)
  · exact .here (by simpa using hrun) hfault
  · exact .later (by simpa using hrun) hown hlater
  · exact .here (by simpa using hrun) hfault
  · exact .later (by simpa using hrun) hown hlater

/-- A fault of a group from a value is one of a search for it there. -/
theorem MeetsFault.search {group : List Segment} {searches : List (List Segment)} {value : Value}
    {steps : Location} (hfault : MeetsFault searches true false group value.target steps) :
    SearchFaults (group :: searches) value steps := by
  have hrun : value.valueAt? [] = some value.target := rfl
  rcases hfault with hfault | ⟨own, middle, later, hown, hlater, rfl⟩
  · exact .here hrun hfault
  · exact .later hrun hown hlater

/-- References to the start do not matter. -/
theorem meetsFault_target (value : Value) {searches : List (List Segment)}
    {searching strict : Bool} {segments : List Segment} {steps : Location} :
    MeetsFault searches searching strict segments value.target steps ↔
      MeetsFault searches searching strict segments value steps := by
  have hfaults : Faults searching strict segments value.target steps ↔
      Faults searching strict segments value steps := by
    constructor <;> rintro (hfault | ⟨hstep, hchild, hrest⟩)
    · exact .here (Value.target_target value ▸ hfault)
    · exact .step (Value.target_target value ▸ hstep) (Value.target_target value ▸ hchild) hrest
    · exact .here ((Value.target_target value).symm ▸ hfault)
    · exact .step ((Value.target_target value).symm ▸ hstep)
        ((Value.target_target value).symm ▸ hchild) hrest
  simp only [MeetsFault, hfaults, leads_target]

/-! ## Faults out of reach of deletions -/

/-- Nothing has been deleted at a place or on the way to it. -/
def Spared (doomed : Location → Bool) (location : Location) : Prop :=
  ∀ above, above ≠ [] → above <+: location → doomed above = false

theorem Spared.step {doomed : Location → Bool} {step : Step} {rest : Location}
    (hspared : Spared doomed (step :: rest)) : doomed [step] = false :=
  hspared [step] (List.cons_ne_nil _ _) (by simp)

theorem Spared.child {doomed : Location → Bool} {step : Step} {rest : Location}
    (hspared : Spared doomed (step :: rest)) : Spared (fun below => doomed (step :: below)) rest :=
  fun above _ hbegins => hspared (step :: above) (List.cons_ne_nil _ _)
    (List.cons_prefix_cons.mpr ⟨rfl, hbegins⟩)

namespace Visit

variable {σ : Type} {segments : List Segment} {searches : List (List Segment)} {value : Value}

/-! ## Traversals that meet no fault -/

/-- Going through things that do not end the traversal does not. -/
theorem exists_through_running {α : Type} {things : List α} {visit : α → σ → Progress σ}
    (hvisit : ∀ thing ∈ things, ∀ collected, ∃ done, visit thing collected = .running done)
    (collected : σ) : ∃ done, Progress.through things visit collected = .running done := by
  induction things generalizing collected with
  | nil => exact ⟨collected, rfl⟩
  | cons thing rest ih =>
    obtain ⟨done, hdone⟩ := hvisit thing List.mem_cons_self collected
    rw [Progress.through_cons, hdone, Progress.andThen_running]
    exact ih (fun other hother => hvisit other (List.mem_cons_of_mem _ hother)) done

/-- Following segments does not fail if it meets no fault and what is done at the places
where they lead does not. -/
theorem descend_of_faultless {arrive : Arrival σ} {searching strict : Bool}
    (hroot : .root ∉ segments) (hvalue : value.WellFormed)
    (hfaultless : ∀ steps, ¬Faults searching strict segments value steps)
    (harrive : ∀ own middle, Leads segments value own middle → ∀ location collected,
      ∃ done, arrive location middle collected = .running done)
    (operation : Operation) (location : Location) (collected : σ) :
    ∃ done, descend operation arrive searching strict segments location value collected =
      .running done := by
  induction segments generalizing searching strict value location collected with
  | nil => exact harrive [] value.target (.done value) location collected
  | cons segment rest ih =>
    rw [List.mem_cons, not_or] at hroot
    rw [descend_segment (Ne.symm hroot.1)]
    cases hselect : Selection.select
        { operation, location, strict, create := false, searching } value.target segment with
    | error error => exact absurd (.here hselect) (hfaultless [])
    | ok steps =>
      obtain rfl := Selection.steps_of_select rfl hselect
      refine exists_through_running (fun step hstep collected => ?_) collected
      cases hchild : value.target.child? step with
      | none => exact ⟨collected, rfl⟩
      | some child =>
        have hselects := (Segment.mem_steps_iff hvalue.target).mp hstep
        exact ih hroot.2 (hvalue.target.child hchild)
          (fun later hfault => hfaultless (step :: later) (.step hstep hchild hfault))
          (fun own middle hleads => harrive (step :: own) middle (.step hselects hchild hleads))
          (location.child step) collected

/-- Searching does not fail if it meets no fault. -/
theorem search_of_faultless {visit : Visitor σ}
    (hvisit : ∀ location value collected, ∃ done, visit location value collected = .yield done)
    (hroot : ∀ group ∈ searches, .root ∉ group) (hvalue : value.WellFormed)
    (hfaultless : ∀ steps, ¬SearchFaults searches value steps) (operation : Operation)
    (location : Location) (collected : σ) :
    ∃ done, search operation visit searches location value collected = .running done := by
  induction searches generalizing value location collected with
  | nil =>
    obtain ⟨done, hdone⟩ := hvisit location value collected
    exact ⟨done, by rw [search, hdone]⟩
  | cons group rest ih =>
    rw [search, Value.places_eq_map]
    refine exists_through_running (fun place hplace collected => ?_) collected
    obtain ⟨⟨run, start⟩, hstart, rfl⟩ := List.mem_map.mp hplace
    have hrun := (Value.mem_places_iff hvalue).mp hstart
    refine descend_of_faultless (hroot group List.mem_cons_self) (hvalue.valueAt hrun)
      (fun steps hfault => hfaultless _ (.here hrun hfault))
      (fun own middle hleads location collected => ?_) operation _ collected
    exact ih (fun other hother => hroot other (List.mem_cons_of_mem _ hother))
      ((hvalue.valueAt hrun).valueAt hleads.valueAt)
      (fun steps hfault => hfaultless _ (.later hrun hleads hfault)) location collected

end Visit

namespace Value

/-- A traversal of a path that meets no fault comes to its end. -/
theorem outcome_visits {root : Value} {path : Path} {segments : List Segment}
    (hroot : root.WellFormed) (hmark : .root ∉ segments)
    (hgroups : ∀ group ∈ path.searches, .root ∉ group)
    (hfirst : path.first = segments ∨ path.first = .root :: segments)
    (hfaultless : ∀ steps, ¬MeetsFault path.searches false true segments root steps) :
    (root.visits path).outcome = .ok () := by
  have hvisit (location : Location) (value : Value) (seen : Visit.Trace) :
      ∃ done, ForInStep.yield (seen ++ [(location, value)]) = .yield done := ⟨_, rfl⟩
  obtain ⟨done, hdone⟩ := Visit.descend_of_faultless hmark hroot
    (fun steps hfault => hfaultless steps (.inl hfault))
    (fun own middle hleads location seen => Visit.search_of_faultless hvisit hgroups
      (hroot.valueAt hleads.valueAt)
      (fun steps hfault => hfaultless _ (.inr ⟨own, middle, steps, hleads, hfault, rfl⟩))
      .forEach location seen) .forEach [] []
  rw [visits, forEach, Visit.follow, Visit.descend_of_first hfirst, hdone]
  rfl

end Value

namespace Selection

open Value

variable {selection reader : Selection} {container : Value} {segment : Segment} {steps : List Step}
  {doomed : Location → Bool}

/-! ## Selecting from what is left -/

/-- What is left of a container that has been pruned can be selected from only if the
container can. -/
theorem select_of_prune (hcontainer : container.WellFormed) (htarget : container.target = container)
    (hkeeps : container.KeepsPositions doomed)
    (hselect : selection.select (container.prune doomed) segment = .ok steps)
    (hcreate : selection.create = false) (hreads : reader.create = false)
    (hstrict : reader.strict = selection.strict)
    (hsearching : selection.searching = true → reader.searching = true) :
    reader.select container segment = .ok (segment.steps container) := by
  have hpresent (step : Step) (hstep : step ∈ steps) : (container.child? step).isSome = true := by
    rw [← steps_of_select hcreate hselect, steps_prune_eq_filter hcontainer htarget hkeeps] at hstep
    exact ((Segment.mem_steps_iff hcontainer).mp (List.mem_filter.mp hstep).1).1
  have hok : ∃ picked, reader.select container segment = .ok picked := by
    rw [prune_eq_rebuild htarget] at hselect
    cases container with
    | map entries => exact exists_select_map hstrict hselect hpresent
    | record aggregate =>
      refine exists_select_record hstrict hsearching hselect ?_
      rw [Record.declarations, Record.declarations, List.map_map]
      refine List.map_congr_left fun field _ => ?_
      rw [Function.comp_apply]
      split <;> rfl
    | list sequence =>
      rcases sequence with ⟨extent, items⟩
      cases extent with
      | growable => exact exists_select_list hstrict hselect hpresent
      | fixed => exact exists_select_list hstrict hselect hpresent
    | _ => exact ⟨[], miss_again hstrict hselect _ _⟩
  obtain ⟨picked, hpicked⟩ := hok
  rw [hpicked, steps_of_select hreads hpicked]

end Selection

end NestedData
