import NestedData.Proofs.Access.Advancing
import NestedData.Proofs.Text.Numbers
import NestedData.Schema.Shaping

/-!
# Independent assignments

Two assignments along paths of which neither leads through the place of the other may share the
containers on their way, and each may be the one that makes them.  Which assignment comes first then
shows in the order of map entries and in nothing else.

Main results:

- `Path.trail`: the keys that a path goes through, a position being read as a key.
- `Schema.isSteady_shaping`: a schema makes the same container for every segment, unless it leaves
  the choice to the path.
- `Action.congruent_of_sets`: two assignments from any place, in either order.
- `Value.setAt_comm`: two assignments from the root, in either order.
-/

namespace NestedData

/-! ## Names of steps -/

/-- The key that a segment for one child names, a position being read as a key. -/
def Segment.name? : Segment → Option String
  | .key name => some name
  | .index position => some (Text.ofNat position)
  | _ => none

/-- The keys that a path goes through before its first search, whatever the containers are. -/
def Path.trail (path : Path) : List String :=
  path.first.filterMap Segment.name?

/-- The name of a step, a position being read as a key. -/
def Step.name : Step → String
  | .key name => name
  | .index position => Text.ofNat position

theorem Text.ofNat_inj {position index : Nat} (hsame : Text.ofNat position = Text.ofNat index) :
    position = index := by
  have hread := congrArg (fun text => Text.readNat? text.toList) hsame
  simpa [Text.ofNat, Text.readNat?_showNat] using hread

/-- In one container, steps of the same name are the same. -/
theorem Value.Takes.step_eq {container : Value} {step other : Step} (hstep : container.Takes step)
    (hother : container.Takes other) (hname : step.name = other.name) : step = other := by
  cases hstep using Takes.casesOn with
  | entry entries name | field aggregate name _ =>
    cases other with
    | index position => exact hother.elim
    | key key => exact congrArg Step.key hname
  | element sequence position _ =>
    cases other with
    | key name => exact hother.elim
    | index index => exact congrArg Step.index (Text.ofNat_inj hname)

/-- A segment for one child selects the child of its name. -/
theorem Selection.name?_of_select {selection : Selection} {container : Value} {segment : Segment}
    {step : Step} (hsingle : segment.isMultiValued = false)
    (hselect : selection.select container segment = .ok [step]) :
    segment.name? = some step.name := by
  cases Selection.denotes_of_select hsingle hselect <;> rfl

/-- A segment for one child that selects from a list asks for a list. -/
theorem Selection.isIndexShaped_of_select {selection : Selection} {sequence : Sequence Value}
    {segment : Segment} {step : Step} (hsingle : segment.isMultiValued = false)
    (hselect : selection.select (.list sequence) segment = .ok [step]) :
    segment.isIndexShaped = true := by
  cases Selection.denotes_of_select hsingle hselect
  rfl

/-! ## Containers that are made -/

/-- At every place the same container is made for every segment, or the path decides. -/
def Shaping.IsSteady (shaping : Shaping) : Prop :=
  ∀ location, (∀ segment other,
      shaping.containerAt location segment = shaping.containerAt location other) ∨
    shaping.containerAt location = Shaping.plain.containerAt location

theorem Shaping.isSteady_plain : Shaping.plain.IsSteady :=
  fun _ => .inr rfl

/-- A schema decides alone where it has a container, and leaves the choice to the path elsewhere. -/
theorem Schema.isSteady_shaping (schema : Schema) : schema.shaping.IsSteady := by
  intro location
  cases hnode : schema.containerNode? location with
  | some node =>
    refine .inl fun segment other => ?_
    simp only [shaping, containerAt, hnode]
  | none =>
    refine .inr (funext fun segment => ?_)
    simp only [shaping, containerAt, hnode]

namespace Action

open Value

section Segments

variable {shaping : Shaping} {location : Location} {first second : Segment}
  {rest later : List Segment} {new other value middle between after final : Value}
  {step taken back again : Step} {old child found left kept made seen last : Value}

/-- Where the path decides, a second assignment through a list that the first has made asks for a
list. -/
theorem isIndexShaped_of_made (hsingle : second.isMultiValued = false)
    (hplain : shaping.containerAt location = Shaping.plain.containerAt location)
    (habsent : value.target.isAbsent = true)
    (hadvance : Advance shaping new first rest location value middle step old child)
    (hthen : Advance shaping other second later location middle after taken found left)
    (hshape : first.isIndexShaped = true) : second.isIndexShaped = true := by
  have hmade : (vivify shaping location first value).target = .ofItems #[] := by
    rw [target_vivify habsent, hplain, Shaping.plain]
    simp only [hshape, if_true]
    rfl
  have htakes := hadvance.takes
  have hselects := hthen.selects
  rw [hadvance.vivify_eq, hadvance.target_eq, hmade] at hselects
  rw [hmade] at htakes
  cases step with
  | key name => exact htakes.elim
  | index position => exact Selection.isIndexShaped_of_select hsingle hselects

/-- Two assignments that succeed in either order find or make the same container. -/
theorem vivify_congr (hsteady : shaping.IsSteady) (hsingleFirst : first.isMultiValued = false)
    (hsingleSecond : second.isMultiValued = false)
    (hfirst : Advance shaping new first rest location value middle step old child)
    (hthen : Advance shaping other second later location middle after back found left)
    (hsecond : Advance shaping other second later location value between taken kept made)
    (hlast : Advance shaping new first rest location between final again seen last) :
    vivify shaping location first value = vivify shaping location second value := by
  cases habsent : value.target.isAbsent with
  | false => rw [vivify_of_present habsent, vivify_of_present habsent]
  | true =>
    have hsame : shaping.containerAt location first = shaping.containerAt location second := by
      rcases hsteady location with hall | hplain
      · exact hall first second
      · -- If one of them made a list, the other goes through that list afterwards.
        have hshapes : first.isIndexShaped = second.isIndexShaped :=
          Bool.eq_iff_iff.mpr
            ⟨isIndexShaped_of_made hsingleSecond hplain habsent hfirst hthen,
              isIndexShaped_of_made hsingleFirst hplain habsent hsecond hlast⟩
        rw [hplain, Shaping.plain]
        simp only [hshapes]
    simp only [vivify, hsame]

/-- After another assignment, a segment takes the step that it takes without it, in a container that
has a child more, and both children are put into the container that was there or was made. -/
theorem Advance.then (hsingleSecond : second.isMultiValued = false)
    (hcontainer : vivify shaping location first value = vivify shaping location second value)
    (hfirst : Advance shaping new first rest location value middle step old child)
    (hthen : Advance shaping other second later location middle after back found left)
    (hsecond : Advance shaping other second later location value between taken kept made) :
    (makeRoom shaping location taken (put shaping location step child
        (vivify shaping location second value).target)).child? taken = some found ∧
    Sets shaping other later (location.child taken) found left ∧
    after = (vivify shaping location second value).mapTarget fun container =>
      put shaping location taken left (put shaping location step child container) := by
  obtain ⟨hselects, htakes, hfinds, honward, hresult⟩ := hthen
  rw [hfirst.vivify_eq] at hselects htakes hfinds hresult
  have hstep := hfirst.takes
  have hmiddle := hfirst.target_eq
  have hput := hfirst.result
  rw [hcontainer] at hstep hmiddle hput
  rw [hmiddle] at hselects htakes hfinds
  have hname := Selection.name?_of_select hsingleSecond hselects
  rw [Selection.name?_of_select hsingleSecond hsecond.selects] at hname
  obtain rfl : taken = back :=
    (takes_put hstep child hsecond.takes).step_eq htakes (Option.some.inj hname)
  refine ⟨hfinds, honward, ?_⟩
  rw [hresult, hput]
  exact mapTarget_mapTarget (takes_put hstep child hstep).target_eq

end Segments

section Groups

variable {shaping : Shaping} {first second : List Segment}
  {new other value middle between after final : Value} {location : Location}

/-- Two assignments from a place, along segments of which neither are the beginning of the others as
far as names go, leave the same in either order, up to the order of entries. -/
theorem congruent_of_sets (hsteady : shaping.IsSteady) (hrootFirst : .root ∉ first)
    (hsingleFirst : ∀ segment ∈ first, segment.isMultiValued = false) (hrootSecond : .root ∉ second)
    (hsingleSecond : ∀ segment ∈ second, segment.isMultiValued = false)
    (hnotFirst : ¬first.filterMap Segment.name? <+: second.filterMap Segment.name?)
    (hnotSecond : ¬second.filterMap Segment.name? <+: first.filterMap Segment.name?)
    (hfirst : Sets shaping new first location value middle)
    (hthen : Sets shaping other second location middle after)
    (hsecond : Sets shaping other second location value between)
    (hlast : Sets shaping new first location between final) :
    Congruent Reordered after final := by
  -- By induction on the first row: where both go on in one child, their rests are compared below
  -- it.
  induction first generalizing second location value middle between after final with
  | nil => exact absurd List.nil_prefix hnotFirst
  | cons head rest ih =>
    cases second with
    | nil => exact absurd List.nil_prefix hnotSecond
    | cons next later =>
      have honeHead : head.isMultiValued = false := hsingleFirst head List.mem_cons_self
      have honeNext : next.isMultiValued = false := hsingleSecond next List.mem_cons_self
      obtain ⟨step, old, child, hfirst⟩ := hfirst.exists_advance hrootFirst hsingleFirst
      obtain ⟨_, found, left, hthen⟩ := hthen.exists_advance hrootSecond hsingleSecond
      obtain ⟨taken, kept, made, hsecond⟩ := hsecond.exists_advance hrootSecond hsingleSecond
      obtain ⟨_, seen, last, hlast⟩ := hlast.exists_advance hrootFirst hsingleFirst
      have hcontainer := vivify_congr hsteady honeHead honeNext hfirst hthen hsecond hlast
      obtain ⟨hfound, hleft, hafter⟩ := hfirst.then honeNext hcontainer hthen hsecond
      obtain ⟨hseen, hlastSets, hfinal⟩ := hsecond.then honeHead hcontainer.symm hlast hfirst
      have hstep := hfirst.takes
      have htaken := hsecond.takes
      have hold := hfirst.finds
      have hkept := hsecond.finds
      rw [hcontainer] at hstep hold hseen hfinal
      rw [hafter, hfinal]
      refine Congruent.mapTarget _ ?_
      by_cases hsame : step = taken
      · -- Both go on in one child, and neither rest leads through the other's place.
        subst hsame
        have hnameHead := Selection.name?_of_select honeHead hfirst.selects
        have hnameNext := Selection.name?_of_select honeNext hsecond.selects
        simp only [List.filterMap_cons, hnameHead, hnameNext, List.cons_prefix_cons, true_and]
          at hnotFirst hnotSecond
        obtain rfl := Option.some.inj (hold.symm.trans hkept)
        rw [child?_makeRoom_of_present (child?_put shaping location hstep child)] at hfound
        rw [child?_makeRoom_of_present (child?_put shaping location hstep made)] at hseen
        obtain rfl := Option.some.inj hfound
        obtain rfl := Option.some.inj hseen
        have hinside := ih (List.not_mem_of_not_mem_cons hrootFirst)
          (fun segment hmem => hsingleFirst segment (List.mem_cons_of_mem _ hmem))
          (List.not_mem_of_not_mem_cons hrootSecond)
          (fun segment hmem => hsingleSecond segment (List.mem_cons_of_mem _ hmem))
          hnotFirst hnotSecond hfirst.onward hleft hsecond.onward hlastSets
        rw [put_put, put_put]
        exact hinside.setChild _ _
      · -- They part here, so each finds at its own child what it finds without the other.
        rw [child?_makeRoom_put shaping location hstep htaken hsame, hkept] at hfound
        rw [child?_makeRoom_put shaping location htaken hstep (Ne.symm hsame), hold] at hseen
        obtain rfl := Option.some.inj hfound
        obtain rfl := Option.some.inj hseen
        rw [hleft.unique hsecond.onward, hlastSets.unique hfirst.onward]
        exact put_comm shaping location hstep htaken hsame child made

end Groups

end Action

/-! ## Whole paths -/

theorem Shaping.isSteady_elim (schema? : Option Schema) :
    (schema?.elim Shaping.plain Schema.shaping).IsSteady := by
  cases schema? with
  | some schema => exact schema.isSteady_shaping
  | none => exact isSteady_plain

namespace Value

variable {root new other middle between after final : Value} {path second : Path}
  {one two three four : Nat}

/-- Assignments along two paths that texts spell, without searches and with segments that select one
child at a time, may change places if neither path goes through the place of the other, positions
being read as keys: if they succeed in either order, the roots they leave are the same up to the
order of map entries.  What is missing on the way may be made by either, in the shapes of a schema or
of the paths. -/
theorem setAt_comm {text spelling : String} (hpath : Path.parse text = .ok path)
    (hsecond : Path.parse spelling = .ok second) (hsinglePath : path.isMultiValued = false)
    (hsingleSecond : second.isMultiValued = false) (hnotPath : ¬path.trail <+: second.trail)
    (hnotSecond : ¬second.trail <+: path.trail) (schema? : Option Schema)
    (hfirst : root.setAt path new (schema?.elim .plain Schema.shaping) = (middle, .ok one))
    (hthen : middle.setAt second other (schema?.elim .plain Schema.shaping) = (after, .ok two))
    (hother : root.setAt second other (schema?.elim .plain Schema.shaping) = (between, .ok three))
    (hlast : between.setAt path new (schema?.elim .plain Schema.shaping) = (final, .ok four)) :
    Congruent Reordered after final := by
  obtain ⟨segments, hroot, hsingle, hstart, hsets⟩ := exists_sets hpath hsinglePath
  obtain ⟨others, hrootOthers, hsingleOthers, hstartOthers, hsetsOthers⟩ :=
    exists_sets hsecond hsingleSecond
  have htrail {path : Path} {segments : List Segment}
      (hstart : path.first = segments ∨ path.first = .root :: segments) :
      path.trail = segments.filterMap Segment.name? := by
    rcases hstart with hstart | hstart <;> rw [Path.trail, hstart]
    rfl
  rw [htrail hstart, htrail hstartOthers] at hnotPath hnotSecond
  exact Action.congruent_of_sets (Shaping.isSteady_elim schema?) hroot hsingle hrootOthers
    hsingleOthers hnotPath hnotSecond (hsets hfirst) (hsetsOthers hthen) (hsetsOthers hother)
    (hsets hlast)

/-- A map behind a reference to nothing is made by either assignment, and so is the order of its
entries; a schema pads the list. -/
theorem setAt_comm_behind_reference :
    let team : Schema := .single {
      shape := .map (some (.single { shape := .string }, .single { shape := .any }))
      children := [("marks", .single { shape := .list (some (.single { shape := .int })) })] }
    let schema : Schema := .single {
      shape := .map (some (.single { shape := .string }, .single { shape := .any }))
      children := [("team", team)] }
    let root : Value := .map [("team", .nilRef)]
    let marks : String × Value := ("marks", .ofItems #[.int 0, .int 9])
    let names : String × Value := ("names", .map [("1", .text "Ada")])
    let path : Path := { first := [.root, .key "team", .key "marks", .index 1] }
    let second : Path := { first := [.key "team", .key "names", .key "1"] }
    let after : Value := .map [("team", .ref (.map [marks, names]))]
    let final : Value := .map [("team", .ref (.map [names, marks]))]
    Path.parse "$.team.marks[1]" = .ok path ∧ Path.parse "team['names'].1" = .ok second ∧
      ¬path.trail <+: second.trail ∧ ¬second.trail <+: path.trail ∧
      (∃ middle, root.setAt path (.int 9) schema.shaping = (middle, .ok 1) ∧
        middle.setAt second (.text "Ada") schema.shaping = (after, .ok 1)) ∧
      (∃ between, root.setAt second (.text "Ada") schema.shaping = (between, .ok 1) ∧
        between.setAt path (.int 9) schema.shaping = (final, .ok 1)) ∧
      Congruent Reordered after final := by
  intro team schema root marks names path second after final
  have hpath : Path.parse "$.team.marks[1]" = .ok path := by
    cbv
  have hsecond : Path.parse "team['names'].1" = .ok second := by
    cbv
  have hnotPath : ¬path.trail <+: second.trail := by decide +kernel
  have hnotSecond : ¬second.trail <+: path.trail := by decide +kernel
  have hfirst : root.setAt path (.int 9) schema.shaping =
      (.map [("team", .ref (.map [marks]))], .ok 1) := by
    simp only [team, schema, root, marks, path]
    cbv
  have hthen : (Value.map [("team", .ref (.map [marks]))]).setAt second (.text "Ada")
      schema.shaping = (after, .ok 1) := by
    simp only [team, schema, marks, names, second, after]
    cbv
  have hother : root.setAt second (.text "Ada") schema.shaping =
      (.map [("team", .ref (.map [names]))], .ok 1) := by
    simp only [team, schema, root, names, second]
    cbv
  have hlast : (Value.map [("team", .ref (.map [names]))]).setAt path (.int 9) schema.shaping =
      (final, .ok 1) := by
    simp only [team, schema, marks, names, path, final]
    cbv
  exact ⟨hpath, hsecond, hnotPath, hnotSecond, ⟨_, hfirst, hthen⟩, ⟨_, hother, hlast⟩,
    setAt_comm hpath hsecond (by decide) (by decide) hnotPath hnotSecond (some schema) hfirst hthen
      hother hlast⟩

end Value

end NestedData
