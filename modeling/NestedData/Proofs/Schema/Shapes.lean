import NestedData.Proofs.Schema.Everywhere
import NestedData.Proofs.Value.Assembly
import NestedData.Schema.Shaping

/-!
# Shapes created by schemas

A schema shapes what an assignment creates with the zero values of its nodes.  Unless a
node says itself what stands for an absent value, these are well-formed, and where a
container is asked for they are containers.

Main results:

- `Schema.Everywhere.at?`: what is looked up in a schema belongs to the class of the schema.
- `Schema.wellFormed_zero`: zero values are well-formed.
- `Schema.sound_shaping`: the shapes that a schema asks for are sound.
- `Schema.firm_shaping`: what a schema creates lasts, if the defaults of its containers do not
  point at nothing.
-/

namespace NestedData

/-- The shapes that are created are well-formed, and a container where one is asked for. -/
structure Shaping.Sound (shaping : Shaping) : Prop where
  /-- Lists are padded with well-formed values. -/
  zero : ∀ location, (shaping.zeroAt location).WellFormed
  /-- A segment is given a container to select from. -/
  container : ∀ location segment, (shaping.containerAt location segment).kind.isContainer = true
  /-- The container is well-formed. -/
  wellFormed : ∀ location segment, (shaping.containerAt location segment).WellFormed

theorem Shaping.containerAt_plain (location : Location) (segment : Segment) :
    plain.containerAt location segment =
      if segment.isIndexShaped then .ofItems #[] else .map [] := rfl

/-- The shapes that a path asks for by itself are sound. -/
theorem Shaping.sound_plain : Shaping.plain.Sound where
  zero := fun _ => .null
  container := by
    intro location segment
    rw [containerAt_plain]
    split <;> rfl
  wellFormed := by
    intro location segment
    rw [containerAt_plain]
    split
    · exact .list (by simp [Sequence.growable])
    · exact .map List.nodup_nil (by simp)

/-- What is created is well-formed, and what is created for a segment to select from is null or
leads to something that is there. -/
structure Shaping.Firm (shaping : Shaping) : Prop where
  /-- Lists are padded with well-formed values. -/
  zero : ∀ location, (shaping.zeroAt location).WellFormed
  /-- What a segment is to select from is well-formed. -/
  wellFormed : ∀ location segment, (shaping.containerAt location segment).WellFormed
  /-- A reference that is created leads to something that is there. -/
  there : ∀ location segment, (shaping.containerAt location segment).target.isAbsent = true →
    shaping.containerAt location segment = .null

theorem Shaping.firm_plain : Shaping.plain.Firm where
  zero := fun _ => .null
  wellFormed := Shaping.sound_plain.wellFormed
  there := by
    intro location segment habsent
    rw [containerAt_plain] at habsent
    split at habsent <;> cases habsent

/-- No node of a schema says itself what stands for an absent value. -/
def Schema.WithoutDefaults : Schema → Prop :=
  Schema.Everywhere (fun node => node.default? = none) fun _ => True

/-- What a node says itself stands for an absent value is well-formed, and where a container is
described it is null itself or leads to something that is there. -/
def Node.HasFirmDefault (node : Node Schema) : Prop :=
  ∀ value, node.default? = some value →
    value.WellFormed ∧
      (node.kind.isContainer = true → value.target.isAbsent = true → value = .null)

/-- Every node of a schema has a firm default, if it has one. -/
def Schema.HasFirmDefaults : Schema → Prop :=
  Schema.Everywhere Node.HasFirmDefault fun _ => True

namespace Schema

variable {onNode : Node Schema → Prop} {onUnion : NodeUnion Schema → Prop} {schema : Schema}
  {node : Node Schema} {segments : List Segment} {location : Location}

/-! ## Looking up keeps the class -/

/-- The node that stands for a schema belongs to the class of the schema. -/
theorem Everywhere.primary (hschema : Everywhere onNode onUnion schema)
    (hprimary : schema.primary? = some node) : Everywhere onNode onUnion (.single node) := by
  cases schema with
  | single only =>
    obtain rfl : only = node := Option.some.inj hprimary
    exact hschema
  | choice union =>
    obtain ⟨preferred, hpreferred, rfl⟩ := Option.map_eq_some_iff.mp hprimary
    have halternatives := (everywhere_choice_iff.mp hschema).2
    exact halternatives preferred (NodeUnion.mem_of_preferred? hpreferred)

theorem Everywhere.any (hany : onNode .any) : Everywhere onNode onUnion (.single .any) :=
  .single hany fun part hpart => by simp [Node.parts, Node.any, Node.element?, Node.entries?,
    Node.pointee?] at hpart

section LookupWith

variable {found : Node Schema} {lookupPart : node.EachPart Lookup}

/-- What a node gives for a place belongs to the class if what its parts give does. -/
theorem Everywhere.lookupWith (hany : onNode .any)
    (hnode : Everywhere onNode onUnion (.single node))
    (hparts : ∀ part hpart segments location, lookupPart part hpart segments location = .ok found →
      Everywhere onNode onUnion (.single found))
    (hfound : node.lookupWith lookupPart segments location = .ok found) :
    Everywhere onNode onUnion (.single found) := by
  have hnowhere {why : Absence} (hno : node.noPlace location why = .ok found) :
      Everywhere onNode onUnion (.single found) := by cases hno
  have heverything (hok : Except.ok .any = Except.ok (ε := SchemaError) found) :
      Everywhere onNode onUnion (.single found) := Except.ok.inj hok ▸ .any hany
  have hentry {key : String} {rest : List Segment}
      (hok : node.lookupEntry lookupPart key rest location = .ok found) :
      Everywhere onNode onUnion (.single found) := by
    unfold Node.lookupEntry at hok
    split at hok
    · exact hparts _ _ _ _ hok
    · split at hok
      · exact heverything hok
      · exact hnowhere hok
  have hfield {name : String} {rest : List Segment}
      (hok : node.lookupField lookupPart name rest location = .ok found) :
      Everywhere onNode onUnion (.single found) := by
    unfold Node.lookupField at hok
    split at hok
    · exact hparts _ _ _ _ hok
    · exact hnowhere hok
  have helement {position : Nat} {rest : List Segment}
      (hok : node.lookupElement lookupPart position rest location = .ok found) :
      Everywhere onNode onUnion (.single found) := by
    unfold Node.lookupElement at hok
    split at hok
    · exact hnowhere hok
    · split at hok
      · exact hparts _ _ _ _ hok
      · exact heverything hok
  unfold Node.lookupWith at hfound
  split at hfound
  · exact Except.ok.inj hfound ▸ hnode
  · split at hfound
    · exact heverything hfound
    · split at hfound
      · split at hfound
        · exact hparts _ _ _ _ hfound
        · exact heverything hfound
      · split at hfound
        · exact hnowhere hfound
        · split at hfound <;>
            first | exact hentry hfound | exact hfield hfound | exact helement hfound |
              exact hnowhere hfound

end LookupWith

/-- The first of several nodes that was found is one of them. -/
theorem exists_of_firstFound {fault : SchemaError} {found : Node Schema}
    {candidates : List (Except SchemaError (Node Schema))}
    (hfound : firstFound fault candidates = .ok found) : .ok found ∈ candidates := by
  induction candidates generalizing fault with
  | nil => cases hfound
  | cons candidate rest ih =>
    cases candidate with
    | error error => exact List.mem_cons_of_mem _ (ih hfound)
    | ok node => exact List.mem_cons.mpr (.inl hfound.symm)

/-- What is looked up in a schema belongs to the class of the schema. -/
theorem Everywhere.lookup (hany : onNode .any) (hschema : Everywhere onNode onUnion schema)
    (hfound : schema.lookup segments location = .ok node) :
    Everywhere onNode onUnion (.single node) := by
  induction schema using Schema.induct generalizing segments location with
  | single only ih =>
    rw [lookup_single] at hfound
    have hparts := (everywhere_single_iff.mp hschema).2
    exact hschema.lookupWith hany
      (fun part hpart segments location => ih part hpart (hparts part hpart)) hfound
  | choice union ih =>
    rw [lookup_choice] at hfound
    obtain ⟨alternative, hmem, hgives⟩ := List.mem_map.mp (exists_of_firstFound hfound)
    have halternative := NodeUnion.mem_of_mem_ordered hmem
    exact ih alternative halternative ((everywhere_choice_iff.mp hschema).2 _ halternative) hgives

/-- The node that describes a place belongs to the class of the schema. -/
theorem Everywhere.at? {path : Path} (hany : onNode .any)
    (hschema : Everywhere onNode onUnion schema) (hfound : schema.at? path = .ok node) :
    Everywhere onNode onUnion (.single node) := by
  unfold Schema.at? at hfound
  split at hfound
  · cases hfound
  · exact hschema.lookup hany hfound

/-! ## Zero values -/

/-- Zero values are well-formed if the defaults are. -/
theorem Everywhere.wellFormed_zero (hschema : Everywhere (fun node =>
    ∀ value, node.default? = some value → value.WellFormed) onUnion schema) :
    schema.zero.WellFormed := by
  induction schema using Schema.induct with
  | single node ih =>
    obtain ⟨hdefault, hparts⟩ := everywhere_single_iff.mp hschema
    have hzero (part : Schema) (hpart : part ∈ node.parts) := ih part hpart (hparts part hpart)
    rw [zero_single, Node.zeroWith]
    cases hgiven : node.default? with
    | some value => exact hdefault value hgiven
    | none =>
      dsimp only
      cases hshape : node.shape with
      | array bound? =>
        apply Value.WellFormed.list
        intro item hitem
        obtain ⟨position, _, rfl⟩ := Array.mem_iff_getElem.mp hitem
        simp only [Sequence.fixed, Array.getElem_ofFn]
        split
        · exact hzero _ (Node.mem_parts_of_elementAt? ‹_›)
        · exact .null
      | record =>
        refine .record (Record.nodup_names_ofFields _ _) fun field hfield => ?_
        obtain ⟨child, _, rfl⟩ := List.mem_map.mp (Record.mem_fields_ofFields hfield)
        exact hzero _ (Node.mem_parts_of_attached child)
      | list element? => exact .list (by simp [Sequence.growable])
      | map entries? => exact .map List.nodup_nil (by simp)
      | _ => simp
  | choice union ih =>
    rw [zero_choice]
    cases hpreferred : union.preferred? with
    | none => exact .null
    | some preferred =>
      have hmem := NodeUnion.mem_of_preferred? hpreferred
      exact ih preferred hmem ((everywhere_choice_iff.mp hschema).2 preferred hmem)

/-- Without defaults, zero values are well-formed. -/
theorem wellFormed_zero (hschema : schema.WithoutDefaults) : schema.zero.WellFormed := by
  have hdefaults : Everywhere (fun node => ∀ value, node.default? = some value →
      value.WellFormed) (fun _ => True) schema := by
    refine hschema.mono (fun node hnone value hsome => ?_) fun _ _ => trivial
    rw [hnone] at hsome
    cases hsome
  exact hdefaults.wellFormed_zero

/-! ## What is created -/

/-- The node of a container belongs to the class of the schema, and describes a container. -/
theorem Everywhere.containerNode? (hany : onNode .any)
    (hschema : Everywhere onNode onUnion schema)
    (hfound : schema.containerNode? location = some node) :
    Everywhere onNode onUnion (.single node) ∧ node.kind.isContainer = true := by
  unfold Schema.containerNode? at hfound
  split at hfound
  · rename_i described hat
    have hdescribed := hschema.at? hany hat
    obtain ⟨htarget, hcontainer⟩ := Option.filter_eq_some_iff.mp hfound
    refine ⟨?_, hcontainer⟩
    split at htarget
    · obtain ⟨pointee, hpointee, hprimary⟩ := Option.bind_eq_some_iff.mp htarget
      have hpart := Node.mem_parts_of_pointee? hpointee
      exact ((everywhere_single_iff.mp hdescribed).2 pointee hpart).primary hprimary
    · exact Option.some.inj htarget ▸ hdescribed
  · cases hfound

/-- Without defaults, the shapes that a schema asks for are sound. -/
theorem sound_shaping (hschema : schema.WithoutDefaults) : schema.shaping.Sound where
  zero := by
    intro location
    simp only [shaping, zeroAt]
    split
    · rename_i node hfound
      exact wellFormed_zero (hschema.at? rfl hfound)
    · exact .null
  container := by
    intro location segment
    simp only [shaping, containerAt]
    split
    · rename_i node hfound
      obtain ⟨hnode, hcontainer⟩ : WithoutDefaults (.single node) ∧ _ :=
        Everywhere.containerNode? rfl hschema hfound
      have hdefinite : node.kind ≠ .any := by
        intro hsame
        rw [hsame] at hcontainer
        cases hcontainer
      rwa [Node.zero, kind_zero (everywhere_single_iff.mp hnode).1 hdefinite]
    · exact Shaping.sound_plain.container location segment
  wellFormed := by
    intro location segment
    simp only [shaping, containerAt]
    split
    · rename_i node hfound
      have hnode : WithoutDefaults (.single node) ∧ _ :=
        Everywhere.containerNode? rfl hschema hfound
      exact wellFormed_zero hnode.1
    · exact Shaping.sound_plain.wellFormed location segment

/-- Zero values are well-formed where the defaults are firm. -/
theorem HasFirmDefaults.wellFormed_zero (hschema : schema.HasFirmDefaults) :
    schema.zero.WellFormed :=
  Everywhere.wellFormed_zero (hschema.mono
    (fun _ hdefaults value hvalue => (hdefaults value hvalue).1) fun _ _ => trivial)

theorem hasFirmDefault_any : Node.HasFirmDefault .any := by
  intro value hvalue
  cases hvalue

/-- What a schema creates lasts, if the defaults of its containers do not point at nothing. -/
theorem firm_shaping (hschema : schema.HasFirmDefaults) : schema.shaping.Firm where
  zero := by
    intro location
    simp only [shaping, zeroAt]
    split
    · rename_i node hfound
      exact HasFirmDefaults.wellFormed_zero (hschema.at? hasFirmDefault_any hfound)
    · exact .null
  wellFormed := by
    intro location segment
    simp only [shaping, containerAt]
    split
    · rename_i node hfound
      have hnode : HasFirmDefaults (.single node) ∧ _ :=
        Everywhere.containerNode? hasFirmDefault_any hschema hfound
      exact hnode.1.wellFormed_zero
    · exact Shaping.sound_plain.wellFormed location segment
  there := by
    intro location segment habsent
    simp only [shaping, containerAt] at habsent ⊢
    split at habsent
    · rename_i node hfound
      obtain ⟨hnode, hcontainer⟩ : HasFirmDefaults (.single node) ∧ _ :=
        Everywhere.containerNode? hasFirmDefault_any hschema hfound
      cases hdefault : node.default? with
      | some value =>
        rw [Node.zero, zero_single, Node.zeroWith, hdefault] at habsent ⊢
        exact ((everywhere_single_iff.mp hnode).1 value hdefault).2 hcontainer habsent
      | none =>
        have hdefinite : node.kind ≠ .any := by
          intro hsame
          rw [hsame] at hcontainer
          cases hcontainer
        rw [← kind_zero hdefault hdefinite] at hcontainer
        rw [Node.zero] at habsent
        cases hzero : (Schema.single node).zero <;> rw [hzero] at habsent hcontainer <;>
          first | (cases hcontainer; done) | cases habsent
    · rw [Shaping.containerAt_plain] at habsent
      split at habsent <;> cases habsent

end Schema

end NestedData
