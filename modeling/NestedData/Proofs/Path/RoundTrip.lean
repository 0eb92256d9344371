import Mathlib.Tactic.TFAE
import NestedData.Proofs.Path.Canonical
import NestedData.Proofs.Path.Selectors

/-!
# The round trip of paths

This module proves that a canonical path reads as it was written, so that the
canonical paths are exactly the ones that texts spell, and every one of them is
spelled by the text it is written as.

Main results:

- `PathText.readGroup_renderGroup`: a group reads as it was written.
- `Path.parse_render`: a canonical path reads as it was written.
- `Path.parse_tfae`: being read, being read from its own text and being canonical
  are the same thing.
-/

open NestedData.Outcome

namespace NestedData

/-! ## Bare names -/

/-- The characters that a bare name never holds. -/
def reservedCharacters : List Char := ['.', '[', ']', '\'', '"', ' ', '$', '*']

theorem reserved_not_in_identifier {c : Char} (hreserved : c ∈ reservedCharacters) :
    Text.isLetterOrNumber c = false ∧ c ≠ '_' := by
  simp only [reservedCharacters, List.mem_cons, List.not_mem_nil, or_false] at hreserved
  rcases hreserved with rfl | rfl | rfl | rfl | rfl | rfl | rfl | rfl <;> decide +kernel

/-- An identifier is not empty and holds no reserved characters. -/
theorem identifier_plain {name : String} (hname : isIdentifier name = true) :
    name.toList ≠ [] ∧ ∀ c ∈ name.toList, c ∉ reservedCharacters := by
  unfold isIdentifier at hname
  split at hname
  · contradiction
  · rename_i first rest hshape
    rw [hshape]
    simp only [Bool.and_eq_true, List.all_eq_true, Bool.or_eq_true, beq_iff_eq] at hname
    refine ⟨by simp, ?_⟩
    intro c hmem hreserved
    rcases reserved_not_in_identifier hreserved with ⟨hletter, hunderscore⟩
    rcases List.mem_cons.mp hmem with rfl | hmem
    · simp [Text.isLetterOrNumber, hname.1] at hletter
    · rcases hname.2 c hmem with hc | hc
      · rw [hletter] at hc
        contradiction
      · exact hunderscore hc

/-- A segment that is neither the root mark nor written in brackets is a bare name. -/
theorem Segment.exists_identifier {segment : Segment} (hroot : segment ≠ .root)
    (hbare : segment.isBracketed = false) :
    ∃ name, isIdentifier name = true ∧ segment = .key name := by
  cases segment with
  | root => exact absurd rfl hroot
  | key name => exact ⟨name, by simpa [isBracketed] using hbare, rfl⟩
  | _ => simp [isBracketed] at hbare

theorem Segment.render_identifier {name : String} (hname : isIdentifier name = true) :
    (Segment.key name).render true = name.toList := by
  simp [render, hname]

theorem Segment.render_dotted {name : String} (hname : isIdentifier name = true) :
    (Segment.key name).render false = '.' :: name.toList := by
  simp [render, hname]

theorem Segment.render_ne_nil (segment : Segment) : segment.render true ≠ [] := by
  by_cases hbracketed : segment.isBracketed = true
  · simp [render_of_isBracketed hbracketed]
  · by_cases hroot : segment = .root
    · simp [hroot, render]
    · rcases exists_identifier hroot (by simpa using hbracketed) with ⟨name, hname, rfl⟩
      rw [render_identifier hname]
      exact (identifier_plain hname).1

namespace PathText

/-! ## Segments are passed over by the splitters -/

theorem reads_identifier {name : String} (hname : isIdentifier name = true) :
    Reads (.bare 0) name.toList (.bare 0) := by
  refine .of_plain fun c hc hmem => (identifier_plain hname).2 c hc ?_
  simp only [List.mem_cons, List.not_mem_nil, or_false] at hmem
  rcases hmem with rfl | rfl | rfl <;> simp [reservedCharacters]

theorem reads_bracketed {segment : Segment} (hbracketed : segment.isBracketed = true)
    (leading : Bool) : Reads (.bare 0) (segment.render leading) (.bare 0) := by
  rw [Segment.render_of_isBracketed hbracketed]
  exact .bracket (skips_content segment) (by simp)

/-- The segment that starts a group is passed over outside brackets. -/
theorem reads_leading (segment : Segment) : Reads (.bare 0) (segment.render true) (.bare 0) := by
  by_cases hbracketed : segment.isBracketed = true
  · exact reads_bracketed hbracketed true
  · by_cases hroot : segment = .root
    · subst hroot
      exact .of_plain (by simp [Segment.render])
    · rcases Segment.exists_identifier hroot (by simpa using hbracketed) with ⟨name, hname, rfl⟩
      rw [Segment.render_identifier hname]
      exact reads_identifier hname

/-- The splitter of groups passes over the segments inside a group. -/
theorem splitGroups_inner {segments : List Segment} (hroot : .root ∉ segments) (rest : List Char) :
    splitGroups (.bare 0) (segments.flatMap (Segment.render false) ++ rest) =
      (splitGroups (.bare 0) rest).map
        (Pieces.prepend (segments.flatMap (Segment.render false))) := by
  induction segments with
  | nil => exact (map_prepend_nil _).symm
  | cons segment others ih =>
    have hlater := ih fun hmem => hroot (List.mem_cons_of_mem _ hmem)
    rw [List.flatMap_cons, List.append_assoc]
    by_cases hbracketed : segment.isBracketed = true
    · rw [splitGroups_reads (reads_bracketed hbracketed false), hlater, map_prepend_prepend]
    · obtain ⟨name, hname, rfl⟩ := Segment.exists_identifier
        (fun h => hroot (h ▸ List.mem_cons_self)) (by simpa using hbracketed)
      rcases identifier_plain hname with ⟨hne, hplain⟩
      have hstep : (Nesting.bare 0).step? '.' = .ok (.bare 0) := rfl
      rw [Segment.render_dotted hname, List.cons_append, splitGroups_step ?_ hstep,
        splitGroups_reads (reads_identifier hname), hlater, map_prepend_prepend, map_cons_prepend]
      · rfl
      · rintro ⟨_, _, more, hshape⟩
        rcases List.exists_cons_of_ne_nil hne with ⟨c, tail, htext⟩
        rw [htext, List.cons_append, List.cons.injEq] at hshape
        exact hplain c (by simp [htext]) (by simp [hshape.1, reservedCharacters])

/-- The splitter of groups passes over a whole group. -/
theorem splitGroups_group {group : List Segment} (hroot : .root ∉ group.tail) (rest : List Char) :
    splitGroups (.bare 0) (renderGroup group ++ rest) =
      (splitGroups (.bare 0) rest).map (Pieces.prepend (renderGroup group)) := by
  cases group with
  | nil => exact (map_prepend_nil _).symm
  | cons first others =>
    have hothers : .root ∉ others := hroot
    rw [renderGroup, List.append_assoc, splitGroups_reads (reads_leading first),
      splitGroups_inner hothers, map_prepend_prepend]

/-- The searches of a path come apart into their groups. -/
theorem splitGroups_searches {searches : List (List Segment)}
    (hroot : ∀ group ∈ searches, .root ∉ group) :
    splitGroups (.bare 0) (searches.flatMap fun group => '.' :: '.' :: renderGroup group) =
      .ok ([], searches.map renderGroup) := by
  induction searches with
  | nil => rfl
  | cons group rest ih =>
    have hgroup : .root ∉ group.tail := fun h => hroot group (by simp) (List.mem_of_mem_tail h)
    rw [List.flatMap_cons, List.cons_append, List.cons_append, splitGroups, if_pos rfl,
      splitGroups_group hgroup, ih fun other hmem => hroot other (List.mem_cons_of_mem _ hmem)]
    simp [Except.map, Pieces.prepend, Pieces.open]

/-! ## Compounds -/

/-- The compounds that the segments inside a group form: the selectors that still
belong to what stands before them, and then a bare name with its selectors each. -/
def compoundsOf : List Segment → List Segment × List (List Segment)
  | [] => ([], [])
  | segment :: rest =>
    let (brackets, later) := compoundsOf rest
    if segment.isBracketed then (segment :: brackets, later)
    else ([], (segment :: brackets) :: later)

/-- The compounds hold the segments in their order. -/
theorem compoundsOf_flatten (segments : List Segment) :
    (compoundsOf segments).1 ++ (compoundsOf segments).2.flatten = segments := by
  induction segments with
  | nil => rfl
  | cons segment rest ih =>
    simp only [compoundsOf]
    split
    · rw [List.cons_append, ih]
    · simp [ih]

/-- The segments of the compounds are segments of the group. -/
theorem mem_of_mem_compoundsOf (segments : List Segment) :
    (∀ segment ∈ (compoundsOf segments).1, segment ∈ segments) ∧
      ∀ compound ∈ (compoundsOf segments).2, ∀ segment ∈ compound, segment ∈ segments := by
  have hflatten := compoundsOf_flatten segments
  constructor
  · intro segment hmem
    rw [← hflatten]
    exact List.mem_append_left _ hmem
  · intro compound hcompound segment hmem
    rw [← hflatten]
    exact List.mem_append_right _ (List.mem_flatten.mpr ⟨compound, hcompound, hmem⟩)

/-- The segments of a compound behind its first one are written in brackets. -/
theorem compoundsOf_bracketed (segments : List Segment) :
    (∀ segment ∈ (compoundsOf segments).1, segment.isBracketed = true) ∧
      ∀ compound ∈ (compoundsOf segments).2, ∃ first brackets, compound = first :: brackets ∧
        ∀ segment ∈ brackets, segment.isBracketed = true := by
  induction segments with
  | nil => simp [compoundsOf]
  | cons segment rest ih =>
    simp only [compoundsOf]
    split
    · rename_i hbracketed
      refine ⟨?_, ih.2⟩
      intro member hmem
      rcases List.mem_cons.mp hmem with rfl | hmem
      · exact hbracketed
      · exact ih.1 member hmem
    · refine ⟨by simp, ?_⟩
      intro compound hmem
      rcases List.mem_cons.mp hmem with rfl | hmem
      · exact ⟨segment, _, rfl, ih.1⟩
      · exact ih.2 compound hmem

/-- The segments inside a group come apart into its compounds. -/
theorem splitCompounds_inner {segments : List Segment} (hroot : .root ∉ segments) :
    splitCompounds (.bare 0) (segments.flatMap (Segment.render false)) =
      .ok ((compoundsOf segments).1.flatMap (Segment.render false),
        (compoundsOf segments).2.map renderGroup) := by
  induction segments with
  | nil => rfl
  | cons segment rest ih =>
    have hlater := ih fun hmem => hroot (List.mem_cons_of_mem _ hmem)
    rw [List.flatMap_cons]
    by_cases hbracketed : segment.isBracketed = true
    · rw [splitCompounds_reads (reads_bracketed hbracketed false), hlater]
      simp [compoundsOf, hbracketed, Except.map, Pieces.prepend]
    · obtain ⟨name, hname, rfl⟩ := Segment.exists_identifier
        (fun h => hroot (h ▸ List.mem_cons_self)) (by simpa using hbracketed)
      rw [Segment.render_dotted hname, List.cons_append, splitCompounds, if_pos ⟨rfl, rfl⟩,
        splitCompounds_reads (reads_identifier hname), hlater]
      simp [compoundsOf, hbracketed, Except.map, Pieces.prepend, Pieces.open, renderGroup,
        Segment.render_identifier hname]

theorem splitCompounds_group {first : Segment} {rest : List Segment} (hroot : .root ∉ rest) :
    splitCompounds (.bare 0) (renderGroup (first :: rest)) =
      .ok (renderGroup (first :: (compoundsOf rest).1), (compoundsOf rest).2.map renderGroup) := by
  rw [renderGroup, splitCompounds_reads (reads_leading first), splitCompounds_inner hroot]
  simp [Except.map, Pieces.prepend, renderGroup]

/-! ## Compounds read as they were written -/

/-- Selectors in a row read as they were written. -/
theorem readBrackets_render (compound : List Char) {segments : List Segment}
    (hsegments : ∀ segment ∈ segments, segment.isBracketed = true ∧ segment.IsCanonical) :
    readBrackets compound (segments.flatMap (Segment.render false)) = .ok segments := by
  induction segments with
  | nil => rw [List.flatMap_nil, readBrackets]
  | cons segment rest ih =>
    rcases hsegments segment (by simp) with ⟨hbracketed, hcanonical⟩
    have hroot : segment ≠ .root := by
      rintro rfl
      simp [Segment.isBracketed] at hbracketed
    rw [List.flatMap_cons, Segment.render_of_isBracketed hbracketed, List.cons_append,
      List.cons_append, readBrackets_open, List.append_assoc, List.singleton_append,
      takeBracket?_skips (skips_content segment) (by simp)]
    simp only [readBracket_content hroot hcanonical]
    rw [ih fun other hmem => hsegments other (List.mem_cons_of_mem _ hmem)]
    rfl

/-- Selectors in a row start with a bracket, if there are any. -/
theorem takeWhile_render {segments : List Segment}
    (hsegments : ∀ segment ∈ segments, segment.isBracketed = true) :
    (segments.flatMap (Segment.render false)).takeWhile (· != '[') = [] ∧
      (segments.flatMap (Segment.render false)).dropWhile (· != '[') =
        segments.flatMap (Segment.render false) := by
  cases segments with
  | nil => exact ⟨rfl, rfl⟩
  | cons segment rest =>
    rw [List.flatMap_cons, Segment.render_of_isBracketed (hsegments segment (by simp))]
    simp

/-- A compound with a bare part reads as its parts do. -/
theorem readCompound_bare {atStart : Bool} {bare : List Char} {first : Segment}
    {brackets : List Segment} (hne : bare ≠ []) (hplain : ∀ c ∈ bare, c ≠ '[')
    (hbare : readBare atStart bare = .ok first)
    (hbrackets : ∀ segment ∈ brackets, segment.isBracketed = true ∧ segment.IsCanonical) :
    readCompound atStart (bare ++ brackets.flatMap (Segment.render false)) =
      .ok (first :: brackets) := by
  rcases takeWhile_render fun segment hmem => (hbrackets segment hmem).1 with ⟨htake, hdrop⟩
  have hpass : ∀ c ∈ bare, (c != '[') = true := fun c hc => by simp [hplain c hc]
  unfold readCompound
  rw [List.takeWhile_append_of_pos hpass, List.dropWhile_append_of_pos hpass, htake, hdrop,
    List.append_nil]
  dsimp only
  rw [if_neg (by simpa using hne), hbare, readBrackets_render _ hbrackets]
  rfl

/-- A bare name reads as the name. -/
theorem readBare_identifier {name : String} (hname : isIdentifier name = true) (atStart : Bool) :
    readBare atStart name.toList = .ok (.key name) := by
  rcases identifier_plain hname with ⟨_, hplain⟩
  have hne (c : Char) (hreserved : c ∈ reservedCharacters) : name.toList ≠ [c] := by
    intro h
    exact hplain c (by simp [h]) hreserved
  have hquotes : name.toList.any needsQuotes = false := by
    rw [List.any_eq_false]
    intro c hc hneeds
    simp only [needsQuotes, isQuoteMark, Bool.or_eq_true, beq_iff_eq] at hneeds
    rcases hneeds with ((rfl | rfl) | rfl) | rfl <;>
      exact hplain _ hc (by simp [reservedCharacters])
  rw [readBare, if_neg (hne '$' (by simp [reservedCharacters])),
    if_neg (hne '*' (by simp [reservedCharacters])), hquotes]
  simp

/-- A compound reads as it was written. -/
theorem readCompound_renderGroup {atStart : Bool} {first : Segment} {brackets : List Segment}
    (hstart : first = .root → atStart = true) (hcanonical : first.IsCanonical)
    (hbrackets : ∀ segment ∈ brackets, segment.isBracketed = true ∧ segment.IsCanonical) :
    readCompound atStart (renderGroup (first :: brackets)) = .ok (first :: brackets) := by
  rw [renderGroup]
  by_cases hbracketed : first.isBracketed = true
  · have hall : ∀ segment ∈ first :: brackets,
        segment.isBracketed = true ∧ segment.IsCanonical := by
      intro segment hmem
      rcases List.mem_cons.mp hmem with rfl | hmem
      · exact ⟨hbracketed, hcanonical⟩
      · exact hbrackets segment hmem
    have htext : first.render true ++ brackets.flatMap (Segment.render false) =
        (first :: brackets).flatMap (Segment.render false) := by
      rw [List.flatMap_cons, Segment.render_of_isBracketed hbracketed,
        Segment.render_of_isBracketed hbracketed]
    rcases takeWhile_render fun segment hmem => (hall segment hmem).1 with ⟨htake, hdrop⟩
    unfold readCompound
    rw [htext, htake, hdrop]
    exact readBrackets_render _ hall
  · by_cases hroot : first = .root
    · subst hroot
      refine readCompound_bare (by simp [Segment.render]) (by simp [Segment.render]) ?_ hbrackets
      simp [Segment.render, readBare, hstart rfl]
    · rcases Segment.exists_identifier hroot (by simpa using hbracketed) with ⟨name, hname, rfl⟩
      rcases identifier_plain hname with ⟨hne, hplain⟩
      rw [Segment.render_identifier hname]
      refine readCompound_bare hne ?_ (readBare_identifier hname atStart) hbrackets
      rintro c hc rfl
      exact hplain _ hc (by simp [reservedCharacters])

/-! ## Groups read as they were written -/

/-- Later compounds of a group read as they were written. -/
theorem readCompounds_renderGroup (group : List Char) {compounds : List (List Segment)}
    (hcompounds : ∀ compound ∈ compounds, ∃ first brackets, compound = first :: brackets ∧
      first ≠ .root ∧ first.IsCanonical ∧
        ∀ segment ∈ brackets, segment.isBracketed = true ∧ segment.IsCanonical) :
    readCompounds group false (compounds.map renderGroup) = .ok compounds.flatten := by
  induction compounds with
  | nil => rfl
  | cons compound rest ih =>
    rcases hcompounds compound (by simp) with ⟨first, brackets, rfl, hroot, hcanonical, hbrackets⟩
    have hne : (renderGroup (first :: brackets)).isEmpty = false := by
      simp [renderGroup, first.render_ne_nil]
    have hstart : first = .root → false = true := fun hsame => absurd hsame hroot
    have hread := readCompound_renderGroup hstart hcanonical hbrackets
    rw [List.map_cons, readCompounds, hne, hread,
      ih fun other hmem => hcompounds other (List.mem_cons_of_mem _ hmem)]
    rfl

/-- A group reads as it was written. -/
theorem readGroup_renderGroup {atStart : Bool} {group : List Segment} (hne : group ≠ [])
    (hstart : .root ∈ group → atStart = true) (hroot : .root ∉ group.tail)
    (hcanonical : ∀ segment ∈ group, segment.IsCanonical) :
    readGroup atStart (renderGroup group) = .ok group := by
  rcases List.exists_cons_of_ne_nil hne with ⟨first, rest, rfl⟩
  replace hroot : .root ∉ rest := hroot
  rcases compoundsOf_bracketed rest with ⟨hbrackets, hlater⟩
  rcases mem_of_mem_compoundsOf rest with ⟨hmem_brackets, hmem_later⟩
  have hfirst : readCompound atStart (renderGroup (first :: (compoundsOf rest).1)) =
      .ok (first :: (compoundsOf rest).1) :=
    readCompound_renderGroup (fun h => hstart (h ▸ List.mem_cons_self))
      (hcanonical first (by simp)) fun segment hmem =>
        ⟨hbrackets segment hmem,
          hcanonical segment (List.mem_cons_of_mem _ (hmem_brackets segment hmem))⟩
  have hothers : readCompounds (renderGroup (first :: rest)) false
      ((compoundsOf rest).2.map renderGroup) = .ok (compoundsOf rest).2.flatten := by
    refine readCompounds_renderGroup _ fun compound hmem => ?_
    rcases hlater compound hmem with ⟨lead, brackets, rfl, hbracketed⟩
    refine ⟨lead, brackets, rfl, ?_, ?_, ?_⟩
    · rintro rfl
      exact hroot (hmem_later _ hmem .root (by simp))
    · exact hcanonical lead (List.mem_cons_of_mem _ (hmem_later _ hmem lead (by simp)))
    · intro segment hsegment
      exact ⟨hbracketed segment hsegment, hcanonical segment
        (List.mem_cons_of_mem _ (hmem_later _ hmem segment (List.mem_cons_of_mem _ hsegment)))⟩
  have hne : (renderGroup (first :: (compoundsOf rest).1)).isEmpty = false := by
    simp [renderGroup, first.render_ne_nil]
  rw [readGroup, splitCompounds_group hroot]
  change readCompounds _ atStart (_ :: _) = _
  rw [readCompounds, hne, hfirst, hothers]
  change Except.ok (_ ++ _) = _
  rw [List.cons_append, compoundsOf_flatten]

/-- The groups of the searches read as they were written. -/
theorem readSearches_render {searches : List (List Segment)}
    (hsearches : ∀ group ∈ searches, group ≠ [] ∧ .root ∉ group ∧
      ∀ segment ∈ group, segment.IsCanonical) :
    readSearches (searches.map renderGroup) = .ok searches := by
  induction searches with
  | nil => rfl
  | cons group rest ih =>
    rcases hsearches group (by simp) with ⟨hne, hroot, hcanonical⟩
    have htext : (renderGroup group).isEmpty = false := by
      rcases List.exists_cons_of_ne_nil hne with ⟨first, others, rfl⟩
      simp [renderGroup, first.render_ne_nil]
    have hread : readGroup false (renderGroup group) = .ok group :=
      readGroup_renderGroup hne (fun h => absurd h hroot)
        (fun h => hroot (List.mem_of_mem_tail h)) hcanonical
    rw [List.map_cons, readSearches, htext, hread,
      ih fun other hmem => hsearches other (List.mem_cons_of_mem _ hmem)]
    rfl

/-- A canonical path reads as it was written. -/
theorem readPath_renderChars {path : Path} (hcanonical : path.IsCanonical) :
    readPath path.renderChars = .ok path := by
  rcases path with ⟨first, searches⟩
  have hfirst : ∀ segment ∈ first, segment.IsCanonical := fun segment hmem =>
    hcanonical.segments segment (List.mem_flatten.mpr ⟨first, by simp [Path.groups], hmem⟩)
  have hsearches : ∀ group ∈ searches, group ≠ [] ∧ .root ∉ group ∧
      ∀ segment ∈ group, segment.IsCanonical := fun group hmem =>
    ⟨hcanonical.search_ne_nil group hmem, hcanonical.root_notMem_search group hmem,
      fun segment hsegment => hcanonical.segments segment
        (List.mem_flatten.mpr ⟨group, List.mem_cons_of_mem _ hmem, hsegment⟩)⟩
  have hsplit : splitGroups (.bare 0) (Path.renderChars { first, searches }) =
      .ok (renderGroup first, searches.map renderGroup) := by
    rw [Path.renderChars, splitGroups_group hcanonical.root_first,
      splitGroups_searches hcanonical.root_notMem_search]
    simp [Except.map, Pieces.prepend]
  unfold readPath
  split
  · rename_i hempty
    cases first with
    | cons lead rest => simp [Path.renderChars, renderGroup, lead.render_ne_nil] at hempty
    | nil =>
      cases searches with
      | cons group rest => simp [Path.renderChars] at hempty
      | nil => rfl
  · rw [hsplit]
    cases first with
    | nil =>
      change (readSearches _ >>= _) = _
      rw [readSearches_render hsearches]
      rfl
    | cons lead rest =>
      have hlead : (renderGroup (lead :: rest)).isEmpty = false := by
        simp [renderGroup, lead.render_ne_nil]
      have hread : readGroup true (renderGroup (lead :: rest)) = .ok (lead :: rest) :=
        readGroup_renderGroup (by simp) (fun _ => rfl) hcanonical.root_first hfirst
      simp only [bind, Except.bind]
      rw [hlead, hread]
      simp only [Bool.false_eq_true, if_false]
      rw [readSearches_render hsearches]

end PathText

namespace Path

/-- A canonical path reads as it was written. -/
theorem parse_render {path : Path} (hcanonical : path.IsCanonical) :
    parse path.render = .ok path := by
  rw [parse, render, String.toList_ofList, PathText.readPath_renderChars hcanonical]
  rfl

/-- The paths that texts spell, the paths that read as they were written and the
canonical paths are the same. -/
theorem parse_tfae (path : Path) :
    List.TFAE [∃ text, parse text = .ok path, parse path.render = .ok path, path.IsCanonical] := by
  tfae_have 1 → 3 := fun ⟨_, hread⟩ => isCanonical_of_parse hread
  tfae_have 3 → 2 := fun hcanonical => parse_render hcanonical
  tfae_have 2 → 1 := fun hread => ⟨path.render, hread⟩
  tfae_finish

end Path

end NestedData
