import NestedData.Path.Parser
import NestedData.Proofs.Outcome

/-!
# Canonical paths

A text can only spell some of the paths there are: the root mark never stands
inside a path, a search always has a target, and a slice without bounds reads as
a wildcard.  This module says which paths are spelled by some text and proves
that the reader produces no others.

Main results:

- `PathText.readBracket_canonical`: what stands between two brackets is read as a
  canonical segment other than the root mark.
- `Path.isCanonical_of_parse`: a path that was read is canonical.
-/

open NestedData.Outcome

namespace NestedData

/-! ## The canonical form -/

/-- A position of a union fits in a machine word.  Names are unrestricted. -/
def Selector.IsCanonical : Selector → Prop
  | .key _ => True
  | .index position => position < UInt64.size

/-- A segment that can be written: its position is a signed word, its union has
at least two entries, and its slice at least one part. -/
def Segment.IsCanonical : Segment → Prop
  | .root | .key _ | .wildcard => True
  | .index position => position ≤ 0x7fffffffffffffff
  | .union entries => 2 ≤ entries.length ∧ ∀ entry ∈ entries, entry.IsCanonical
  | .slice start stop step => start.isSome ∨ stop.isSome ∨ step.isSome

/-- A path that some text spells. -/
structure Path.IsCanonical (path : Path) : Prop where
  /-- The root mark stands at the very start or nowhere in the first group. -/
  root_first : .root ∉ path.first.tail
  /-- The root mark stands in no search. -/
  root_notMem_search : ∀ group ∈ path.searches, .root ∉ group
  /-- Every search has a target. -/
  search_ne_nil : ∀ group ∈ path.searches, group ≠ []
  /-- Every segment can be written. -/
  segments : ∀ segment ∈ path.segments, segment.IsCanonical

namespace PathText

/-! ## What brackets are read as -/

/-- Reading the members of a list one by one keeps their number, and every result
comes from a member. -/
theorem mapM_eq_some {α β : Type} {read : α → Option β} {texts : List α} {results : List β}
    (hread : texts.mapM read = some results) :
    results.length = texts.length ∧
      ∀ result ∈ results, ∃ text ∈ texts, read text = some result := by
  induction texts generalizing results with
  | nil =>
    obtain rfl : [] = results := by simpa using hread
    simp
  | cons text rest ih =>
    rw [List.mapM_cons] at hread
    rcases Option.bind_eq_some_iff.mp hread with ⟨first, hfirst, hrest⟩
    rcases Option.bind_eq_some_iff.mp hrest with ⟨others, hothers, hsame⟩
    obtain rfl : first :: others = results := by simpa using hsame
    rcases ih hothers with ⟨hlength, hmem⟩
    refine ⟨by simp [hlength], ?_⟩
    intro result hresult
    rcases List.mem_cons.mp hresult with rfl | hlater
    · exact ⟨text, by simp, hfirst⟩
    · rcases hmem result hlater with ⟨source, hsource, hfound⟩
      exact ⟨source, List.mem_cons_of_mem _ hsource, hfound⟩

/-- A position in a union is read only if it fits in a machine word. -/
theorem readSelector?_canonical {text : List Char} {selector : Selector}
    (hread : readSelector? text = some selector) : selector.IsCanonical := by
  unfold readSelector? at hread
  dsimp only at hread
  split at hread
  · rcases Option.map_eq_some_iff.mp hread with ⟨name, _, rfl⟩
    trivial
  · split at hread
    · rename_i position _
      split at hread
      · rename_i hfits
        obtain rfl : Selector.index position = selector := by simpa using hread
        exact hfits
      · contradiction
    · contradiction

theorem sliceOf_canonical (start stop step : Option Int64) :
    (sliceOf start stop step).IsCanonical ∧ sliceOf start stop step ≠ .root := by
  cases start <;> cases stop <;> cases step <;> simp [sliceOf, Segment.IsCanonical]

/-- The parts of a slice are read as a canonical segment. -/
theorem readSlice_canonical {parts : List (List Char)} {segment : Segment}
    (hread : readSlice parts = .ok segment) : segment.IsCanonical ∧ segment ≠ .root := by
  unfold readSlice at hread
  split at hread
  · contradiction
  · split at hread
    · contradiction
    · cases hread
      exact sliceOf_canonical _ _ _

/-- A single position is read as a canonical segment. -/
theorem readIndex_canonical {text : List Char} {segment : Segment}
    (hread : readIndex text = .ok segment) : segment.IsCanonical ∧ segment ≠ .root := by
  unfold readIndex at hread
  split at hread
  · rename_i number _
    split at hread
    · contradiction
    · cases hread
      have hbound := number.toInt_lt
      refine ⟨?_, by simp⟩
      simp only [Segment.IsCanonical]
      omega
  · contradiction

/-- What stands between two brackets is read as a canonical segment other than
the root mark. -/
theorem readBracket_canonical {content : List Char} {segment : Segment}
    (hread : readBracket content = .ok segment) : segment.IsCanonical ∧ segment ≠ .root := by
  unfold readBracket at hread
  dsimp only at hread
  split at hread
  · contradiction
  split at hread
  · cases hread
    simp [Segment.IsCanonical]
  split at hread
  · rename_i hmany
    split at hread
    · rename_i selectors hselectors
      cases hread
      rcases mapM_eq_some hselectors with ⟨hlength, hmem⟩
      refine ⟨⟨by omega, ?_⟩, by simp⟩
      intro selector hselector
      rcases hmem selector hselector with ⟨text, _, htext⟩
      exact readSelector?_canonical htext
    · contradiction
  split at hread
  · split at hread
    · cases hread
      simp [Segment.IsCanonical]
    · contradiction
  · split at hread
    · exact readSlice_canonical hread
    · exact readIndex_canonical hread

/-! ## What compounds are read as -/

/-- A bracket is read up to its end, and reading goes on behind it. -/
theorem readBrackets_open (compound rest : List Char) :
    readBrackets compound ('[' :: rest) =
      (match takeBracket? .outside rest with
      | none => .error (.unbalanced '[')
      | some (content, after) =>
        match readBracket content with
        | .error fault => invalid ('[' :: content ++ [']']) fault
        | .ok segment => do
          let segments ← readBrackets compound after
          .ok (segment :: segments)) := by
  rw [readBrackets]
  simp only [if_true]
  split
  · rename_i htaken
    generalize takeBracket? .outside rest = taken at htaken ⊢
    subst htaken
    rfl
  · rename_i htaken
    generalize takeBracket? .outside rest = taken at htaken ⊢
    subst htaken
    rfl

/-- The segments in the brackets of a compound are canonical, and there is one
unless the text is empty. -/
theorem readBrackets_canonical {compound text : List Char} {segments : List Segment}
    (hread : readBrackets compound text = .ok segments) :
    (∀ segment ∈ segments, segment.IsCanonical ∧ segment ≠ .root) ∧
      (text ≠ [] → segments ≠ []) := by
  induction text using readBrackets.induct generalizing segments with
  | case1 =>
    rw [readBrackets] at hread
    cases hread
    simp
  | case2 rest hopen =>
    rw [readBrackets_open, hopen] at hread
    contradiction
  | case3 rest content after htaken fault hcontent =>
    rw [readBrackets_open, htaken] at hread
    simp only [hcontent, invalid] at hread
    contradiction
  | case4 rest content after htaken segment hcontent ih =>
    rw [readBrackets_open, htaken] at hread
    simp only [hcontent] at hread
    rcases bind_eq_ok_iff.mp hread with ⟨others, hothers, hsame⟩
    cases hsame
    refine ⟨?_, by simp⟩
    intro member hmember
    rcases List.mem_cons.mp hmember with rfl | hlater
    · exact readBracket_canonical hcontent
    · exact (ih hothers).1 member hlater
  | case5 c rest hbare =>
    rw [readBrackets, if_neg hbare, invalid] at hread
    contradiction

/-- The bare part of a compound is canonical, and it is the root mark only at the
start of the path. -/
theorem readBare_canonical {atStart : Bool} {bare : List Char} {segment : Segment}
    (hread : readBare atStart bare = .ok segment) :
    segment.IsCanonical ∧ (segment = .root → atStart = true) := by
  unfold readBare at hread
  split at hread
  · split at hread
    · cases hread
      rename_i hstart
      exact ⟨trivial, fun _ => hstart⟩
    · contradiction
  split at hread
  · cases hread
    simp [Segment.IsCanonical]
  split at hread
  · contradiction
  · cases hread
    simp [Segment.IsCanonical]

/-- Segments of which each can be written and only the first may be the root
mark, and that only if `atStart` holds. -/
structure WellPlaced (atStart : Bool) (segments : List Segment) : Prop where
  /-- Every segment can be written. -/
  canonical : ∀ segment ∈ segments, segment.IsCanonical
  /-- The root mark does not follow another segment. -/
  root_first : .root ∉ segments.tail
  /-- The root mark stands only at the start. -/
  root_start : .root ∈ segments → atStart = true

theorem wellPlaced_of_no_root {segments : List Segment}
    (hsegments : ∀ segment ∈ segments, segment.IsCanonical ∧ segment ≠ .root) (atStart : Bool) :
    WellPlaced atStart segments where
  canonical segment hmem := (hsegments segment hmem).1
  root_first hmem := (hsegments .root (List.mem_of_mem_tail hmem)).2 rfl
  root_start hmem := absurd rfl (hsegments .root hmem).2

/-- The segments of a compound are well placed, and there is one unless the text
is empty. -/
theorem readCompound_wellPlaced {atStart : Bool} {compound : List Char} {segments : List Segment}
    (hread : readCompound atStart compound = .ok segments) :
    WellPlaced atStart segments ∧ (compound ≠ [] → segments ≠ []) := by
  unfold readCompound at hread
  dsimp only at hread
  split at hread
  · rename_i hbare
    rcases readBrackets_canonical hread with ⟨hcanonical, hnonempty⟩
    refine ⟨wellPlaced_of_no_root hcanonical atStart, ?_⟩
    intro hcompound
    apply hnonempty
    intro hbrackets
    apply hcompound
    rw [← List.takeWhile_append_dropWhile (p := (· != '[')) (l := compound), hbrackets]
    simpa using hbare
  · rcases bind_eq_ok_iff.mp hread with ⟨segment, hsegment, hrest⟩
    rcases bind_eq_ok_iff.mp hrest with ⟨others, hothers, hsame⟩
    cases hsame
    have hfirst := readBare_canonical hsegment
    have hlater := (readBrackets_canonical hothers).1
    refine ⟨⟨?_, ?_, ?_⟩, by simp⟩
    · intro member hmem
      rcases List.mem_cons.mp hmem with rfl | hmem
      · exact hfirst.1
      · exact (hlater member hmem).1
    · intro hroot
      exact (hlater .root hroot).2 rfl
    · intro hroot
      rcases List.mem_cons.mp hroot with hroot | hroot
      · exact hfirst.2 hroot.symm
      · exact absurd rfl (hlater .root hroot).2

/-! ## What groups are read as -/

/-- The segments of the compounds of a group are well placed. -/
theorem readCompounds_wellPlaced {group : List Char} {atStart : Bool}
    {compounds : List (List Char)} {segments : List Segment}
    (hread : readCompounds group atStart compounds = .ok segments) :
    WellPlaced atStart segments ∧ (compounds ≠ [] → segments ≠ []) := by
  induction compounds generalizing atStart segments with
  | nil =>
    rw [readCompounds] at hread
    cases hread
    exact ⟨⟨by simp, by simp, by simp⟩, by simp⟩
  | cons compound rest ih =>
    rw [readCompounds] at hread
    split at hread
    · contradiction
    · rename_i hcompound
      rcases bind_eq_ok_iff.mp hread with ⟨first, hfirst, hmore⟩
      rcases bind_eq_ok_iff.mp hmore with ⟨others, hothers, hsame⟩
      cases hsame
      rcases readCompound_wellPlaced hfirst with ⟨hplaced, hnonempty⟩
      rcases ih hothers with ⟨hlater, _⟩
      have hne : first ≠ [] := hnonempty (by simpa using hcompound)
      have hno : .root ∉ others := fun hroot => by simpa using hlater.root_start hroot
      refine ⟨⟨?_, ?_, ?_⟩, by simp [hne]⟩
      · intro member hmem
        rcases List.mem_append.mp hmem with hmem | hmem
        · exact hplaced.canonical member hmem
        · exact hlater.canonical member hmem
      · rw [List.tail_append_of_ne_nil hne, List.mem_append]
        rintro (hroot | hroot)
        · exact hplaced.root_first hroot
        · exact hno hroot
      · intro hroot
        rcases List.mem_append.mp hroot with hroot | hroot
        · exact hplaced.root_start hroot
        · exact absurd hroot hno

theorem readGroup_wellPlaced {atStart : Bool} {group : List Char} {segments : List Segment}
    (hread : readGroup atStart group = .ok segments) :
    WellPlaced atStart segments ∧ segments ≠ [] := by
  rcases bind_eq_ok_iff.mp hread with ⟨compounds, _, hcompounds⟩
  rcases readCompounds_wellPlaced hcompounds with ⟨hplaced, hnonempty⟩
  exact ⟨hplaced, hnonempty (by simp [Pieces.toList])⟩

/-- The groups of the searches are well placed away from the start, and none is
empty. -/
theorem readSearches_wellPlaced {texts : List (List Char)} {searches : List (List Segment)}
    (hread : readSearches texts = .ok searches) :
    ∀ group ∈ searches, WellPlaced false group ∧ group ≠ [] := by
  induction texts generalizing searches with
  | nil =>
    rw [readSearches] at hread
    cases hread
    simp
  | cons text rest ih =>
    rw [readSearches] at hread
    split at hread
    · contradiction
    · rcases bind_eq_ok_iff.mp hread with ⟨first, hfirst, hmore⟩
      rcases bind_eq_ok_iff.mp hmore with ⟨others, hothers, hsame⟩
      cases hsame
      intro group hmem
      rcases List.mem_cons.mp hmem with rfl | hmem
      · exact readGroup_wellPlaced hfirst
      · exact ih hothers group hmem

/-- A path that was read is canonical. -/
theorem readPath_canonical {text : List Char} {path : Path} (hread : readPath text = .ok path) :
    path.IsCanonical := by
  unfold readPath at hread
  split at hread
  · cases hread
    exact ⟨by simp [Path.ofGroups], by simp [Path.ofGroups], by simp [Path.ofGroups],
      by simp [Path.ofGroups, Path.segments, Path.groups]⟩
  · rcases bind_eq_ok_iff.mp hread with ⟨⟨firstText, otherTexts⟩, _, hgroups⟩
    obtain ⟨first, hplaced, hmore⟩ : ∃ first, WellPlaced true first ∧
        (readSearches otherTexts >>= fun searches => .ok { first, searches }) = .ok path := by
      dsimp only at hgroups
      split at hgroups
      · exact ⟨[], ⟨by simp, by simp, by simp⟩, hgroups⟩
      · rcases bind_eq_ok_iff.mp hgroups with ⟨first, hfirst, hmore⟩
        exact ⟨first, (readGroup_wellPlaced hfirst).1, hmore⟩
    rcases bind_eq_ok_iff.mp hmore with ⟨searches, hsearches, hsame⟩
    cases hsame
    have hlater := readSearches_wellPlaced hsearches
    refine ⟨hplaced.root_first, ?_, fun group hmem => (hlater group hmem).2, ?_⟩
    · intro group hmem hroot
      simpa using (hlater group hmem).1.root_start hroot
    · intro segment hmem
      rcases List.mem_flatten.mp hmem with ⟨group, hgroup, hsegment⟩
      rcases List.mem_cons.mp hgroup with rfl | hgroup
      · exact hplaced.canonical segment hsegment
      · exact (hlater group hgroup).1.canonical segment hsegment

end PathText

/-- A path that was read from a text is canonical. -/
theorem Path.isCanonical_of_parse {text : String} {path : Path}
    (hread : Path.parse text = .ok path) : path.IsCanonical :=
  PathText.readPath_canonical (mapError_eq_ok_iff.mp hread)

/-- A canonical path begins with segments other than the root mark, after one at most. -/
theorem Path.exists_segments {path : Path} (hpath : path.IsCanonical) :
    ∃ segments, .root ∉ segments ∧ (∀ segment ∈ segments, segment ∈ path.first) ∧
      (path.first = segments ∨ path.first = .root :: segments) := by
  have hfirst := hpath.root_first
  cases hsegments : path.first with
  | nil => exact ⟨[], List.not_mem_nil, by simp, .inl rfl⟩
  | cons segment rest =>
    rw [hsegments, List.tail_cons] at hfirst
    by_cases hroot : segment = .root
    · exact ⟨rest, hfirst, fun _ => List.mem_cons_of_mem _, .inr (by rw [hroot])⟩
    · refine ⟨segment :: rest, ?_, fun _ => id, .inl rfl⟩
      rw [List.mem_cons, not_or]
      exact ⟨Ne.symm hroot, hfirst⟩

/-- A path that selects one child at a time has no search. -/
theorem Path.searches_eq_nil {path : Path} (hsingle : path.isMultiValued = false) :
    path.searches = [] ∧ ∀ segment ∈ path.first, segment.isMultiValued = false := by
  rw [isMultiValued, Bool.or_eq_false_iff] at hsingle
  have hnone : path.searches = [] := by simpa [isRecursive] using hsingle.1
  refine ⟨hnone, fun segment hmem => ?_⟩
  have hsegments := hsingle.2
  simp only [groups, hnone, List.any_cons, List.any_nil, Bool.or_false,
    List.any_eq_false] at hsegments
  simpa using hsegments segment hmem

end NestedData
