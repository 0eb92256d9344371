import NestedData.Proofs.Path.Canonical
import NestedData.Proofs.Path.Phrases

/-!
# Paths are read by their grammar

This module proves that the reader of paths accepts exactly the texts that derive
from the grammar, as the groups and segments of the derivation.  In one direction the
pieces that the splitters leave are put together again; in the other the splitters
pass over every phrase, so that the dots between phrases are the ones they stop at.

Main results:

- `readBrackets_eq_ok_iff`, `readCompound_eq_ok_iff` and `readGroup_eq_ok_iff`:
  selectors in brackets, compounds and groups are read exactly when they derive from
  the grammar.
- `splitCompounds_eq_ok` and `splitGroups_eq_ok`: the pieces joined give the text back.
- `Path.parse_eq_ok_iff`: a text is read as a path exactly when it derives from the
  grammar.
-/

open NestedData.Outcome

namespace NestedData.Grammar

open PathText

/-! ## Selectors in brackets -/

/-- What is split off up to a closing bracket stood before it. -/
theorem eq_of_takeBracket? {quoting : Quoting} {text content after : List Char}
    (htaken : takeBracket? quoting text = some (content, after)) :
    text = content ++ ']' :: after := by
  induction text generalizing quoting content with
  | nil => cases htaken
  | cons c rest ih =>
    rw [takeBracket?] at htaken
    split at htaken
    · rename_i hclose
      cases htaken
      rw [hclose.2, List.nil_append]
    · obtain ⟨⟨inner, left⟩, hfound, hsame⟩ := Option.map_eq_some_iff.mp htaken
      cases hsame
      rw [ih hfound, List.cons_append]

/-- Selectors in a row are read exactly when they derive from the grammar. -/
theorem readBrackets_eq_ok_iff {compound text : List Char} {segments : List Segment} :
    readBrackets compound text = .ok segments ↔ Brackets text segments := by
  constructor
  · intro hread
    induction text using readBrackets.induct generalizing segments with
    | case1 =>
      rw [readBrackets] at hread
      cases hread
      exact .none
    | case2 rest hopen =>
      rw [readBrackets_open, hopen] at hread
      cases hread
    | case3 rest content after htaken fault hcontent =>
      rw [readBrackets_open, htaken] at hread
      simp only [hcontent, invalid] at hread
      cases hread
    | case4 rest content after htaken segment hcontent ih =>
      rw [readBrackets_open, htaken] at hread
      simp only [hcontent] at hread
      obtain ⟨others, hothers, hsame⟩ := bind_eq_ok_iff.mp hread
      cases hsame
      have hshape : '[' :: rest = '[' :: content ++ [']'] ++ after := by
        rw [eq_of_takeBracket? htaken]
        simp
      rw [hshape]
      exact .more (readBracket_eq_ok_iff.1 hcontent) (ih hothers)
    | case5 c rest hbare =>
      rw [readBrackets, if_neg hbare, invalid] at hread
      cases hread
  · intro htext
    induction htext with
    | none => rw [readBrackets]
    | @more text rest segment segments htext _ ih =>
      obtain ⟨content, rfl, hskips, hcontent⟩ := htext.exists_content
      rw [List.append_assoc, List.cons_append, List.singleton_append, readBrackets_open,
        takeBracket?_skips hskips (by simp)]
      simp only [hcontent, ih]
      rfl

/-- Selectors in a row start with a bracket, if there is any text. -/
theorem Brackets.head {text : List Char} {segments : List Segment}
    (htext : Brackets text segments) : ∀ c ∈ text.head?, c = '[' := by
  cases htext with
  | none => simp
  | more htext _ =>
    obtain ⟨content, rfl, _⟩ := htext.exists_content
    simp

theorem Brackets.reads {text : List Char} {segments : List Segment}
    (htext : Brackets text segments) : Reads (.bare 0) text (.bare 0) := by
  induction htext with
  | none => exact .nil _
  | more htext _ ih =>
    obtain ⟨content, rfl, hskips, _⟩ := htext.exists_content
    exact (Reads.bracket hskips (by simp)).append ih

/-! ## Compounds -/

/-- The part of a compound before its first bracket is read exactly when it derives
from the grammar. -/
theorem readBare_eq_ok_iff {atStart : Bool} {bare : List Char} {segment : Segment} :
    bare ≠ [] ∧ (∀ c ∈ bare, c ≠ '.' ∧ c ≠ '[') ∧ readBare atStart bare = .ok segment ↔
      Bare atStart bare segment := by
  constructor
  · rintro ⟨hne, hplain, hread⟩
    unfold readBare at hread
    split at hread
    · rename_i hroot
      split at hread
      · rename_i hstart
        cases hread
        exact hroot ▸ .root hstart
      · cases hread
    · rename_i hroot
      split at hread
      · rename_i hstar
        cases hread
        exact hstar ▸ .star
      · rename_i hstar
        split at hread
        · cases hread
        · rename_i hquotes
          cases hread
          refine .key hne hroot hstar fun c hc hmem => ?_
          have hneeds : needsQuotes c = false := by
            simpa using List.any_eq_false.mp (by simpa using hquotes) c hc
          simp only [List.mem_cons, List.not_mem_nil, or_false] at hmem
          rcases hmem with rfl | rfl | rfl | rfl | rfl | rfl
          · exact (hplain _ hc).1 rfl
          · exact (hplain _ hc).2 rfl
          all_goals cases hneeds
  · rintro (hstart | _ | ⟨hne, hroot, hstar, hplain⟩)
    · refine ⟨by simp, by simp, ?_⟩
      rw [readBare, if_pos rfl, if_pos hstart]
    · exact ⟨by simp, by simp, rfl⟩
    · refine ⟨hne, fun c hc => ⟨?_, ?_⟩, ?_⟩
      · rintro rfl
        exact hplain _ hc (by simp)
      · rintro rfl
        exact hplain _ hc (by simp)
      · have hquotes : bare.any needsQuotes = false := by
          rw [List.any_eq_false]
          intro c hc hneeds
          simp only [needsQuotes, isQuoteMark, Bool.or_eq_true, beq_iff_eq] at hneeds
          refine hplain c hc ?_
          rcases hneeds with ((rfl | rfl) | rfl) | rfl <;> simp
        rw [readBare, if_neg hroot, if_neg hstar, hquotes]
        rfl

/-- No dot stands before the first bracket. -/
def Undotted (text : List Char) : Prop :=
  '.' ∉ text.takeWhile (· != '[')

/-- Compounds without dots before their brackets are read exactly when they derive
from the grammar. -/
theorem readCompound_eq_ok_iff {atStart : Bool} {text : List Char} {segments : List Segment} :
    text ≠ [] ∧ Undotted text ∧ readCompound atStart text = .ok segments ↔
      Compound atStart text segments := by
  constructor
  · rintro ⟨hne, hundotted, hread⟩
    unfold readCompound at hread
    dsimp only at hread
    have hwhole := List.takeWhile_append_dropWhile (p := (· != '[')) (l := text)
    split at hread
    · rename_i hbare
      rw [List.isEmpty_iff.mp hbare, List.nil_append] at hwhole
      rw [hwhole] at hread
      cases readBrackets_eq_ok_iff.1 hread with
      | none => exact absurd rfl hne
      | more htext hrest => exact .brackets htext hrest
    · rename_i hbare
      obtain ⟨segment, hsegment, hrest⟩ := bind_eq_ok_iff.mp hread
      obtain ⟨others, hothers, hsame⟩ := bind_eq_ok_iff.mp hrest
      cases hsame
      rw [← hwhole]
      refine .bare (readBare_eq_ok_iff.1 ⟨by simpa using hbare, fun c hc => ⟨?_, ?_⟩, hsegment⟩)
        (readBrackets_eq_ok_iff.1 hothers)
      · rintro rfl
        exact hundotted hc
      · simpa using List.mem_takeWhile_imp hc
  · rintro (⟨htext, hrest⟩ | ⟨htext, hrest⟩)
    · rename_i bare rest segment segments
      obtain ⟨hne, hplain, hread⟩ := readBare_eq_ok_iff.2 htext
      have hpass : ∀ c ∈ bare, (c != '[') = true := fun c hc => by simp [(hplain c hc).2]
      have hstop : rest.takeWhile (· != '[') = [] ∧ rest.dropWhile (· != '[') = rest := by
        cases rest with
        | nil => exact ⟨rfl, rfl⟩
        | cons c more => simp [hrest.head c (by simp)]
      have htake : (bare ++ rest).takeWhile (· != '[') = bare := by
        rw [List.takeWhile_append_of_pos hpass, hstop.1, List.append_nil]
      refine ⟨by simp [hne], ?_, ?_⟩
      · rw [Undotted, htake]
        exact fun hdot => (hplain _ hdot).1 rfl
      · unfold readCompound
        dsimp only
        rw [htake, List.dropWhile_append_of_pos hpass, hstop.2, if_neg (by simpa using hne), hread,
          readBrackets_eq_ok_iff.2 hrest]
        rfl
    · have hread (compound : List Char) : readBrackets compound _ = .ok _ :=
        readBrackets_eq_ok_iff.2 (.more htext hrest)
      obtain ⟨content, rfl, _⟩ := htext.exists_content
      exact ⟨by simp, by simp [Undotted], hread _⟩

/-- A text without dots and brackets is passed over outside brackets. -/
theorem Bare.reads {atStart : Bool} {text : List Char} {segment : Segment}
    (htext : Bare atStart text segment) : Reads (.bare 0) text (.bare 0) := by
  cases htext with
  | root _ => exact .of_plain (by simp)
  | star => exact .of_plain (by simp)
  | key _ _ _ hplain =>
    refine .of_plain fun c hc hmem => hplain c hc ?_
    simp only [List.mem_cons, List.not_mem_nil, or_false] at hmem ⊢
    rcases hmem with rfl | rfl | rfl <;> simp

theorem Compound.reads {atStart : Bool} {text : List Char} {segments : List Segment}
    (htext : Compound atStart text segments) : Reads (.bare 0) text (.bare 0) := by
  cases htext with
  | bare htext hrest => exact htext.reads.append hrest.reads
  | brackets htext hrest => exact (Brackets.more htext hrest).reads

theorem Compound.ne_dot {atStart : Bool} {text : List Char} {segments : List Segment}
    (htext : Compound atStart text segments) : text ≠ [] ∧ ∀ more, text ≠ '.' :: more := by
  obtain ⟨hne, hundotted, _⟩ := readCompound_eq_ok_iff.2 htext
  refine ⟨hne, ?_⟩
  rintro more rfl
  exact hundotted (by simp)

/-! ## Groups -/

theorem join_cons (separator c : Char) (pieces : Pieces) :
    [separator].intercalate (Pieces.cons c pieces).toList =
      c :: [separator].intercalate pieces.toList := by
  obtain ⟨first, others⟩ := pieces
  cases others <;> simp [Pieces.cons, Pieces.toList, List.intercalate_cons_cons]

theorem join_open (separator : Char) (pieces : Pieces) :
    [separator].intercalate (Pieces.open pieces).toList =
      separator :: [separator].intercalate pieces.toList := by
  simp [Pieces.open, Pieces.toList, List.intercalate_cons_cons]

/-- Reading one character outside brackets opens a bracket or stays outside. -/
theorem step?_bare_zero {c : Char} {next : Nesting}
    (hstep : (Nesting.bare 0).step? c = .ok next) : c = '[' ∨ next = .bare 0 := by
  simp only [Nesting.step?] at hstep
  split at hstep
  · rename_i hmark
    simp at hmark
  · split at hstep
    · rename_i hopen
      exact .inl hopen
    · split at hstep
      · cases hstep
      · cases hstep
        exact .inr rfl

/-- The pieces of a group joined by dots give its text back, and none of them has a
dot before its first bracket; of the first piece this holds if the text starts
outside brackets. -/
theorem splitCompounds_eq_ok {nesting : Nesting} {text : List Char} {pieces : Pieces}
    (hsplit : splitCompounds nesting text = .ok pieces) :
    ['.'].intercalate pieces.toList = text ∧ (nesting = .bare 0 → Undotted pieces.1) ∧
      ∀ piece ∈ pieces.2, Undotted piece := by
  induction text generalizing nesting pieces with
  | nil =>
    have hpieces : pieces = ([], []) := by
      simp only [splitCompounds, Nesting.finish] at hsplit
      split at hsplit
      · cases hsplit
      · split at hsplit <;> cases hsplit
        rfl
    subst hpieces
    exact ⟨rfl, fun _ => by simp [Undotted], by simp⟩
  | cons c rest ih =>
    rw [splitCompounds] at hsplit
    split at hsplit
    · rename_i hdot
      obtain ⟨later, hlater, rfl⟩ := map_eq_ok_iff.mp hsplit
      obtain ⟨hjoin, hfirst, hothers⟩ := ih hlater
      refine ⟨by rw [join_open, hjoin, hdot.2], fun _ => by simp [Pieces.open, Undotted], ?_⟩
      simpa [Pieces.open] using ⟨hfirst rfl, hothers⟩
    · rename_i hdot
      obtain ⟨next, hstep, hrest⟩ := bind_eq_ok_iff.mp hsplit
      obtain ⟨later, hlater, rfl⟩ := map_eq_ok_iff.mp hrest
      obtain ⟨hjoin, hfirst, hothers⟩ := ih hlater
      refine ⟨by rw [join_cons, hjoin], ?_, hothers⟩
      rintro rfl
      rcases step?_bare_zero hstep with rfl | rfl
      · simp [Pieces.cons, Undotted]
      · have hc : c ≠ '.' := fun hc => hdot ⟨rfl, hc⟩
        have hlater := hfirst rfl
        simp only [Undotted, Pieces.cons, List.takeWhile_cons] at hlater ⊢
        split
        · simpa [hc.symm] using hlater
        · simp

/-- Compounds joined by dots are read as a group only if they derive as one. -/
theorem group_of_readCompounds {group : List Char} {atStart : Bool} {first : List Char}
    {rest : List (List Char)} {segments : List Segment} (hfirst : Undotted first)
    (hrest : ∀ compound ∈ rest, Undotted compound)
    (hread : readCompounds group atStart (first :: rest) = .ok segments) :
    Group atStart (['.'].intercalate (first :: rest)) segments := by
  induction rest generalizing first atStart segments with
  | nil =>
    rw [readCompounds] at hread
    split at hread
    · cases hread
    · rename_i hne
      obtain ⟨bare, hbare, hlater⟩ := bind_eq_ok_iff.mp hread
      cases hlater
      rw [List.intercalate_singleton, List.append_nil]
      exact .last (readCompound_eq_ok_iff.1 ⟨by simpa using hne, hfirst, hbare⟩)
  | cons second others ih =>
    rw [readCompounds] at hread
    split at hread
    · cases hread
    · rename_i hne
      obtain ⟨bare, hbare, hmore⟩ := bind_eq_ok_iff.mp hread
      obtain ⟨later, hlater, hsame⟩ := bind_eq_ok_iff.mp hmore
      cases hsame
      rw [List.intercalate_cons_cons, List.append_assoc, List.singleton_append]
      refine .more (readCompound_eq_ok_iff.1 ⟨by simpa using hne, hfirst, hbare⟩) ?_
      exact ih (hrest second (by simp)) (fun text hmem => hrest text (by simp [hmem])) hlater

/-- A group comes apart into compounds that are read as its segments. -/
theorem Group.exists_compounds {atStart : Bool} {text : List Char} {segments : List Segment}
    (htext : Group atStart text segments) : ∃ pieces,
      splitCompounds (.bare 0) text = .ok pieces ∧
        ∀ group, readCompounds group atStart pieces.toList = .ok segments := by
  induction htext with
  | @last atStart text segments htext =>
    obtain ⟨hne, _, hread⟩ := readCompound_eq_ok_iff.2 htext
    refine ⟨(text, []), ?_, fun group => ?_⟩
    · have hsplit := splitCompounds_reads htext.reads []
      simpa [splitCompounds, Nesting.finish, Except.map, Pieces.prepend] using hsplit
    · rw [Pieces.toList, readCompounds, if_neg (by simpa using hne), hread]
      simp [readCompounds, bind, Except.bind]
  | @more atStart text rest segments others htext _ ih =>
    obtain ⟨hne, _, hread⟩ := readCompound_eq_ok_iff.2 htext
    obtain ⟨later, hlater, hothers⟩ := ih
    refine ⟨Pieces.prepend text (Pieces.open later), ?_, fun group => ?_⟩
    · rw [splitCompounds_reads htext.reads, splitCompounds, if_pos ⟨rfl, rfl⟩, hlater]
      rfl
    · have hpieces : (Pieces.prepend text (Pieces.open later)).toList = text :: later.toList := by
        simp [Pieces.prepend, Pieces.open, Pieces.toList]
      rw [hpieces, readCompounds, if_neg (by simpa using hne), hread]
      simp only [bind, Except.bind]
      rw [hothers group]

/-- Groups are read exactly when they derive from the grammar. -/
theorem readGroup_eq_ok_iff {atStart : Bool} {text : List Char} {segments : List Segment} :
    readGroup atStart text = .ok segments ↔ Group atStart text segments := by
  constructor
  · intro hread
    obtain ⟨⟨first, rest⟩, hsplit, hcompounds⟩ := bind_eq_ok_iff.mp hread
    obtain ⟨hjoin, hfirst, hrest⟩ := splitCompounds_eq_ok hsplit
    rw [← hjoin]
    exact group_of_readCompounds (hfirst rfl) hrest hcompounds
  · intro htext
    obtain ⟨pieces, hsplit, hcompounds⟩ := htext.exists_compounds
    exact bind_eq_ok_iff.mpr ⟨pieces, hsplit, hcompounds text⟩

/-- A group holds some text, and it does not start with a dot. -/
theorem Group.ne_dot {atStart : Bool} {text : List Char} {segments : List Segment}
    (htext : Group atStart text segments) : text ≠ [] ∧ ∀ more, text ≠ '.' :: more := by
  cases htext with
  | last htext => exact htext.ne_dot
  | more htext _ =>
    obtain ⟨hne, hdot⟩ := htext.ne_dot
    refine ⟨by simp [hne], fun more hshape => ?_⟩
    obtain ⟨c, others, rfl⟩ := List.exists_cons_of_ne_nil hne
    rw [List.cons_append, List.cons.injEq] at hshape
    exact hdot others (by rw [hshape.1])

/-! ## Paths -/

/-- The text of groups, where two dots stand before every one but the first. -/
def joinGroups (pieces : Pieces) : List Char :=
  pieces.1 ++ pieces.2.flatMap fun group => '.' :: '.' :: group

/-- The groups joined by two dots give the text back. -/
theorem splitGroups_eq_ok {nesting : Nesting} {text : List Char} {pieces : Pieces}
    (hsplit : splitGroups nesting text = .ok pieces) : joinGroups pieces = text := by
  induction nesting, text using splitGroups.induct generalizing pieces with
  | case1 nesting =>
    simp only [splitGroups, Nesting.finish] at hsplit
    split at hsplit
    · cases hsplit
    · split at hsplit <;> cases hsplit
      rfl
  | case2 rest ih =>
    rw [splitGroups, if_pos rfl] at hsplit
    obtain ⟨later, hlater, rfl⟩ := map_eq_ok_iff.mp hsplit
    rw [← ih hlater]
    simp [joinGroups, Pieces.open]
  | case3 nesting rest hinside ih =>
    rw [splitGroups, if_neg hinside] at hsplit
    obtain ⟨next, _, hrest⟩ := bind_eq_ok_iff.mp hsplit
    obtain ⟨later, hlater, rfl⟩ := map_eq_ok_iff.mp hrest
    rw [← ih next hlater]
    rfl
  | case4 nesting c rest hdots ih =>
    rw [splitGroups] at hsplit
    · obtain ⟨next, _, hrest⟩ := bind_eq_ok_iff.mp hsplit
      obtain ⟨later, hlater, rfl⟩ := map_eq_ok_iff.mp hrest
      rw [← ih next hlater]
      rfl
    · exact hdots

/-- The splitter of groups passes over a whole group. -/
theorem Group.splitGroups_append {atStart : Bool} {text : List Char} {segments : List Segment}
    (htext : Group atStart text segments) (rest : List Char) :
    splitGroups (.bare 0) (text ++ rest) =
      (splitGroups (.bare 0) rest).map (Pieces.prepend text) := by
  induction htext with
  | last htext => exact splitGroups_reads htext.reads rest
  | @more atStart text later segments others htext hlater ih =>
    obtain ⟨hne, hdot⟩ := hlater.ne_dot
    have hstep : (Nesting.bare 0).step? '.' = .ok (.bare 0) := rfl
    rw [List.append_assoc, splitGroups_reads htext.reads, List.cons_append,
      splitGroups_step ?_ hstep, ih, map_cons_prepend, map_prepend_prepend]
    rintro ⟨_, _, more, hshape⟩
    obtain ⟨c, tail, rfl⟩ := List.exists_cons_of_ne_nil hne
    rw [List.cons_append, List.cons.injEq] at hshape
    exact hdot tail (by rw [hshape.1])

/-- The groups of searches are read only if they derive as searches. -/
theorem searches_of_readSearches {texts : List (List Char)} {groups : List (List Segment)}
    (hread : readSearches texts = .ok groups) :
    Searches (texts.flatMap fun group => '.' :: '.' :: group) groups := by
  induction texts generalizing groups with
  | nil =>
    rw [readSearches] at hread
    cases hread
    exact .none
  | cons text rest ih =>
    rw [readSearches] at hread
    split at hread
    · cases hread
    · obtain ⟨group, hgroup, hmore⟩ := bind_eq_ok_iff.mp hread
      obtain ⟨others, hothers, hsame⟩ := bind_eq_ok_iff.mp hmore
      cases hsame
      exact .more (readGroup_eq_ok_iff.1 hgroup) (ih hothers)

/-- Searches come apart into groups that are read as theirs. -/
theorem Searches.exists_groups {text : List Char} {groups : List (List Segment)}
    (htext : Searches text groups) : ∃ texts,
      splitGroups (.bare 0) text = .ok ([], texts) ∧ readSearches texts = .ok groups := by
  induction htext with
  | none => exact ⟨[], rfl, rfl⟩
  | @more text rest group groups htext _ ih =>
    obtain ⟨texts, hsplit, hread⟩ := ih
    refine ⟨text :: texts, ?_, ?_⟩
    · rw [splitGroups, if_pos rfl, htext.splitGroups_append, hsplit]
      simp [Except.map, Pieces.prepend, Pieces.open]
    · rw [readSearches, if_neg (by simpa using htext.ne_dot.1), readGroup_eq_ok_iff.2 htext,
        hread]
      rfl

end NestedData.Grammar

namespace NestedData

open Grammar PathText

/-- A text is read as a path exactly when it derives from the grammar, and the path
has the groups and segments of the derivation. -/
theorem Path.parse_eq_ok_iff {text : String} {path : Path} :
    Path.parse text = .ok path ↔ Derives text.toList path := by
  rw [Path.parse, mapError_eq_ok_iff, readPath]
  generalize text.toList = text
  constructor
  · intro hread
    split at hread
    · rename_i hempty
      cases hread
      rw [List.isEmpty_iff.mp hempty]
      exact .empty
    · rename_i hne
      obtain ⟨⟨first, others⟩, hsplit, hmore⟩ := bind_eq_ok_iff.mp hread
      obtain ⟨segments, hfirst, hmore⟩ : ∃ segments,
          (first = [] ∧ segments = [] ∨ Group true first segments) ∧
            (readSearches others >>= fun searches => .ok { first := segments, searches }) =
              .ok path := by
        dsimp only at hmore
        split at hmore
        · rename_i hempty
          exact ⟨[], .inl ⟨List.isEmpty_iff.mp hempty, rfl⟩, hmore⟩
        · obtain ⟨segments, hsegments, hmore⟩ := bind_eq_ok_iff.mp hmore
          exact ⟨segments, .inr (readGroup_eq_ok_iff.1 hsegments), hmore⟩
      obtain ⟨searches, hsearches, hsame⟩ := bind_eq_ok_iff.mp hmore
      cases hsame
      have hlater := searches_of_readSearches hsearches
      rw [← splitGroups_eq_ok hsplit] at hne ⊢
      rcases hfirst with ⟨rfl, rfl⟩ | hfirst
      · refine .searches ?_ hlater
        rintro rfl
        generalize htext : (others.flatMap fun group => '.' :: '.' :: group) = text at hlater
        cases hlater
        simp [joinGroups, htext] at hne
      · exact .groups hfirst hlater
  · rintro (_ | ⟨htext, hrest⟩ | ⟨hne, htext⟩)
    · rfl
    · obtain ⟨texts, hsplit, hread⟩ := hrest.exists_groups
      have hnonempty := htext.ne_dot.1
      rw [if_neg (by simp [hnonempty]), htext.splitGroups_append, hsplit]
      simp only [Except.map, Pieces.prepend, List.append_nil, bind, Except.bind]
      rw [if_neg (by simpa using hnonempty), readGroup_eq_ok_iff.2 htext, hread]
    · obtain ⟨texts, hsplit, hread⟩ := htext.exists_groups
      have hnonempty : text ≠ [] := by
        rintro rfl
        cases htext
        exact hne rfl
      rw [if_neg (by simpa using hnonempty), hsplit]
      simp only [bind, Except.bind, List.isEmpty_nil, if_true]
      rw [hread]

end NestedData
