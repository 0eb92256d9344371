import NestedData.Path.Split
import NestedData.Proofs.Outcome

/-!
# Splitting texts that were put together

The three splitters of a path's text share one account of quotes and brackets.
This module describes the stretches of text that a splitter runs through without
finding anything to split at: inside brackets such a stretch leads from one state
of quoting to another, outside brackets from one state of nesting to another.
Splitting then commutes with putting such a stretch in front of a text.

Main results:

- `splitOutside_skips` and `takeBracket?_skips`: a splitter for the inside of
  brackets passes over a stretch without its separator.
- `splitGroups_reads` and `splitCompounds_reads`: a splitter for the outside of
  brackets passes over a stretch without dots of its own.
- `Reads.bracket`: a whole selector in brackets is such a stretch.
-/

open NestedData.Outcome

namespace NestedData.PathText

/-- The pieces with a text in front of the first. -/
def Pieces.prepend (text : List Char) (pieces : Pieces) : Pieces :=
  (text ++ pieces.1, pieces.2)

theorem Pieces.cons_prepend (c : Char) (text : List Char) (pieces : Pieces) :
    Pieces.cons c (Pieces.prepend text pieces) = Pieces.prepend (c :: text) pieces := rfl

theorem map_prepend_nil (outcome : Except PathFault Pieces) :
    outcome.map (Pieces.prepend []) = outcome := by
  cases outcome <;> rfl

theorem map_cons_prepend (c : Char) (text : List Char) (outcome : Except PathFault Pieces) :
    (outcome.map (Pieces.prepend text)).map (Pieces.cons c) =
      outcome.map (Pieces.prepend (c :: text)) := by
  cases outcome <;> rfl

theorem map_prepend_prepend (first second : List Char) (outcome : Except PathFault Pieces) :
    (outcome.map (Pieces.prepend second)).map (Pieces.prepend first) =
      outcome.map (Pieces.prepend (first ++ second)) := by
  cases outcome with
  | error fault => rfl
  | ok pieces => simp [Except.map, Pieces.prepend]

/-! ## Inside brackets -/

/-- The text leads from one state of quoting to another, and none of `stops` stands
in it outside quotes. -/
inductive Skips (stops : List Char) : Quoting → List Char → Quoting → Prop
  /-- The empty text leaves the state alone. -/
  | nil (quoting : Quoting) : Skips stops quoting [] quoting
  /-- One more character in front. -/
  | cons {quoting final : Quoting} {c : Char} {rest : List Char}
      (hstop : ¬ (quoting = .outside ∧ c ∈ stops))
      (hrest : Skips stops (quoting.step c) rest final) :
      Skips stops quoting (c :: rest) final

namespace Skips

variable {stops : List Char} {quoting middle final : Quoting} {text rest : List Char}

theorem append (hfirst : Skips stops quoting text middle)
    (hsecond : Skips stops middle rest final) : Skips stops quoting (text ++ rest) final := by
  induction hfirst with
  | nil => exact hsecond
  | cons hstop _ ih => exact .cons hstop (ih hsecond)

/-- Text without quotes and separators is passed over outside quotes. -/
theorem of_plain (hplain : ∀ c ∈ text, isQuoteMark c = false ∧ c ∉ stops) :
    Skips stops .outside text .outside := by
  induction text with
  | nil => exact .nil _
  | cons c rest ih =>
    rcases hplain c (by simp) with ⟨hmark, hstop⟩
    refine .cons (fun h => hstop h.2) ?_
    have hstep : Quoting.step .outside c = .outside := by simp [Quoting.step, hmark]
    rw [hstep]
    exact ih fun d hd => hplain d (List.mem_cons_of_mem _ hd)

theorem mono {fewer : List Char} (hskips : Skips stops quoting text final)
    (hsubset : fewer ⊆ stops) : Skips fewer quoting text final := by
  induction hskips with
  | nil => exact .nil _
  | cons hstop _ ih => exact .cons (fun h => hstop ⟨h.1, hsubset h.2⟩) ih

/-- Stretches joined by a plain separator are a stretch. -/
theorem join {separator : Char} {texts : List (List Char)}
    (hseparator : isQuoteMark separator = false ∧ separator ∉ stops)
    (hskips : ∀ text ∈ texts, Skips stops .outside text .outside) :
    Skips stops .outside ([separator].intercalate texts) .outside := by
  induction texts with
  | nil => exact .nil _
  | cons first rest ih =>
    cases rest with
    | nil => simpa using hskips first (by simp)
    | cons second others =>
      have hlater := ih fun text hmem => hskips text (List.mem_cons_of_mem _ hmem)
      have hmiddle : Skips stops .outside [separator] .outside :=
        of_plain fun c hc => by simpa [List.mem_singleton.mp hc] using hseparator
      rw [List.intercalate_cons_cons, List.append_assoc]
      exact (hskips first (by simp)).append (hmiddle.append hlater)

end Skips

/-- A splitter passes over a stretch without its separator. -/
theorem splitOutside_skips {stops : List Char} {separator : Char} {quoting final : Quoting}
    {text : List Char} (hskips : Skips stops quoting text final) (hmem : separator ∈ stops)
    (rest : List Char) :
    splitOutside separator quoting (text ++ rest) =
      Pieces.prepend text (splitOutside separator final rest) := by
  induction hskips with
  | nil => rfl
  | @cons quoting final c more hstop _ ih =>
    have hkept : ¬ (quoting = .outside ∧ c = separator) := fun h => hstop ⟨h.1, h.2 ▸ hmem⟩
    rw [List.cons_append, splitOutside, if_neg hkept, ih, Pieces.cons_prepend]

theorem splitOutside_of_skips {stops : List Char} {separator : Char} {quoting final : Quoting}
    {text : List Char} (hskips : Skips stops quoting text final) (hmem : separator ∈ stops) :
    splitOutside separator quoting text = (text, []) := by
  have hsplit := splitOutside_skips hskips hmem []
  simpa [splitOutside, Pieces.prepend] using hsplit

theorem splitOutside_separator {separator : Char} (rest : List Char) :
    splitOutside separator .outside (separator :: rest) =
      Pieces.open (splitOutside separator .outside rest) := by
  rw [splitOutside, if_pos ⟨rfl, rfl⟩]

/-- Texts that were joined by a separator none of them holds come apart again. -/
theorem splitOutside_join {stops : List Char} {separator : Char} {texts : List (List Char)}
    (hmem : separator ∈ stops) (hne : texts ≠ [])
    (hskips : ∀ text ∈ texts, Skips stops .outside text .outside) :
    (splitOutside separator .outside ([separator].intercalate texts)).toList = texts := by
  induction texts with
  | nil => exact absurd rfl hne
  | cons first rest ih =>
    have hfirst := hskips first (by simp)
    cases rest with
    | nil =>
      rw [List.intercalate_singleton, splitOutside_of_skips hfirst hmem]
      rfl
    | cons second others =>
      have hlater := ih (by simp) fun text hmem => hskips text (List.mem_cons_of_mem _ hmem)
      rw [List.intercalate_cons_cons, List.append_assoc, splitOutside_skips hfirst hmem,
        List.singleton_append, splitOutside_separator]
      simp only [Pieces.prepend, Pieces.open, Pieces.toList, List.append_nil] at hlater ⊢
      rw [hlater]

/-- The search for a closing bracket passes over a stretch without one. -/
theorem takeBracket?_skips {stops : List Char} {quoting : Quoting} {content : List Char}
    (hskips : Skips stops quoting content .outside) (hmem : ']' ∈ stops) (after : List Char) :
    takeBracket? quoting (content ++ ']' :: after) = some (content, after) := by
  generalize hfinal : Quoting.outside = final at hskips
  induction hskips with
  | nil =>
    subst hfinal
    simp [takeBracket?]
  | @cons quoting final c more hstop _ ih =>
    have hkept : ¬ (quoting = .outside ∧ c = ']') := fun h => hstop ⟨h.1, h.2 ▸ hmem⟩
    rw [List.cons_append, takeBracket?, if_neg hkept, ih hfinal]
    rfl

/-! ## Outside brackets -/

/-- The text leads from one state of nesting to another, every closing bracket in
it has a partner, and no dot stands in it outside brackets. -/
inductive Reads : Nesting → List Char → Nesting → Prop
  /-- The empty text leaves the state alone. -/
  | nil (nesting : Nesting) : Reads nesting [] nesting
  /-- One more character in front. -/
  | cons {nesting next final : Nesting} {c : Char} {rest : List Char}
      (hdot : ¬ (nesting = .bare 0 ∧ c = '.')) (hstep : nesting.step? c = .ok next)
      (hrest : Reads next rest final) : Reads nesting (c :: rest) final

/-- The state of nesting inside one bracket. -/
def Quoting.nested : Quoting → Nesting
  | .outside => .bare 1
  | .inside mark escaped => .quoted 1 mark escaped

/-- Inside a bracket, states of nesting follow states of quoting. -/
theorem Quoting.step?_nested (quoting : Quoting) {c : Char}
    (hbracket : ¬ (quoting = .outside ∧ c ∈ ['[', ']'])) :
    quoting.nested.step? c = .ok (quoting.step c).nested := by
  cases quoting with
  | outside =>
    have hopen : c ≠ '[' := fun h => hbracket ⟨rfl, by simp [h]⟩
    have hclose : c ≠ ']' := fun h => hbracket ⟨rfl, by simp [h]⟩
    cases hmark : isQuoteMark c <;>
      simp [nested, step, Nesting.step?, hmark, hopen, hclose]
  | inside mark escaped =>
    simp only [nested, step, Nesting.step?]
    cases insideStep mark escaped c <;> rfl

namespace Reads

variable {nesting middle final : Nesting} {text rest : List Char}

theorem append (hfirst : Reads nesting text middle) (hsecond : Reads middle rest final) :
    Reads nesting (text ++ rest) final := by
  induction hfirst with
  | nil => exact hsecond
  | cons hdot hstep _ ih => exact .cons hdot hstep (ih hsecond)

/-- A stretch inside brackets that holds none outside quotes. -/
theorem of_skips {stops : List Char} {quoting final : Quoting}
    (hskips : Skips stops quoting text final) (hbrackets : ∀ c ∈ ['[', ']'], c ∈ stops) :
    Reads quoting.nested text final.nested := by
  induction hskips with
  | nil => exact .nil _
  | @cons quoting final c more hstop _ ih =>
    refine .cons ?_ (quoting.step?_nested fun h => hstop ⟨h.1, hbrackets c h.2⟩) ih
    intro h
    cases quoting <;> simp [Quoting.nested] at h

/-- A whole selector in brackets. -/
theorem bracket {stops : List Char} {content : List Char}
    (hskips : Skips stops .outside content .outside) (hbrackets : ∀ c ∈ ['[', ']'], c ∈ stops) :
    Reads (.bare 0) ('[' :: content ++ [']']) (.bare 0) := by
  have hopen : (Nesting.bare 0).step? '[' = .ok (.bare 1) := by rfl
  have hclose : (Nesting.bare 1).step? ']' = .ok (.bare 0) := by rfl
  refine .cons (by simp) hopen ?_
  exact (of_skips hskips hbrackets).append (.cons (by simp [Quoting.nested]) hclose (.nil _))

theorem of_plain (hplain : ∀ c ∈ text, c ∉ ['.', '[', ']']) : Reads (.bare 0) text (.bare 0) := by
  induction text with
  | nil => exact .nil _
  | cons c rest ih =>
    have hc := hplain c (by simp)
    simp only [List.mem_cons, List.not_mem_nil, or_false, not_or] at hc
    refine .cons (fun h => hc.1 h.2) ?_ (ih fun d hd => hplain d (List.mem_cons_of_mem _ hd))
    simp [Nesting.step?, hc.2.1, hc.2.2]

end Reads

/-- Away from a pair of dots, the splitter of groups reads on. -/
theorem splitGroups_step {nesting next : Nesting} {c : Char} {rest : List Char}
    (hdots : ¬ (nesting = .bare 0 ∧ c = '.' ∧ ∃ more, rest = '.' :: more))
    (hstep : nesting.step? c = .ok next) :
    splitGroups nesting (c :: rest) = (splitGroups next rest).map (Pieces.cons c) := by
  by_cases hpair : c = '.' ∧ ∃ more, rest = '.' :: more
  · rcases hpair with ⟨rfl, more, rfl⟩
    have hinside : nesting ≠ .bare 0 := fun h => hdots ⟨h, rfl, more, rfl⟩
    rw [splitGroups, if_neg hinside, hstep]
    rfl
  · rw [splitGroups]
    · rw [hstep]
      rfl
    · intro more hc hrest
      exact hpair ⟨hc, more, hrest⟩

/-- The splitter of groups passes over a stretch without dots of its own. -/
theorem splitGroups_reads {nesting final : Nesting} {text : List Char}
    (hreads : Reads nesting text final) (rest : List Char) :
    splitGroups nesting (text ++ rest) = (splitGroups final rest).map (Pieces.prepend text) := by
  induction hreads with
  | nil => exact (map_prepend_nil _).symm
  | @cons nesting next final c more hdot hstep _ ih =>
    rw [List.cons_append, splitGroups_step (fun h => hdot ⟨h.1, h.2.1⟩) hstep, ih]
    exact map_cons_prepend c more _

/-- The splitter of compounds passes over a stretch without dots of its own. -/
theorem splitCompounds_reads {nesting final : Nesting} {text : List Char}
    (hreads : Reads nesting text final) (rest : List Char) :
    splitCompounds nesting (text ++ rest) =
      (splitCompounds final rest).map (Pieces.prepend text) := by
  induction hreads with
  | nil => exact (map_prepend_nil _).symm
  | @cons nesting next final c more hdot hstep _ ih =>
    rw [List.cons_append, splitCompounds, if_neg hdot, hstep]
    simp only [bind, Except.bind]
    rw [ih]
    exact map_cons_prepend c more _

end NestedData.PathText
