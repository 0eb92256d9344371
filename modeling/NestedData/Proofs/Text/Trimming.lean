import Mathlib.Data.List.TakeWhile
import NestedData.Text.Blank

/-!
# Trimming

This module describes what trimming leaves of a text: the text is its trimmed form
with blanks around it, and blanks around a text do not change the trimmed form.
When a whole of joined texts is trimmed, only the outermost of them lose blanks.

Main results:

- `trim_blank`: blanks at the two ends are trimmed.
- `exists_trim`: a text is its trimmed form with blanks around it.
- `exists_trim_join`: trimming joined texts leaves the trimmed form of each alone.
-/

namespace NestedData.Text

/-- White space of some script, or nothing. -/
def Blank (text : List Char) : Prop :=
  ∀ c ∈ text, isBlank c = true

theorem trimEnd_blank (text : List Char) {after : List Char} (hafter : Blank after) :
    trimEnd (text ++ after) = trimEnd text := by
  have hreverse : ∀ c ∈ after.reverse, isBlank c = true := fun c hc => hafter c (by simpa using hc)
  rw [trimEnd, List.reverse_append, List.dropWhile_append_of_pos hreverse, trimEnd]

/-- Blanks at the two ends are trimmed. -/
theorem trim_blank {before text after : List Char} (hbefore : Blank before) (hafter : Blank after) :
    trim (before ++ text ++ after) = trim text := by
  have hdrop : after.dropWhile isBlank = [] := List.dropWhile_eq_nil_iff.mpr hafter
  rw [trim, List.append_assoc, List.dropWhile_append_of_pos hbefore, List.dropWhile_append, hdrop]
  split
  · rename_i hempty
    rw [trim, List.isEmpty_iff.mp hempty]
  · rw [trimEnd_blank _ hafter, trim]

theorem exists_dropWhile (text : List Char) :
    ∃ before, Blank before ∧ text = before ++ text.dropWhile isBlank :=
  ⟨text.takeWhile isBlank, fun _ hc => List.mem_takeWhile_imp hc,
    List.takeWhile_append_dropWhile.symm⟩

theorem exists_trimEnd (text : List Char) :
    ∃ after, Blank after ∧ text = trimEnd text ++ after := by
  obtain ⟨before, hbefore, hreverse⟩ := exists_dropWhile text.reverse
  refine ⟨before.reverse, fun c hc => hbefore c (by simpa using hc), ?_⟩
  rw [trimEnd, ← List.reverse_append, ← hreverse, List.reverse_reverse]

/-- A text is its trimmed form with blanks around it. -/
theorem exists_trim (text : List Char) :
    ∃ before after, Blank before ∧ Blank after ∧ text = before ++ trim text ++ after := by
  obtain ⟨before, hbefore, hstart⟩ := exists_dropWhile text
  obtain ⟨after, hafter, hend⟩ := exists_trimEnd (text.dropWhile isBlank)
  exact ⟨before, after, hbefore, hafter, by rw [List.append_assoc, trim, ← hend, ← hstart]⟩

theorem trim_dropWhile (text : List Char) : trim (text.dropWhile isBlank) = trim text := by
  obtain ⟨before, hbefore, hstart⟩ := exists_dropWhile text
  have htrim : trim (before ++ text.dropWhile isBlank ++ []) = trim (text.dropWhile isBlank) :=
    trim_blank hbefore (by simp [Blank])
  rwa [List.append_nil, ← hstart, eq_comm] at htrim

theorem trim_trimEnd (text : List Char) : trim (trimEnd text) = trim text := by
  obtain ⟨after, hafter, hend⟩ := exists_trimEnd text
  have htrim : trim ([] ++ trimEnd text ++ after) = trim (trimEnd text) :=
    trim_blank (by simp [Blank]) hafter
  rwa [List.nil_append, ← hend, eq_comm] at htrim

theorem mem_of_mem_trim {text : List Char} {c : Char} (hmem : c ∈ trim text) : c ∈ text := by
  obtain ⟨before, after, _, _, htext⟩ := exists_trim text
  rw [htext]
  simp [hmem]

section Join

variable {separator : Char} (hseparator : isBlank separator = false)

include hseparator

/-- What follows a separator keeps its blanks when the start is trimmed. -/
theorem dropWhile_append_separator (text rest : List Char) :
    (text ++ separator :: rest).dropWhile isBlank =
      text.dropWhile isBlank ++ separator :: rest := by
  rw [List.dropWhile_append, List.dropWhile_cons_of_neg (by simp [hseparator])]
  split
  · rename_i hempty
    rw [List.isEmpty_iff.mp hempty, List.nil_append]
  · rfl

theorem trimEnd_append_separator (text rest : List Char) :
    trimEnd (text ++ separator :: rest) = text ++ separator :: trimEnd rest := by
  rw [trimEnd, List.reverse_append, List.reverse_cons, List.append_assoc, List.singleton_append,
    dropWhile_append_separator hseparator, trimEnd]
  simp

/-- Trimming the end of texts joined by a separator trims the last of them. -/
theorem exists_trimEnd_join {texts : List (List Char)} (hne : texts ≠ []) :
    ∃ others, trimEnd ([separator].intercalate texts) = [separator].intercalate others ∧
      others.map trim = texts.map trim := by
  induction texts with
  | nil => exact absurd rfl hne
  | cons first rest ih =>
    cases rest with
    | nil => exact ⟨[trimEnd first], by simp, by simp [trim_trimEnd]⟩
    | cons second later =>
      obtain ⟨others, hjoin, hmap⟩ := ih (by simp)
      obtain ⟨other, more, rfl⟩ : ∃ other more, others = other :: more := by
        apply List.exists_cons_of_ne_nil
        rintro rfl
        simp at hmap
      refine ⟨first :: other :: more, ?_, by rw [List.map_cons, hmap]; rfl⟩
      rw [List.intercalate_cons_cons, List.intercalate_cons_cons, ← hjoin, List.append_assoc,
        List.append_assoc, List.singleton_append, List.singleton_append,
        trimEnd_append_separator hseparator]

/-- Trimming texts joined by a separator trims the outermost of them. -/
theorem exists_trim_join {texts : List (List Char)} (hne : texts ≠ []) :
    ∃ others, trim ([separator].intercalate texts) = [separator].intercalate others ∧
      others.map trim = texts.map trim := by
  obtain ⟨first, rest, rfl⟩ := List.exists_cons_of_ne_nil hne
  have hstart : ([separator].intercalate (first :: rest)).dropWhile isBlank =
      [separator].intercalate (first.dropWhile isBlank :: rest) := by
    cases rest with
    | nil => simp
    | cons second later =>
      rw [List.intercalate_cons_cons, List.intercalate_cons_cons, List.append_assoc,
        List.append_assoc, List.singleton_append, dropWhile_append_separator hseparator]
  obtain ⟨others, hjoin, hmap⟩ :=
    exists_trimEnd_join hseparator (List.cons_ne_nil (first.dropWhile isBlank) rest)
  refine ⟨others, by rw [trim, hstart, hjoin], ?_⟩
  rw [hmap, List.map_cons, List.map_cons, trim_dropWhile]

end Join

end NestedData.Text
