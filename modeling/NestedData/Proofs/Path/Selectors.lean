import NestedData.Path.Parser
import NestedData.Path.Render
import NestedData.Proofs.Path.Canonical
import NestedData.Proofs.Path.Splitting
import NestedData.Proofs.Text.Numbers

/-!
# Selectors read as they were written

This module proves that the text between two brackets reads as the segment it was
written for.  Names are quoted, so none of their characters is taken for a
separator; numerals hold no separators at all.

Main results:

- `unquote?_quoteName`: a quoted name reads as the name, whatever it holds.
- `skips_content`: the text between brackets holds no brackets outside quotes.
- `readBracket_content`: it reads as the segment it was written for.
-/

namespace NestedData

/-- The bounds of a slice that are written down. -/
def writtenBounds (start stop step : Option Int64) : List (Option Int64) :=
  [start, stop] ++ if step.isSome then [step] else []

/-- The text that a segment has between brackets. -/
def Segment.content : Segment → List Char
  | .root => []
  | .key name => quoteName name
  | .wildcard => ['*']
  | .index position => Text.showNat position
  | .union entries => [','].intercalate (entries.map Selector.render)
  | .slice start stop step =>
    [':'].intercalate ((writtenBounds start stop step).map renderBound)

/-- Whether a segment is written in brackets. -/
def Segment.isBracketed : Segment → Bool
  | .root => false
  | .key name => !isIdentifier name
  | _ => true

/-- A segment in brackets is written as its content between them. -/
theorem Segment.render_of_isBracketed {segment : Segment} (hbracketed : segment.isBracketed = true)
    (leading : Bool) : segment.render leading = '[' :: segment.content ++ [']'] := by
  cases segment with
  | root => simp [isBracketed] at hbracketed
  | key name =>
    have hname : isIdentifier name = false := by simpa [isBracketed] using hbracketed
    simp [render, hname, content]
  | slice start stop step =>
    cases step <;> simp [render, content, writtenBounds, List.intercalate]
  | _ => rfl

namespace PathText

/-- The characters with a meaning of their own between brackets. -/
def marks : List Char := ['[', ']', ',', ':']

/-! ## Numerals -/

/-- A digit or a minus sign. -/
def IsNumeral (c : Char) : Prop :=
  c = '-' ∨ c.isDigit = true

theorem isNumeral_of_mem_showInt {n : Int} {c : Char} (hmem : c ∈ Text.showInt n) :
    IsNumeral c := by
  unfold Text.showInt at hmem
  split at hmem
  · rcases List.mem_cons.mp hmem with rfl | hmem
    · exact .inl rfl
    · exact .inr (Text.isDigit_of_mem_showNat hmem)
  · exact .inr (Text.isDigit_of_mem_showNat hmem)

/-- No character of a numeral is a quotation mark, a star or a mark. -/
theorem IsNumeral.plain {c : Char} (hnumeral : IsNumeral c) :
    isQuoteMark c = false ∧ c ∉ marks ∧ c ≠ '*' := by
  have hdistinct : ∀ d ∈ '\'' :: '"' :: '*' :: marks, c ≠ d := by
    intro d hd hsame
    subst hsame
    simp only [marks, List.mem_cons, List.not_mem_nil, or_false] at hd
    rcases hnumeral with h | h <;>
      rcases hd with rfl | rfl | rfl | rfl | rfl | rfl | rfl <;> revert h <;> decide
  refine ⟨?_, ?_, hdistinct _ (by simp)⟩
  · simp [isQuoteMark, hdistinct]
  · intro hmem
    exact hdistinct c (by simp [hmem]) rfl

theorem IsNumeral.not_blank {c : Char} (hnumeral : IsNumeral c) : Text.isBlank c = false := by
  rcases hnumeral with rfl | hdigit
  · decide
  · exact Text.not_blank_of_isDigit hdigit

/-! ## Quoted names -/

/-- Inside quotes, an escaped character leads back to the same state. -/
theorem skips_escapeInQuotes (stops : List Char) (c : Char) :
    Skips stops (.inside '\'' false) (escapeInQuotes c) (.inside '\'' false) := by
  unfold escapeInQuotes
  split
  · refine .cons (by simp) (.cons (by simp [Quoting.step, Quoting.insideStep]) ?_)
    exact .nil _
  · rename_i hplain
    simp only [not_or] at hplain
    refine .cons (by simp) ?_
    have hstep : Quoting.step (.inside '\'' false) c = .inside '\'' false := by
      simp [Quoting.step, Quoting.insideStep, hplain.1, hplain.2]
    rw [hstep]
    exact .nil _

/-- A quoted name is passed over by every splitter that does not stop at quotes. -/
theorem skips_quoteName {stops : List Char} (hstops : '\'' ∉ stops) (name : String) :
    Skips stops .outside (quoteName name) .outside := by
  have hbody (body : List Char) :
      Skips stops (.inside '\'' false) (body.flatMap escapeInQuotes) (.inside '\'' false) := by
    induction body with
    | nil => exact .nil _
    | cons c rest ih =>
      rw [List.flatMap_cons]
      exact (skips_escapeInQuotes stops c).append ih
  refine .cons (fun h => hstops h.2) ?_
  refine (hbody name.toList).append (.cons (by simp) ?_)
  exact .nil _

/-- The rest of a quoted name reads as the name. -/
theorem unquoteRest?_escaped (body : List Char) :
    unquoteRest? '\'' (body.flatMap escapeInQuotes ++ ['\'']) = some body := by
  induction body with
  | nil => rfl
  | cons c rest ih =>
    rw [List.flatMap_cons, List.append_assoc]
    by_cases hescaped : c = '\'' ∨ c = '\\'
    · have hshape : escapeInQuotes c = ['\\', c] := by rw [escapeInQuotes, if_pos hescaped]
      rw [hshape, List.cons_append, List.cons_append, List.nil_append, unquoteRest?, ih]
      rfl
    · have hshape : escapeInQuotes c = [c] := by rw [escapeInQuotes, if_neg hescaped]
      simp only [not_or] at hescaped
      rw [hshape, List.cons_append, List.nil_append, unquoteRest?, if_neg hescaped.2,
        if_neg hescaped.1, ih]
      · rfl
      · intro d more hc _
        exact hescaped.2 hc

/-- A quoted name reads as the name, whatever it holds. -/
theorem unquote?_quoteName (name : String) : unquote? (quoteName name) = some name := by
  simp [unquote?, quoteName, unquoteRest?_escaped]

/-! ## Texts without blanks at their ends -/

/-- The text is not empty, and neither end of it is blank. -/
structure Solid (text : List Char) : Prop where
  /-- There is some text. -/
  ne_nil : text ≠ []
  /-- The text does not start with a blank. -/
  head : ∀ c ∈ text.head?, Text.isBlank c = false
  /-- The text does not end with a blank. -/
  last : ∀ c ∈ text.getLast?, Text.isBlank c = false

namespace Solid

theorem trim {text : List Char} (hsolid : Solid text) : Text.trim text = text :=
  Text.trim_eq_self hsolid.head hsolid.last

theorem of_no_blank {text : List Char} (hne : text ≠ [])
    (hblank : ∀ c ∈ text, Text.isBlank c = false) : Solid text where
  ne_nil := hne
  head c hmem := hblank c (List.mem_of_mem_head? hmem)
  last c hmem := hblank c (List.mem_of_mem_getLast? hmem)

/-- A quoted name is solid. -/
theorem quoteName (name : String) : Solid (quoteName name) where
  ne_nil := by simp [NestedData.quoteName]
  head c hmem := by
    obtain rfl : '\'' = c := by simpa [NestedData.quoteName] using hmem
    decide
  last c hmem := by
    rw [NestedData.quoteName, List.getLast?_concat] at hmem
    obtain rfl : '\'' = c := by simpa using hmem
    decide

/-- Two solid texts with anything between them are solid. -/
theorem append {first second : List Char} (hfirst : Solid first) (middle : List Char)
    (hsecond : Solid second) : Solid (first ++ (middle ++ second)) where
  ne_nil := by simp [hfirst.ne_nil]
  head c hmem := by
    rw [List.head?_append, List.head?_eq_some_head hfirst.ne_nil, Option.some_or,
      ← List.head?_eq_some_head] at hmem
    exact hfirst.head c hmem
  last c hmem := by
    rw [← List.append_assoc, List.getLast?_append, List.getLast?_eq_some_getLast hsecond.ne_nil,
      Option.some_or, ← List.getLast?_eq_some_getLast] at hmem
    exact hsecond.last c hmem

/-- Solid texts joined by a separator are solid. -/
theorem join {separator : Char} {texts : List (List Char)} (hne : texts ≠ [])
    (hsolid : ∀ text ∈ texts, Solid text) : Solid ([separator].intercalate texts) := by
  induction texts with
  | nil => exact absurd rfl hne
  | cons first rest ih =>
    cases rest with
    | nil => simpa using hsolid first (by simp)
    | cons second others =>
      have hlater := ih (by simp) fun text hmem => hsolid text (List.mem_cons_of_mem _ hmem)
      rw [List.intercalate_cons_cons, List.append_assoc]
      exact (hsolid first (by simp)).append [separator] hlater

end Solid

/-! ## Entries of unions and parts of slices -/

theorem skips_of_numeral {text : List Char} (hnumeral : ∀ c ∈ text, IsNumeral c) :
    Skips marks .outside text .outside :=
  .of_plain fun c hc => ⟨(hnumeral c hc).plain.1, (hnumeral c hc).plain.2.1⟩

theorem isNumeral_of_mem_renderBound {bound : Option Int64} {c : Char}
    (hmem : c ∈ renderBound bound) : IsNumeral c := by
  cases bound with
  | none => simp [renderBound] at hmem
  | some bound => exact isNumeral_of_mem_showInt hmem

theorem solid_showNat (n : Nat) : Solid (Text.showNat n) :=
  .of_no_blank Nat.toDigits_ne_nil fun _ hmem =>
    IsNumeral.not_blank (.inr (Text.isDigit_of_mem_showNat hmem))

theorem skips_selector (selector : Selector) : Skips marks .outside selector.render .outside := by
  cases selector with
  | key name => exact skips_quoteName (by decide) name
  | index position => exact skips_of_numeral fun _ hmem => .inr (Text.isDigit_of_mem_showNat hmem)

theorem solid_selector (selector : Selector) : Solid selector.render := by
  cases selector with
  | key name => exact .quoteName name
  | index position => exact solid_showNat position

theorem startsQuoted_of_numeral {text : List Char} (hnumeral : ∀ c ∈ text.head?, IsNumeral c) :
    startsQuoted text = false := by
  cases text with
  | nil => rfl
  | cons c rest => exact (hnumeral c (by simp)).plain.1

/-- An entry of a union reads as it was written. -/
theorem readSelector?_render {selector : Selector} (hcanonical : selector.IsCanonical) :
    readSelector? selector.render = some selector := by
  unfold readSelector?
  rw [(solid_selector selector).trim]
  cases selector with
  | key name =>
    have hquoted : startsQuoted (Selector.key name).render = true := rfl
    have hname : unquote? (Selector.key name).render = some name := unquote?_quoteName name
    simp [hquoted, hname]
  | index position =>
    have hplain : startsQuoted (Selector.index position).render = false :=
      startsQuoted_of_numeral fun c hc =>
        .inr (Text.isDigit_of_mem_showNat (List.mem_of_mem_head? hc))
    have hnumber : Text.readNat? (Selector.index position).render = some position :=
      Text.readNat?_showNat position
    have hfits : position < UInt64.size := hcanonical
    simp [hplain, hnumber, hfits]

/-- A part of a slice reads as it was written. -/
theorem readBound?_render (bound : Option Int64) : readBound? (renderBound bound) = some bound := by
  have hblank : ∀ c ∈ renderBound bound, Text.isBlank c = false := fun c hc =>
    (isNumeral_of_mem_renderBound hc).not_blank
  have htrim : Text.trim (renderBound bound) = renderBound bound :=
    Text.trim_eq_self (fun c hc => hblank c (List.mem_of_mem_head? hc))
      (fun c hc => hblank c (List.mem_of_mem_getLast? hc))
  unfold readBound?
  rw [htrim]
  cases bound with
  | none => rfl
  | some word =>
    have hword : Text.readInt64? (renderBound (some word)) = some word :=
      Text.readInt64?_showInt word
    have hne : (renderBound (some word)).isEmpty = false := by
      cases hshape : renderBound (some word) with
      | nil =>
        rw [hshape] at hword
        simp [Text.readInt64?, Text.readInt?, Text.readDigits?] at hword
      | cons c rest => rfl
    simp [hne, hword]

/-- Reading what was written, member by member, gives the members back. -/
theorem mapM_map_eq_some {α β : Type} {write : α → β} {read : β → Option α} {members : List α}
    (hread : ∀ member ∈ members, read (write member) = some member) :
    (members.map write).mapM read = some members := by
  induction members with
  | nil => rfl
  | cons member rest ih =>
    rw [List.map_cons, List.mapM_cons, hread member (by simp),
      ih fun other hmem => hread other (List.mem_cons_of_mem _ hmem)]
    rfl

/-! ## Whole selectors -/

/-- The text between brackets holds no brackets outside quotes. -/
theorem skips_content (segment : Segment) :
    Skips ['[', ']'] .outside segment.content .outside := by
  have hmarks : ['[', ']'] ⊆ marks := by simp [marks]
  cases segment with
  | root => exact .nil _
  | key name => exact skips_quoteName (by decide) name
  | wildcard => exact .of_plain (by simp [Segment.content, isQuoteMark])
  | index position =>
    exact (skips_of_numeral fun _ hmem => .inr (Text.isDigit_of_mem_showNat hmem)).mono hmarks
  | union entries =>
    refine .join (by decide) ?_
    intro text hmem
    rcases List.mem_map.mp hmem with ⟨entry, _, rfl⟩
    exact (skips_selector entry).mono hmarks
  | slice start stop step =>
    refine .join (by decide) ?_
    intro text hmem
    rcases List.mem_map.mp hmem with ⟨bound, _, rfl⟩
    exact (skips_of_numeral fun _ hmem => isNumeral_of_mem_renderBound hmem).mono hmarks

theorem ne_star {text : List Char} (hhead : ∀ c ∈ text.head?, c ≠ '*') : text ≠ ['*'] := by
  rintro rfl
  exact hhead '*' (by simp) rfl

theorem not_union {text : List Char} (hskips : Skips marks .outside text .outside) :
    ¬ 1 < (splitOutside ',' .outside text).toList.length := by
  rw [splitOutside_of_skips hskips (by decide)]
  simp [Pieces.toList]

/-- A name reads as it was written. -/
theorem readBracket_key (name : String) : readBracket (quoteName name) = .ok (.key name) := by
  have hsolid := Solid.quoteName name
  have hstar : quoteName name ≠ ['*'] := ne_star (by simp [quoteName])
  have hquoted : startsQuoted (quoteName name) = true := rfl
  unfold readBracket
  rw [hsolid.trim]
  dsimp only
  rw [if_neg (by simpa using hsolid.ne_nil), if_neg hstar,
    if_neg (not_union (skips_quoteName (by decide) name)), if_pos hquoted, unquote?_quoteName]

/-- A position of the signed range reads as it was written. -/
theorem readIndex_showNat {position : Nat} (hfits : position ≤ 0x7fffffffffffffff) :
    readIndex (Text.showNat position) = .ok (.index position) := by
  have hshow : Text.showNat position = Text.showInt position := by
    simp [Text.showInt, Int.not_lt.mpr (Int.natCast_nonneg position)]
  obtain ⟨word, hword⟩ : ∃ word : Int64, word.toInt = position :=
    ⟨Int64.ofInt position, Int64.toInt_ofInt_of_le (by omega) (by omega)⟩
  have hnonneg : ¬ word < 0 := by
    rw [Int64.lt_iff_toInt_lt, hword]
    simp
  rw [readIndex, hshow, ← hword, Text.readInt64?_showInt]
  simp [hnonneg, hword]

/-- A position reads as it was written. -/
theorem readBracket_index {position : Nat} (hfits : position ≤ 0x7fffffffffffffff) :
    readBracket (Text.showNat position) = .ok (.index position) := by
  have hsolid := solid_showNat position
  have hnumeral : ∀ c ∈ Text.showNat position, IsNumeral c := fun _ hmem =>
    .inr (Text.isDigit_of_mem_showNat hmem)
  have hskips := skips_of_numeral hnumeral
  have hhead : ∀ c ∈ (Text.showNat position).head?, IsNumeral c := fun c hc =>
    hnumeral c (List.mem_of_mem_head? hc)
  have hstar : Text.showNat position ≠ ['*'] := ne_star fun c hc => (hhead c hc).plain.2.2
  unfold readBracket
  rw [hsolid.trim]
  dsimp only
  rw [if_neg (by simpa using hsolid.ne_nil), if_neg hstar, if_neg (not_union hskips),
    startsQuoted_of_numeral hhead, splitOutside_of_skips hskips (by decide)]
  simpa [Pieces.toList] using readIndex_showNat hfits

/-- A union of two or more entries reads as it was written. -/
theorem readBracket_union {entries : List Selector} (hmany : 2 ≤ entries.length)
    (hcanonical : ∀ entry ∈ entries, entry.IsCanonical) :
    readBracket ([','].intercalate (entries.map Selector.render)) = .ok (.union entries) := by
  have hne : entries.map Selector.render ≠ [] := by
    intro h
    simp [List.map_eq_nil_iff.mp h] at hmany
  have hsolid : Solid ([','].intercalate (entries.map Selector.render)) := by
    refine .join hne ?_
    intro text hmem
    rcases List.mem_map.mp hmem with ⟨entry, _, rfl⟩
    exact solid_selector entry
  have hsplit : (splitOutside ',' .outside
      ([','].intercalate (entries.map Selector.render))).toList = entries.map Selector.render := by
    have hcomma : ',' ∈ marks := by decide
    apply splitOutside_join hcomma hne
    intro text hmem
    rcases List.mem_map.mp hmem with ⟨entry, _, rfl⟩
    exact skips_selector entry
  have hstar : [','].intercalate (entries.map Selector.render) ≠ ['*'] := by
    intro hstar
    rw [hstar] at hsplit
    have hlength := congrArg List.length hsplit
    rw [List.length_map] at hlength
    have hone : (splitOutside ',' .outside ['*']).toList.length = 1 := by decide
    omega
  unfold readBracket
  rw [hsolid.trim]
  dsimp only
  rw [if_neg (by simpa using hsolid.ne_nil), if_neg hstar, hsplit,
    if_pos (by rw [List.length_map]; omega),
    mapM_map_eq_some fun entry hmem => readSelector?_render (hcanonical entry hmem)]

/-- A character of a joined text is the separator or stands in one of the texts. -/
theorem eq_or_mem_of_mem_join {separator c : Char} {texts : List (List Char)}
    (hmem : c ∈ [separator].intercalate texts) : c = separator ∨ ∃ text ∈ texts, c ∈ text := by
  induction texts with
  | nil => simp at hmem
  | cons first rest ih =>
    cases rest with
    | nil => exact .inr ⟨first, by simp, by simpa using hmem⟩
    | cons second others =>
      rw [List.intercalate_cons_cons, List.mem_append, List.mem_append, List.mem_singleton] at hmem
      rcases hmem with (hfirst | hseparator) | hlater
      · exact .inr ⟨first, by simp, hfirst⟩
      · exact .inl hseparator
      · rcases ih hlater with hseparator | ⟨text, htext, hc⟩
        · exact .inl hseparator
        · exact .inr ⟨text, List.mem_cons_of_mem _ htext, hc⟩

theorem readSlice_writtenBounds {start stop step : Option Int64}
    (hsome : start.isSome ∨ stop.isSome ∨ step.isSome) :
    readSlice ((writtenBounds start stop step).map renderBound) = .ok (.slice start stop step) := by
  have hlength : ¬ 3 < ((writtenBounds start stop step).map renderBound).length := by
    cases step <;> simp [writtenBounds]
  rw [readSlice, if_neg hlength, mapM_map_eq_some fun bound _ => readBound?_render bound]
  cases start <;> cases stop <;> cases step <;> simp [writtenBounds, sliceOf] at hsome ⊢

/-- The characters between the brackets of a slice are colons and those of numerals. -/
theorem isNumeral_of_mem_bounds {start stop step : Option Int64} {c : Char}
    (hc : c ∈ [':'].intercalate ((writtenBounds start stop step).map renderBound)) :
    c = ':' ∨ IsNumeral c := by
  rcases eq_or_mem_of_mem_join hc with hcolon | ⟨part, hpart, hmem⟩
  · exact .inl hcolon
  · rcases List.mem_map.mp hpart with ⟨bound, _, rfl⟩
    exact .inr (isNumeral_of_mem_renderBound hmem)

/-- The bounds of a slice come apart at the colons. -/
theorem splitOutside_bounds (start stop step : Option Int64) :
    (splitOutside ':' .outside
      ([':'].intercalate ((writtenBounds start stop step).map renderBound))).toList =
      (writtenBounds start stop step).map renderBound := by
  have hcolon : ':' ∈ marks := by decide
  have hbounds : (writtenBounds start stop step).map renderBound ≠ [] := by simp [writtenBounds]
  refine splitOutside_join hcolon hbounds fun part hpart => ?_
  rcases List.mem_map.mp hpart with ⟨bound, _, rfl⟩
  exact skips_of_numeral fun _ hmem => isNumeral_of_mem_renderBound hmem

/-- A slice with a bound reads as it was written. -/
theorem readBracket_slice {start stop step : Option Int64}
    (hsome : start.isSome ∨ stop.isSome ∨ step.isSome) :
    readBracket ([':'].intercalate ((writtenBounds start stop step).map renderBound)) =
      .ok (.slice start stop step) := by
  have hsplit := splitOutside_bounds start stop step
  have hchars : ∀ c ∈ [':'].intercalate ((writtenBounds start stop step).map renderBound),
      c = ':' ∨ IsNumeral c := fun _ => isNumeral_of_mem_bounds
  generalize [':'].intercalate ((writtenBounds start stop step).map renderBound) = text
    at hsplit hchars ⊢
  have hcommas : Skips [','] .outside text .outside := by
    refine .of_plain fun c hc => ?_
    rcases hchars c hc with rfl | hnumeral
    · decide
    · exact ⟨hnumeral.plain.1, fun h => hnumeral.plain.2.1 (by simp_all [marks])⟩
  have hne : text ≠ [] := by
    rintro rfl
    have hlength := congrArg List.length hsplit
    simp [splitOutside, Pieces.toList, writtenBounds] at hlength
  have hsolid : Solid text := .of_no_blank hne fun c hc => by
    rcases hchars c hc with rfl | hnumeral
    · decide
    · exact hnumeral.not_blank
  have hstar : text ≠ ['*'] := ne_star fun c hc => by
    rcases hchars c (List.mem_of_mem_head? hc) with rfl | hnumeral
    · decide
    · exact hnumeral.plain.2.2
  have hquoted : startsQuoted text = false := by
    cases text with
    | nil => rfl
    | cons c rest =>
      rcases hchars c (by simp) with rfl | hnumeral
      · rfl
      · exact hnumeral.plain.1
  have hmany : 1 < ((writtenBounds start stop step).map renderBound).length := by
    simp [writtenBounds]
  unfold readBracket
  rw [hsolid.trim]
  dsimp only
  rw [if_neg (by simpa using hne), if_neg hstar, splitOutside_of_skips hcommas (by decide), hsplit,
    hquoted, if_pos hmany, readSlice_writtenBounds hsome]
  simp [Pieces.toList]

/-- The text between brackets reads as the segment it was written for. -/
theorem readBracket_content {segment : Segment} (hroot : segment ≠ .root)
    (hcanonical : segment.IsCanonical) : readBracket segment.content = .ok segment := by
  cases segment with
  | root => exact absurd rfl hroot
  | key name => exact readBracket_key name
  | wildcard => rfl
  | index position => exact readBracket_index hcanonical
  | union entries => exact readBracket_union hcanonical.1 hcanonical.2
  | slice start stop step => exact readBracket_slice hcanonical

end PathText

end NestedData
