import Mathlib.Data.List.Induction
import NestedData.Path.Parser
import NestedData.Proofs.Path.Grammar
import NestedData.Proofs.Path.Selectors

/-!
# Phrases between brackets

This module relates the phrases that stand between two brackets to their readers.
Blanks around a phrase are passed over by trimming, and the entries of a union and
the parts of a slice come apart because none of them holds a separator of its own.

Main results:

- `readSelector?_eq_some_iff` and `readBound?_eq_some_iff`: an entry of a union and
  a part of a slice are read exactly when they derive from the grammar.
- `readBracket_eq_ok_iff`: what stands between two brackets is read exactly when it
  derives from the grammar, and as the segment that it denotes.
-/

namespace NestedData.Grammar

open Text PathText

/-! ## Numerals -/

/-- Digits denote the number that they are read as. -/
theorem digits_ofDigitChars {text : List Char} (hne : text ≠ [])
    (hdigits : ∀ c ∈ text, c.isDigit = true) : Digits text (Nat.ofDigitChars 10 text 0) := by
  induction text using List.reverseRecOn with
  | nil => exact absurd rfl hne
  | append_singleton init c ih =>
    have hdigit : c.isDigit = true := hdigits c (by simp)
    by_cases hinit : init = []
    · subst hinit
      have hvalue : Nat.ofDigitChars 10 ([] ++ [c]) 0 = c.toNat - '0'.toNat := by
        simp [Nat.ofDigitChars]
      rw [hvalue]
      exact .digit hdigit
    · rw [Nat.ofDigitChars_append, Nat.ofDigitChars_cons]
      exact .more (ih hinit fun d hd => hdigits d (by simp [hd])) hdigit

/-- Digits are read exactly when they denote a number, and as that number. -/
theorem readDigits?_eq_some_iff {text : List Char} {n : Nat} :
    readDigits? text = some n ↔ Digits text n := by
  unfold readDigits?
  constructor
  · intro hread
    split at hread
    · rename_i hdigits
      cases hread
      exact digits_ofDigitChars hdigits.1 (by simpa using hdigits.2)
    · cases hread
  · intro htext
    induction htext with
    | digit hdigit => simp [hdigit, Nat.ofDigitChars]
    | @more text n c _ hdigit ih =>
      split at ih
      · rename_i hdigits
        have hn : Nat.ofDigitChars 10 text 0 = n := Option.some.inj ih
        have hall : (text ++ [c]).all Char.isDigit = true := by simp_all
        rw [if_pos ⟨by simp, hall⟩, Nat.ofDigitChars_append, hn, Nat.ofDigitChars_cons]
        rfl
      · cases ih

/-- The characters of a numeral are digits, and there is one. -/
theorem isDigit_of_digits {text : List Char} {n : Nat} (htext : Digits text n) :
    text ≠ [] ∧ ∀ c ∈ text, c.isDigit = true := by
  induction htext with
  | digit hdigit => simpa using hdigit
  | more _ hdigit ih =>
    refine ⟨by simp, fun c hc => ?_⟩
    rcases List.mem_append.mp hc with hc | hc
    · exact ih.2 c hc
    · rwa [List.mem_singleton.mp hc]

theorem sign_ne_of_digits {sign : Char} {text rest : List Char} {n : Nat}
    (hsign : sign.isDigit = false) (htext : Digits text n) : text ≠ sign :: rest := by
  rintro rfl
  have hdigit := (isDigit_of_digits htext).2 sign (by simp)
  rw [hsign] at hdigit
  cases hdigit

/-- Unsigned numerals are read exactly when they denote a number, and as that number. -/
theorem readNat?_eq_some_iff {text : List Char} {n : Nat} :
    readNat? text = some n ↔ Unsigned text n := by
  constructor
  · intro hread
    unfold readNat? at hread
    split at hread
    · exact .plus (readDigits?_eq_some_iff.mp hread)
    · exact .plain (readDigits?_eq_some_iff.mp hread)
  · rintro (htext | htext)
    · have hplus (rest : List Char) : text ≠ '+' :: rest := sign_ne_of_digits (by decide) htext
      rw [readNat?, readDigits?_eq_some_iff.mpr htext]
      exact fun rest => hplus rest
    · exact readDigits?_eq_some_iff.mpr htext

/-- Signed numerals are read exactly when they denote a number, and as that number. -/
theorem readInt?_eq_some_iff {text : List Char} {n : Int} :
    readInt? text = some n ↔ Signed text n := by
  constructor
  · intro hread
    unfold readInt? at hread
    split at hread <;> rcases Option.map_eq_some_iff.mp hread with ⟨m, hdigits, rfl⟩
    · exact .minus (readDigits?_eq_some_iff.mp hdigits)
    · exact .plus (readDigits?_eq_some_iff.mp hdigits)
    · exact .plain (readDigits?_eq_some_iff.mp hdigits)
  · rintro (htext | htext | htext)
    · have hsign (sign : Char) (hsign : sign.isDigit = false) (rest : List Char) :
          text ≠ sign :: rest := sign_ne_of_digits hsign htext
      rw [readInt?, readDigits?_eq_some_iff.mpr htext]
      · rfl
      · exact fun rest => hsign '-' (by decide) rest
      · exact fun rest => hsign '+' (by decide) rest
    · rw [readInt?, readDigits?_eq_some_iff.mpr htext]
      rfl
    · rw [readInt?, readDigits?_eq_some_iff.mpr htext]
      rfl

theorem readInt64?_eq_some_iff {text : List Char} {word : Int64} :
    readInt64? text = some word ↔ Signed text word.toInt := by
  rw [readInt64?, Option.bind_eq_some_iff]
  simp only [readInt?_eq_some_iff, exactInt64?_eq_some_iff]
  constructor
  · rintro ⟨_, hsigned, rfl⟩
    exact hsigned
  · exact fun hsigned => ⟨_, hsigned, rfl⟩

/-! ## Quoted names -/

/-- The rest of a quoted name is read exactly when it derives from the grammar. -/
theorem unquoteRest?_eq_some_iff {mark : Char} (hmark : mark ≠ '\\') {text name : List Char} :
    unquoteRest? mark text = some name ↔ QuotedRest mark text name := by
  constructor
  · intro hread
    induction text using unquoteRest?.induct mark generalizing name with
    | case1 => cases hread
    | case2 c rest ih =>
      rw [unquoteRest?] at hread
      obtain ⟨more, hrest, rfl⟩ := Option.map_eq_some_iff.mp hread
      exact .escaped c (ih hrest)
    | case3 rest hescape =>
      rw [unquoteRest?, if_pos rfl] at hread
      · cases hread
      · exact hescape
    | case4 rest hempty hescape hbackslash =>
      rw [unquoteRest?, if_neg hmark, if_pos rfl, if_pos hempty] at hread
      · cases hread
        rw [List.isEmpty_iff.mp hempty]
        exact .close
      · exact hescape
    | case5 rest hnonempty hescape hbackslash =>
      rw [unquoteRest?, if_neg hmark, if_pos rfl, if_neg hnonempty] at hread
      · cases hread
      · exact hescape
    | case6 c rest hescape hbackslash hother ih =>
      rw [unquoteRest?, if_neg hbackslash, if_neg hother] at hread
      · obtain ⟨more, hrest, rfl⟩ := Option.map_eq_some_iff.mp hread
        exact .plain hbackslash hother (ih hrest)
      · exact hescape
  · intro htext
    induction htext with
    | close =>
      rw [unquoteRest?, if_neg hmark, if_pos rfl]
      · rfl
      · exact fun c rest hsame _ => hmark hsame
    | escaped c _ ih => rw [unquoteRest?, ih, Option.map_some]
    | @plain c rest name hbackslash hother _ ih =>
      rw [unquoteRest?, if_neg hbackslash, if_neg hother, ih, Option.map_some]
      exact fun d more hsame _ => hbackslash hsame

/-- Quoted names are read exactly when they derive from the grammar. -/
theorem unquote?_eq_some_iff {text : List Char} {name : String} :
    startsQuoted text = true ∧ unquote? text = some name ↔ Quoted text name := by
  constructor
  · rintro ⟨hquoted, hread⟩
    cases text with
    | nil => cases hquoted
    | cons mark rest =>
      obtain ⟨body, hbody, rfl⟩ := Option.map_eq_some_iff.mp hread
      simp only [startsQuoted, isQuoteMark, Bool.or_eq_true, beq_iff_eq] at hquoted
      rcases hquoted with rfl | rfl
      · exact .single ((unquoteRest?_eq_some_iff (by decide)).mp hbody)
      · exact .double ((unquoteRest?_eq_some_iff (by decide)).mp hbody)
  · rintro (hrest | hrest)
    · exact ⟨rfl, by rw [unquote?, (unquoteRest?_eq_some_iff (by decide)).mpr hrest]; rfl⟩
    · exact ⟨rfl, by rw [unquote?, (unquoteRest?_eq_some_iff (by decide)).mpr hrest]; rfl⟩

/-! ## No phrase is blank at its ends -/

/-- The characters of a signed numeral are digits and signs, and there is one. -/
theorem Signed.chars {text : List Char} {n : Int} (htext : Signed text n) :
    text ≠ [] ∧ ∀ c ∈ text, c = '+' ∨ IsNumeral c := by
  rcases htext with htext | htext | htext <;> obtain ⟨hne, hdigits⟩ := isDigit_of_digits htext
  · exact ⟨hne, fun c hc => .inr (.inr (hdigits c hc))⟩
  · exact ⟨by simp, by simpa using fun c hc => .inr (.inr (hdigits c hc))⟩
  · refine ⟨by simp, fun c hc => .inr ?_⟩
    exact (List.mem_cons.mp hc).imp_right fun hc => hdigits c hc

theorem Unsigned.signed {text : List Char} {n : Nat} (htext : Unsigned text n) : Signed text n := by
  cases htext with
  | plain htext => exact .plain htext
  | plus htext => exact .plus htext

theorem Signed.solid {text : List Char} {n : Int} (htext : Signed text n) : Solid text := by
  obtain ⟨hne, hchars⟩ := htext.chars
  refine .of_no_blank hne fun c hc => ?_
  rcases hchars c hc with rfl | hnumeral
  · decide
  · exact hnumeral.not_blank

theorem QuotedRest.getLast? {mark : Char} {text name : List Char}
    (htext : QuotedRest mark text name) : text.getLast? = some mark := by
  induction htext with
  | close => rfl
  | escaped c hrest ih => rw [List.getLast?_cons_cons, List.getLast?_cons, ih]; rfl
  | plain _ _ hrest ih => rw [List.getLast?_cons, ih]; rfl

/-- A quoted name is solid. -/
theorem Quoted.solid {text : List Char} {name : String} (htext : Quoted text name) :
    Solid text := by
  rcases htext with hrest | hrest
  all_goals
    refine ⟨by simp, fun c hc => ?_, fun c hc => ?_⟩
    · obtain rfl := Option.some.inj hc
      decide
    · rw [List.getLast?_cons, hrest.getLast?] at hc
      obtain rfl := Option.some.inj hc
      decide

/-- Mapping a reader over texts succeeds exactly when every text is read. -/
theorem mapM_eq_some_iff_forall₂ {α β : Type} {read : α → Option β} {texts : List α}
    {members : List β} : texts.mapM read = some members ↔
      List.Forall₂ (fun text member => read text = some member) texts members := by
  induction texts generalizing members with
  | nil => simp [eq_comm]
  | cons text rest ih =>
    rw [List.mapM_cons]
    constructor
    · intro hread
      obtain ⟨member, hmember, hread⟩ := Option.bind_eq_some_iff.mp hread
      obtain ⟨others, hothers, hread⟩ := Option.bind_eq_some_iff.mp hread
      cases hread
      exact .cons hmember (ih.mp hothers)
    · rintro (_ | ⟨hmember, hothers⟩)
      rw [hmember, ih.mpr hothers]
      rfl

/-! ## Entries of unions and parts of slices -/

theorem Signed.unmarked {text : List Char} {n : Int} (htext : Signed text n) :
    ∀ c ∈ text, isQuoteMark c = false ∧ c ∉ marks ∧ c ≠ '*' := by
  intro c hc
  rcases htext.chars.2 c hc with rfl | hnumeral
  · decide
  · exact hnumeral.plain

theorem Signed.not_quoted {text : List Char} {n : Int} (htext : Signed text n) :
    startsQuoted text = false := by
  cases text with
  | nil => rfl
  | cons c rest => exact (htext.unmarked c (by simp)).1

/-- Entries of unions are read exactly when they derive from the grammar. -/
theorem readSelector?_eq_some_iff {text : List Char} {selector : Selector} :
    readSelector? text = some selector ↔ Entry text selector := by
  constructor
  · intro hread
    obtain ⟨before, after, hbefore, hafter, htext⟩ := exists_trim text
    simp only [readSelector?] at hread
    rw [htext]
    split at hread
    · rename_i hquoted
      obtain ⟨name, hname, rfl⟩ := Option.map_eq_some_iff.mp hread
      exact .key hbefore (unquote?_eq_some_iff.mp ⟨hquoted, hname⟩) hafter
    · split at hread
      · rename_i position hposition
        split at hread
        · rename_i hfits
          cases hread
          exact .index hbefore (readNat?_eq_some_iff.mp hposition) hfits hafter
        · cases hread
      · cases hread
  · rintro (⟨hbefore, htext, hafter⟩ | ⟨hbefore, htext, hfits, hafter⟩)
    · rcases unquote?_eq_some_iff.mpr htext with ⟨hquoted, hname⟩
      simp only [readSelector?]
      rw [trim_blank hbefore hafter, htext.solid.trim, if_pos hquoted, hname]
      rfl
    · have hplain := htext.signed.not_quoted
      simp only [readSelector?]
      rw [trim_blank hbefore hafter, htext.signed.solid.trim, if_neg (by simp [hplain]),
        readNat?_eq_some_iff.mpr htext]
      exact if_pos hfits

/-- Parts of slices are read exactly when they derive from the grammar. -/
theorem readBound?_eq_some_iff {text : List Char} {bound : Option Int64} :
    readBound? text = some bound ↔ Part text bound := by
  constructor
  · intro hread
    obtain ⟨before, after, hbefore, hafter, htext⟩ := exists_trim text
    simp only [readBound?] at hread
    split at hread
    · rename_i hempty
      cases hread
      rw [List.isEmpty_iff.mp hempty, List.append_nil] at htext
      refine .absent fun c hc => ?_
      rw [htext] at hc
      exact (List.mem_append.mp hc).elim (hbefore c) (hafter c)
    · obtain ⟨word, hword, rfl⟩ := Option.map_eq_some_iff.mp hread
      rw [htext]
      exact .bound hbefore (readInt64?_eq_some_iff.mp hword) hafter
  · rintro (htext | ⟨hbefore, htext, hafter⟩)
    · have htrim : trim text = [] := by
        have hblank : trim (text ++ [] ++ []) = trim [] := trim_blank htext (by simp [Blank])
        simpa [Text.trim, Text.trimEnd] using hblank
      simp only [readBound?, htrim]
      rfl
    · have hne := htext.solid.ne_nil
      simp only [readBound?]
      rw [trim_blank hbefore hafter, htext.solid.trim, if_neg (by simpa using hne),
        readInt64?_eq_some_iff.mpr htext]
      rfl

theorem Entry.of_trim {text other : List Char} {selector : Selector} (htext : Entry text selector)
    (htrim : trim other = trim text) : Entry other selector := by
  rw [← readSelector?_eq_some_iff] at htext ⊢
  rw [← htext, readSelector?, readSelector?, htrim]

theorem Part.of_trim {text other : List Char} {bound : Option Int64} (htext : Part text bound)
    (htrim : trim other = trim text) : Part other bound := by
  rw [← readBound?_eq_some_iff] at htext ⊢
  rw [← htext, readBound?, readBound?, htrim]

/-- What depends on trimmed forms only passes to texts with the same trimmed forms. -/
theorem forall₂_of_trim {α : Type} {Phrase : List Char → α → Prop} {texts others : List (List Char)}
    {members : List α} (htexts : List.Forall₂ Phrase texts members)
    (hmap : others.map trim = texts.map trim) (hphrase : ∀ text other member,
      Phrase text member → trim other = trim text → Phrase other member) :
    List.Forall₂ Phrase others members := by
  induction htexts generalizing others with
  | nil =>
    rw [List.map_nil, List.map_eq_nil_iff] at hmap
    rw [hmap]
    exact .nil
  | cons hfirst _ ih =>
    obtain ⟨other, more, rfl, hother, hmore⟩ := List.map_eq_cons_iff.mp hmap
    exact .cons (hphrase _ _ _ hfirst hother) (ih hmore)

/-! ## Phrases hold no marks of their own -/

/-- The blanks around a phrase are no quotation marks and no marks. -/
theorem unmarked_of_blank {text : List Char} (htext : Blank text) :
    ∀ c ∈ text, isQuoteMark c = false ∧ c ∉ marks := by
  intro c hc
  have hblank := htext c hc
  have haway : ∀ d ∈ '\'' :: '"' :: marks, c ≠ d := by
    rintro d hd rfl
    simp only [marks, List.mem_cons, List.not_mem_nil, or_false] at hd
    rcases hd with rfl | rfl | rfl | rfl | rfl | rfl <;> revert hblank <;> decide
  exact ⟨by simp [isQuoteMark, haway], fun hmem => haway c (by simp [hmem]) rfl⟩

/-- The rest of a quoted name leads out of the quotes. -/
theorem QuotedRest.skips {mark : Char} {text name : List Char} (hmark : mark ≠ '\\')
    (htext : QuotedRest mark text name) (stops : List Char) :
    Skips stops (.inside mark false) text .outside := by
  induction htext with
  | close =>
    refine .cons (by simp) ?_
    have hstep : Quoting.step (.inside mark false) mark = .outside := by
      simp [Quoting.step, Quoting.insideStep, hmark]
    rw [hstep]
    exact .nil _
  | escaped c _ ih =>
    exact .cons (by simp) (.cons (by simp [Quoting.step, Quoting.insideStep]) ih)
  | @plain c rest name hbackslash hother _ ih =>
    refine .cons (by simp) ?_
    have hstep : Quoting.step (.inside mark false) c = .inside mark false := by
      simp [Quoting.step, Quoting.insideStep, hbackslash, hother]
    rwa [hstep]

theorem Quoted.skips {text : List Char} {name : String} (htext : Quoted text name) :
    Skips marks .outside text .outside := by
  rcases htext with hrest | hrest
  · exact .cons (by decide) (hrest.skips (by decide) marks)
  · exact .cons (by decide) (hrest.skips (by decide) marks)

theorem Signed.skips {text : List Char} {n : Int} (htext : Signed text n) :
    Skips marks .outside text .outside :=
  .of_plain fun c hc => ⟨(htext.unmarked c hc).1, (htext.unmarked c hc).2.1⟩

theorem skips_of_blank {text : List Char} (htext : Blank text) :
    Skips marks .outside text .outside :=
  .of_plain (unmarked_of_blank htext)

theorem Entry.skips {text : List Char} {selector : Selector} (htext : Entry text selector) :
    Skips marks .outside text .outside := by
  rcases htext with ⟨hbefore, htext, hafter⟩ | ⟨hbefore, htext, _, hafter⟩
  · exact ((skips_of_blank hbefore).append htext.skips).append (skips_of_blank hafter)
  · exact ((skips_of_blank hbefore).append htext.signed.skips).append (skips_of_blank hafter)

/-- The characters of a part of a slice are no quotation marks and no marks. -/
theorem Part.unmarked {text : List Char} {bound : Option Int64} (htext : Part text bound) :
    ∀ c ∈ text, isQuoteMark c = false ∧ c ∉ marks := by
  intro c hc
  rcases htext with htext | ⟨hbefore, htext, hafter⟩
  · exact unmarked_of_blank htext c hc
  · rcases List.mem_append.mp hc with hc | hc
    · rcases List.mem_append.mp hc with hc | hc
      · exact unmarked_of_blank hbefore c hc
      · exact ⟨(htext.unmarked c hc).1, (htext.unmarked c hc).2.1⟩
    · exact unmarked_of_blank hafter c hc

/-- Every text of two lists that match has a partner. -/
theorem exists_of_forall₂ {α β : Type} {Phrase : α → β → Prop} {texts : List α} {members : List β}
    (hmatch : List.Forall₂ Phrase texts members) {text : α} (hmem : text ∈ texts) :
    ∃ member ∈ members, Phrase text member := by
  induction hmatch with
  | nil => cases hmem
  | cons hfirst _ ih =>
    rcases List.mem_cons.mp hmem with rfl | hmem
    · exact ⟨_, by simp, hfirst⟩
    · obtain ⟨member, hmember, hphrase⟩ := ih hmem
      exact ⟨member, List.mem_cons_of_mem _ hmember, hphrase⟩

/-! ## Slices -/

/-- A slice is two or three parts with colons between them, and it denotes them in
their order. -/
theorem Slice.exists_parts {text : List Char} {start stop step : Option Int64}
    (htext : Slice text start stop step) :
    ∃ parts bounds, text = [':'].intercalate parts ∧ 1 < parts.length ∧ ¬ 3 < parts.length ∧
      List.Forall₂ Part parts bounds ∧ start = bounds[0]?.getD none ∧
      stop = bounds[1]?.getD none ∧ step = bounds[2]?.getD none := by
  cases htext with
  | @two first second start stop hfirst hsecond =>
    exact ⟨[first, second], [start, stop], by simp, by simp, by simp,
      .cons hfirst (.cons hsecond .nil), rfl, rfl, rfl⟩
  | @three first second third start stop step hfirst hsecond hthird =>
    exact ⟨[first, second, third], [start, stop, step], by simp, by simp, by simp,
      .cons hfirst (.cons hsecond (.cons hthird .nil)), rfl, rfl, rfl⟩

/-- Two or three parts with colons between them are a slice. -/
theorem slice_of_parts {parts : List (List Char)} {bounds : List (Option Int64)}
    (hmany : 1 < parts.length) (hfew : ¬ 3 < parts.length)
    (hparts : List.Forall₂ Part parts bounds) :
    Slice ([':'].intercalate parts) (bounds[0]?.getD none) (bounds[1]?.getD none)
      (bounds[2]?.getD none) := by
  rcases hparts with _ | ⟨hfirst, _ | ⟨hsecond, _ | ⟨hthird, _ | _⟩⟩⟩
  · simp at hmany
  · simp at hmany
  · simpa using Slice.two hfirst hsecond
  · simpa using Slice.three hfirst hsecond hthird
  · simp at hfew

/-- A slice is what stands between brackets, as the segment that its parts give. -/
theorem Slice.inner {text : List Char} {start stop step : Option Int64}
    (htext : Slice text start stop step) : Inner text (sliceOf start stop step) := by
  unfold sliceOf
  split
  · rename_i hnone
    simp only [Bool.and_eq_true, Option.isNone_iff_eq_none] at hnone
    obtain ⟨⟨rfl, rfl⟩, rfl⟩ := hnone
    exact .everything htext
  · rename_i hsome
    refine .slice htext ?_
    cases start <;> cases stop <;> cases step <;> simp at hsome ⊢

/-- The characters of a slice are no quotation marks, brackets or commas. -/
theorem Slice.unmarked {text : List Char} {start stop step : Option Int64}
    (htext : Slice text start stop step) :
    ∀ c ∈ text, isQuoteMark c = false ∧ c ∉ ['[', ']', ','] := by
  obtain ⟨parts, bounds, rfl, _, _, hparts, _⟩ := htext.exists_parts
  intro c hc
  rcases eq_or_mem_of_mem_join hc with rfl | ⟨part, hpart, hmem⟩
  · decide
  · obtain ⟨bound, _, hbound⟩ := exists_of_forall₂ hparts hpart
    obtain ⟨hmark, hstop⟩ := hbound.unmarked c hmem
    exact ⟨hmark, fun h => hstop (by simp_all [marks])⟩

/-! ## What stands between brackets -/

/-- What stands between brackets holds no brackets outside quotes. -/
theorem Inner.skips {text : List Char} {segment : Segment} (htext : Inner text segment) :
    Skips ['[', ']'] .outside text .outside := by
  have hmarks : ['[', ']'] ⊆ marks := by simp [marks]
  cases htext with
  | star => exact .of_plain (by simp [isQuoteMark])
  | key htext => exact htext.skips.mono hmarks
  | union _ hentries =>
    refine .join (by decide) fun text hmem => ?_
    obtain ⟨selector, _, hentry⟩ := exists_of_forall₂ hentries hmem
    exact hentry.skips.mono hmarks
  | everything htext | slice htext _ =>
    refine .of_plain fun c hc => ?_
    obtain ⟨hmark, hstop⟩ := htext.unmarked c hc
    exact ⟨hmark, fun h => hstop (by simp_all)⟩
  | index htext => exact htext.skips.mono hmarks

/-- The parts of a slice are read as a segment only if they derive as that. -/
theorem inner_of_readSlice {parts : List (List Char)} {segment : Segment}
    (hmany : 1 < parts.length) (hread : readSlice parts = .ok segment) :
    Inner ([':'].intercalate parts) segment := by
  unfold readSlice at hread
  split at hread
  · cases hread
  · rename_i hfew
    split at hread
    · cases hread
    · rename_i bounds hbounds
      cases hread
      refine (slice_of_parts hmany hfew ?_).inner
      exact (mapM_eq_some_iff_forall₂.mp hbounds).imp fun _ _ => readBound?_eq_some_iff.mp

/-- A text is read as a position only if it derives as one. -/
theorem inner_of_readIndex {text : List Char} {segment : Segment}
    (hread : readIndex text = .ok segment) : Inner text segment := by
  unfold readIndex at hread
  split at hread
  · rename_i word hword
    split at hread
    · cases hread
    · rename_i hnonneg
      cases hread
      have hsigned := readInt64?_eq_some_iff.mp hword
      have hupper := Int64.toInt_lt word
      rw [Int64.lt_iff_toInt_lt, Int64.toInt_zero] at hnonneg
      refine .index ?_ (by omega)
      rwa [Int.toNat_of_nonneg (by omega)]
  · cases hread

/-- Trimmed text between brackets is read as a segment only if it derives as that. -/
theorem inner_of_readBracket {content : List Char} {segment : Segment}
    (hread : readBracket content = .ok segment) : Inner (trim content) segment := by
  unfold readBracket at hread
  dsimp only at hread
  generalize trim content = text at hread ⊢
  have hunion := join_splitOutside ',' .outside text
  have hslice := join_splitOutside ':' .outside text
  generalize (splitOutside ',' .outside text).toList = entries at hread hunion
  generalize (splitOutside ':' .outside text).toList = parts at hread hslice
  split at hread
  · cases hread
  · split at hread
    · rename_i hstar
      cases hread
      exact hstar ▸ .star
    · split at hread
      · rename_i hmany
        split at hread
        · rename_i selectors hselectors
          cases hread
          rw [← hunion]
          refine .union hmany ?_
          exact (mapM_eq_some_iff_forall₂.mp hselectors).imp fun _ _ => readSelector?_eq_some_iff.mp
        · cases hread
      · split at hread
        · rename_i hquoted
          split at hread
          · rename_i name hname
            cases hread
            exact .key (unquote?_eq_some_iff.mp ⟨hquoted, hname⟩)
          · cases hread
        · split at hread
          · rename_i hmany
            rw [← hslice]
            exact inner_of_readSlice hmany hread
          · exact inner_of_readIndex hread

theorem readBracket_congr {content other : List Char} (htrim : trim other = trim content) :
    readBracket other = readBracket content := by
  rw [readBracket, readBracket, htrim]

/-- A quoted name between brackets is read as the name. -/
theorem readBracket_quoted {text : List Char} {name : String} (htext : Quoted text name) :
    readBracket text = .ok (.key name) := by
  rcases unquote?_eq_some_iff.mpr htext with ⟨hquoted, hname⟩
  have hstar : text ≠ ['*'] := by
    rintro rfl
    cases hquoted
  unfold readBracket
  rw [htext.solid.trim]
  dsimp only
  rw [if_neg (by simpa using htext.solid.ne_nil), if_neg hstar, if_neg (not_union htext.skips),
    if_pos hquoted, hname]

/-- A text that comes apart in two or more pieces is neither empty nor a star. -/
theorem ne_of_many_pieces {separator : Char} {text : List Char} (hseparator : separator ≠ '*')
    (hmany : 1 < (splitOutside separator .outside text).toList.length) :
    text ≠ [] ∧ text ≠ ['*'] := by
  constructor
  · rintro rfl
    simp [splitOutside, Pieces.toList] at hmany
  · rintro rfl
    simp [splitOutside, Pieces.toList, Pieces.cons, hseparator.symm] at hmany

/-- Phrases with a separator between them that none of them holds come apart into
phrases of the same meaning when the whole is trimmed. -/
theorem pieces_of_phrases {α : Type} {Phrase : List Char → α → Prop} {separator : Char}
    {texts : List (List Char)} {members : List α} (hmember : separator ∈ marks)
    (hmany : 1 < texts.length) (htexts : List.Forall₂ Phrase texts members)
    (hskips : ∀ text member, Phrase text member → Skips marks .outside text .outside)
    (htrim : ∀ text other member,
      Phrase text member → trim other = trim text → Phrase other member) :
    (splitOutside separator .outside (trim ([separator].intercalate texts))).toList.length =
        texts.length ∧
      List.Forall₂ Phrase
        (splitOutside separator .outside (trim ([separator].intercalate texts))).toList members ∧
      trim ([separator].intercalate texts) ≠ [] ∧
      trim ([separator].intercalate texts) ≠ ['*'] := by
  have hblank : isBlank separator = false ∧ separator ≠ '*' := by
    simp only [marks, List.mem_cons, List.not_mem_nil, or_false] at hmember
    rcases hmember with rfl | rfl | rfl | rfl <;> decide
  have hne : texts ≠ [] := by
    rintro rfl
    simp at hmany
  obtain ⟨others, hjoin, hmap⟩ := exists_trim_join hblank.1 hne
  have hlength : others.length = texts.length := by simpa using congrArg List.length hmap
  have hothers := forall₂_of_trim htexts hmap htrim
  have hsplit : (splitOutside separator .outside ([separator].intercalate others)).toList =
      others := by
    refine splitOutside_join hmember ?_ fun other hmem => ?_
    · rintro rfl
      simp at hlength
      omega
    · obtain ⟨_, _, hphrase⟩ := exists_of_forall₂ hothers hmem
      exact hskips _ _ hphrase
  rw [hjoin]
  refine ⟨by rw [hsplit, hlength], by rwa [hsplit], ?_⟩
  exact ne_of_many_pieces hblank.2 (by rw [hsplit]; omega)

/-- Two or more entries with commas between them are read as their union. -/
theorem readBracket_entries {texts : List (List Char)} {selectors : List Selector}
    (hmany : 2 ≤ texts.length) (hentries : List.Forall₂ Entry texts selectors) :
    readBracket ([','].intercalate texts) = .ok (.union selectors) := by
  obtain ⟨hlength, hpieces, hempty, hstar⟩ := pieces_of_phrases (show ',' ∈ marks by decide)
    hmany hentries (fun _ _ => Entry.skips) fun _ _ _ => Entry.of_trim
  have hread := mapM_eq_some_iff_forall₂.mpr
    (hpieces.imp fun _ _ => readSelector?_eq_some_iff.mpr)
  unfold readBracket
  dsimp only
  rw [if_neg (by simpa using hempty), if_neg hstar, if_pos (by omega), hread]

/-- Two or three parts with colons between them are read as their slice. -/
theorem readBracket_parts {text : List Char} {start stop step : Option Int64}
    (htext : Slice text start stop step) : readBracket text = .ok (sliceOf start stop step) := by
  have hplain : ∀ c ∈ trim text, isQuoteMark c = false ∧ c ∉ ['[', ']', ','] :=
    fun c hc => htext.unmarked c (mem_of_mem_trim hc)
  have hquoted : startsQuoted (trim text) = false := by
    cases htrim : trim text with
    | nil => rfl
    | cons c rest => exact (hplain c (by simp [htrim])).1
  have hcommas : splitOutside ',' .outside (trim text) = (trim text, []) :=
    splitOutside_of_skips (Skips.of_plain hplain) (by decide)
  obtain ⟨parts, bounds, rfl, hmany, hfew, hparts, rfl, rfl, rfl⟩ := htext.exists_parts
  obtain ⟨hlength, hpieces, hempty, hstar⟩ := pieces_of_phrases (show ':' ∈ marks by decide)
    hmany hparts (fun _ _ hpart => .of_plain hpart.unmarked) fun _ _ _ => Part.of_trim
  have hread := mapM_eq_some_iff_forall₂.mpr (hpieces.imp fun _ _ => readBound?_eq_some_iff.mpr)
  unfold readBracket
  dsimp only
  rw [if_neg (by simpa using hempty), if_neg hstar, hcommas, if_neg (by simp [Pieces.toList]),
    hquoted, if_neg Bool.false_ne_true, if_pos (by omega), readSlice, if_neg (by omega), hread]

/-- A position of the signed range is read as the position. -/
theorem readBracket_position {text : List Char} {position : Nat} (htext : Signed text position)
    (hfits : position ≤ 2 ^ 63 - 1) : readBracket text = .ok (.index position) := by
  obtain ⟨word, hword⟩ : ∃ word : Int64, word.toInt = position :=
    ⟨Int64.ofInt position, Int64.toInt_ofInt_of_le (by omega) (by omega)⟩
  have hnonneg : ¬ word < 0 := by
    rw [Int64.lt_iff_toInt_lt, hword]
    simp
  have hstar : text ≠ ['*'] := by
    rintro rfl
    exact (htext.unmarked '*' (by simp)).2.2 rfl
  have hread : readInt64? text = some word := readInt64?_eq_some_iff.mpr (hword ▸ htext)
  unfold readBracket
  rw [htext.solid.trim]
  dsimp only
  rw [if_neg (by simpa using htext.solid.ne_nil), if_neg hstar, if_neg (not_union htext.skips),
    htext.not_quoted, splitOutside_of_skips htext.skips (by decide), readIndex, hread]
  simp [Pieces.toList, hnonneg, hword]

/-- What derives from the grammar is read as the segment that it denotes. -/
theorem Inner.read {text : List Char} {segment : Segment} (htext : Inner text segment) :
    readBracket text = .ok segment := by
  cases htext with
  | star => rfl
  | key htext => exact readBracket_quoted htext
  | union hmany hentries => exact readBracket_entries hmany hentries
  | everything htext => exact readBracket_parts htext
  | slice htext hsome =>
    rw [readBracket_parts htext, sliceOf, if_neg]
    rename_i start stop step
    cases start <;> cases stop <;> cases step <;> simp at hsome ⊢
  | index htext hfits => exact readBracket_position htext hfits

/-- What stands between two brackets is read exactly when it derives from the grammar,
and as the segment that it denotes. -/
theorem readBracket_eq_ok_iff {content : List Char} {segment : Segment} :
    readBracket content = .ok segment ↔ Bracket ('[' :: content ++ [']']) segment := by
  constructor
  · intro hread
    obtain ⟨before, after, hbefore, hafter, hcontent⟩ := exists_trim content
    rw [hcontent]
    exact .intro hbefore (inner_of_readBracket hread) hafter
  · intro htext
    generalize hshape : '[' :: content ++ [']'] = whole at htext
    obtain ⟨hbefore, htext, hafter⟩ := htext
    obtain rfl := List.append_cancel_right (List.cons.inj hshape).2
    rw [readBracket_congr (trim_blank hbefore hafter), htext.read]

/-- A selector in brackets is a text without brackets outside quotes between two. -/
theorem Bracket.exists_content {text : List Char} {segment : Segment}
    (htext : Bracket text segment) : ∃ content, text = '[' :: content ++ [']'] ∧
      Skips ['[', ']'] .outside content .outside ∧ readBracket content = .ok segment := by
  have hwhole := htext
  obtain ⟨hbefore, htext, hafter⟩ := htext
  have hmarks : ['[', ']'] ⊆ marks := by simp [marks]
  refine ⟨_, rfl, ?_, readBracket_eq_ok_iff.mpr hwhole⟩
  exact (((skips_of_blank hbefore).mono hmarks).append htext.skips).append
    ((skips_of_blank hafter).mono hmarks)

end NestedData.Grammar
