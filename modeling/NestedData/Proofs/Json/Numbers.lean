import NestedData.Proofs.Decimal.ReadBack
import NestedData.Proofs.Json.Cutting

/-!
# Numbers in documents

A document tells whole numbers from others by their spelling: a floating number is written with a
point or with a power of ten.  This module shows that both are read back as they were written, a
whole number as that number and a floating number as the number with the same bits.

Main results:

- `Json.numberValue?_showInt`: a written whole number is read as that number.
- `Json.resume?_spell`: a numeral is cut out of a document as one number.
- `Json.exists_spells`: a decimal is written as documents require, with a point or a power of ten.
- `Json.exists_numeral`: a number is written with a numeral that is read as that number.
-/

namespace NestedData

namespace Text

/-- A positive number is written without a zero in front. -/
theorem head?_showNat_ne {n : Nat} (hn : n ≠ 0) : (showNat n).head? ≠ some '0' := by
  induction n using Nat.strongRecOn with
  | ind n ih =>
    by_cases hsmall : n < 10
    · rw [showNat, Nat.toDigits_of_lt_base hsmall]
      clear ih
      revert hn
      decide +revert
    · have hfirst := ih (n / 10) (by omega) (by omega)
      obtain ⟨c, rest, hshow⟩ := List.exists_cons_of_ne_nil (showNat_ne_nil (n / 10))
      rw [showNat] at hshow hfirst ⊢
      rw [Nat.toDigits_of_base_le (by decide) (by omega), hshow]
      rwa [hshow] at hfirst

/-- What holds a character that is neither a digit nor a sign is no integer. -/
theorem readInt?_eq_none {text : List Char} {c : Char} (hmem : c ∈ text)
    (hdigit : c.isDigit = false) (hminus : c ≠ '-') (hplus : c ≠ '+') : readInt? text = none := by
  have hdigits {rest : List Char} (hrest : c ∈ rest) : readDigits? rest = none := by
    refine if_neg fun hall => ?_
    rw [List.all_eq_true.mp hall.2 c hrest] at hdigit
    cases hdigit
  rw [readInt?.eq_def]
  split
  · rw [hdigits (List.mem_of_ne_of_mem hminus hmem)]
    rfl
  · rw [hdigits (List.mem_of_ne_of_mem hplus hmem)]
    rfl
  · rw [hdigits hmem]
    rfl

end Text

namespace Json

open Numeral

variable {numeral : Numeral}

/-! ## Numerals -/

theorem scan?_of_isStrict (hstrict : isStrict numeral = true)
    (hdigits : ∀ c ∈ numeral.digits, c.isDigit = true) : scan? numeral.spell = some numeral := by
  simp only [isStrict, Bool.and_eq_true, bne_iff_ne] at hstrict
  exact scan?_spell hstrict.1.1.1 hstrict.1.1.2 hdigits

/-- An integer is a numeral without a point and without a power of ten. -/
def integerNumeral (n : Int) : Numeral where
  sign := if n < 0 then some true else none
  whole := Text.showNat n.natAbs
  fraction := none
  exponent := none

theorem spell_integerNumeral (n : Int) : (integerNumeral n).spell = Text.showInt n := by
  simp only [integerNumeral, spell, isNegative, Text.showInt]
  split <;> simp

theorem isStrict_integerNumeral (n : Int) : isStrict (integerNumeral n) = true := by
  have hsign : (if n < 0 then some true else none) ≠ some false := by
    split <;> simp
  have hzero : Text.showNat n.natAbs = ['0'] ∨ (Text.showNat n.natAbs).head? ≠ some '0' := by
    by_cases hn : n.natAbs = 0
    · exact .inl (by rw [hn]; rfl)
    · exact .inr (Text.head?_showNat_ne hn)
  simpa [isStrict, integerNumeral, hsign, Text.showNat_ne_nil] using hzero

theorem isDigit_of_mem_integerNumeral (n : Int) :
    ∀ c ∈ (integerNumeral n).digits, c.isDigit = true := by
  intro c hmem
  rw [digits, integerNumeral, Option.getD_none, List.append_nil] at hmem
  exact Text.isDigit_of_mem_showNat hmem

/-- A written whole number is read as that number. -/
theorem numberValue?_showInt {value : Int} (range : InRange value) :
    numberValue? (Text.showInt value) = some (.whole value range) := by
  have hscan := scan?_of_isStrict (isStrict_integerNumeral value)
    (isDigit_of_mem_integerNumeral value)
  rw [spell_integerNumeral] at hscan
  have hsigned : ((integerNumeral value).isNegative && value == 0) = false := by
    by_cases hzero : value = 0
    · subst hzero
      decide
    · simp [hzero]
  have hwhole : wholeValue? (integerNumeral value) (Text.showInt value) =
      some (.whole value range) := by
    simp [wholeValue?, Text.readInt?_showInt, range, hsigned]
  simp [numberValue?, hscan, isStrict_integerNumeral, hwhole]

/-- A numeral with a point or a power of ten is read as the number that it denotes. -/
theorem numberValue?_spell (hstrict : isStrict numeral = true)
    (hdigits : ∀ c ∈ numeral.digits, c.isDigit = true)
    (hmarked : numeral.fraction ≠ none ∨ numeral.exponent ≠ none)
    (hfinite : (Binary64.ofNumeral numeral).isFinite = true) :
    numberValue? numeral.spell = some (.float (Binary64.ofNumeral numeral) hfinite) := by
  have hinteger : Text.readInt? numeral.spell = none := by
    rcases hmarked with hfraction | hexponent
    · obtain ⟨fraction, hfraction⟩ := Option.ne_none_iff_exists'.mp hfraction
      have hmem : '.' ∈ numeral.spell := by
        simp [spell, hfraction]
      exact Text.readInt?_eq_none hmem (by decide) (by decide) (by decide)
    · obtain ⟨power, hexponent⟩ := Option.ne_none_iff_exists'.mp hexponent
      have hmem : 'e' ∈ numeral.spell := by
        simp [spell, spellPower, hexponent]
      exact Text.readInt?_eq_none hmem (by decide) (by decide) (by decide)
  have hwhole : wholeValue? numeral numeral.spell = none := by
    rw [wholeValue?, hinteger]
  simp [numberValue?, scan?_of_isStrict hstrict hdigits, hstrict, hwhole, Number.ofBinary64?,
    hfinite]

/-- The characters of a numeral occur in numbers. -/
theorem isNumberPart_of_mem_spell (hdigits : ∀ c ∈ numeral.digits, c.isDigit = true) :
    ∀ c ∈ numeral.spell, isNumberPart c = true := by
  rcases numeral with ⟨sign, whole, fraction, exponent⟩
  have hdigit {c : Char} (hc : c.isDigit = true) : isNumberPart c = true := by
    simp [isNumberPart, hc]
  have hplaces : ∀ c ∈ fraction.elim [] ('.' :: ·), isNumberPart c = true := by
    cases fraction with
    | none => simp
    | some places =>
      refine List.forall_mem_cons.mpr ⟨rfl, fun c hmem => hdigit ?_⟩
      exact hdigits c (List.mem_append_right _ hmem)
  have hpower : ∀ c ∈ exponent.elim [] spellPower, isNumberPart c = true := by
    cases exponent with
    | none => simp
    | some power =>
      refine List.forall_mem_cons.mpr ⟨rfl, List.forall_mem_cons.mpr ⟨?_, fun c hmem => hdigit ?_⟩⟩
      · split <;> rfl
      · exact Text.isDigit_of_mem_showNat hmem
  simp only [spell, List.forall_mem_append]
  refine ⟨?_, fun c hmem => hdigit (hdigits c (List.mem_append_left _ hmem)), hplaces, hpower⟩
  split <;> simp [isNumberPart]

/-- A numeral is cut out as one number, if something else follows. -/
theorem resume?_spell {state : State} {rest : List Char} (hstrict : isStrict numeral = true)
    (hdigits : ∀ c ∈ numeral.digits, c.isDigit = true)
    (hrest : ∀ c ∈ rest.head?, isNumberPart c = false) :
    resume? .between state (numeral.spell ++ rest) =
      (state.step? (.number numeral.spell)).bind fun state => resume? .between state rest := by
  have hparts := isNumberPart_of_mem_spell hdigits
  obtain ⟨c, more, hspell, hc⟩ : ∃ c more, numeral.spell = c :: more ∧
      (c.isDigit = true ∨ c = '-') := by
    rcases numeral with ⟨sign, whole, fraction, exponent⟩
    simp only [isStrict, Bool.and_eq_true, bne_iff_ne] at hstrict
    obtain ⟨first, others, rfl⟩ := List.exists_cons_of_ne_nil hstrict.1.1.2
    have hfirst : first.isDigit = true := hdigits first (by simp [digits])
    simp only [spell]
    split
    · exact ⟨'-', _, rfl, .inr rfl⟩
    · exact ⟨first, _, rfl, .inl hfirst⟩
  rw [hspell] at hparts ⊢
  exact resume?_number hc (List.forall_mem_cons.mp hparts).2 hrest

/-! ## Decimals in documents -/

/-- A numeral spells a decimal, as documents require. -/
structure Spells (numeral : Numeral) (negative : Bool) (decimal : Decimal) : Prop where
  /-- The decimal is written as the numeral is spelled. -/
  text : layout.write negative decimal = numeral.spell
  /-- Documents admit the numeral. -/
  strict : isStrict numeral = true
  /-- Its digits are digits. -/
  digits : ∀ c ∈ numeral.digits, c.isDigit = true
  /-- It has a point or a power of ten. -/
  marked : numeral.fraction ≠ none ∨ numeral.exponent ≠ none
  /-- It denotes the number that the decimal is nearest to. -/
  number : Binary64.ofNumeral numeral = decimal.nearest.signed negative

/-- A zero is written with a point. -/
theorem exists_spells_zero (negative : Bool) :
    ∃ numeral, Spells numeral negative { digits := 0, exponent := 0 } := by
  let numeral : Numeral :=
    { sign := if negative then some true else none
      whole := ['0']
      fraction := some ['0']
      exponent := none }
  refine ⟨numeral, ?_, ?_, ?_, .inl (by simp [numeral]), ?_⟩
  · cases negative <;> decide
  · cases negative <;> decide
  · simp [numeral, Numeral.digits]
  · cases negative <;> rfl

/-- A positive decimal that is written without a power of ten has a point. -/
theorem exists_spells_positional (negative : Bool) {decimal : Decimal}
    (hpositive : decimal.digits ≠ 0)
    (hpositional : layout.isPositional
      (decimal.exponent + (Text.showNat decimal.digits).length - 1) = true) :
    ∃ numeral, Spells numeral negative decimal := by
  obtain ⟨whole, fraction, htext, hwhole, hhead, before, after, hpadded, hexponent⟩ :=
    layout.exists_parts_positional decimal.exponent (Text.showNat_ne_nil decimal.digits)
  -- A whole number ends in a zero behind the point, which stands for nothing.
  obtain ⟨padding, hplaces, hpoint⟩ : ∃ padding, fraction ++ List.replicate padding '0' ≠ [] ∧
      layout.fractionPart fraction = '.' :: (fraction ++ List.replicate padding '0') := by
    cases fraction with
    | nil => exact ⟨1, by simp, rfl⟩
    | cons first rest => exact ⟨0, by simp, by simp [Layout.fractionPart]⟩
  have hall : whole ++ (fraction ++ List.replicate padding '0') =
      List.replicate before '0' ++ Text.showNat decimal.digits ++
        List.replicate (after + padding) '0' := by
    rw [← List.append_assoc, hpadded, List.append_assoc, List.replicate_append_replicate]
  have hscale : ((0 : Int) - (fraction ++ List.replicate padding '0').length) +
      (after + padding : Nat) = decimal.exponent := by
    rw [List.length_append, List.length_replicate]
    omega
  have hfirst : whole = ['0'] ∨ whole.head? ≠ some '0' := by
    refine hhead.imp_right fun hsame => ?_
    rw [hsame]
    exact Text.head?_showNat_ne hpositive
  let numeral : Numeral :=
    { sign := if negative then some true else none
      whole
      fraction := some (fraction ++ List.replicate padding '0')
      exponent := none }
  refine ⟨numeral, ?_, ?_, Binary64.isDigit_of_mem_padded hall, .inl (by simp [numeral]), ?_⟩
  · rw [Layout.write]
    simp only [hpositional, if_true, htext, hpoint, numeral, Numeral.spell, Numeral.isNegative]
    cases negative <;> simp
  · cases negative <;> simpa [numeral, isStrict, hwhole, hplaces] using hfirst
  · have hnumber := Binary64.ofDecimal_padded negative decimal hall hscale
    cases negative <;> exact hnumber

/-- A decimal that is written with a power of ten has it as such. -/
theorem exists_spells_scientific (negative : Bool) {decimal : Decimal}
    (hscientific : layout.isPositional
      (decimal.exponent + (Text.showNat decimal.digits).length - 1) = false) :
    ∃ numeral, Spells numeral negative decimal := by
  obtain ⟨first, rest, hshow⟩ :=
    List.exists_cons_of_ne_nil (Text.showNat_ne_nil decimal.digits)
  let leading : Int := decimal.exponent + (first :: rest).length - 1
  let numeral : Numeral :=
    { sign := if negative then some true else none
      whole := [first]
      fraction := if rest = [] then none else some rest
      exponent := some leading }
  have hdigits : numeral.digits = Text.showNat decimal.digits := by
    rw [hshow]
    cases rest <;> simp [numeral, Numeral.digits]
  have hpadded : numeral.digits =
      List.replicate 0 '0' ++ Text.showNat decimal.digits ++ List.replicate 0 '0' := by
    simp [hdigits]
  have hscale : numeral.scale + (0 : Nat) = decimal.exponent := by
    cases rest with
    | nil => simp [numeral, Numeral.scale, leading]
    | cons second rest =>
      simp [numeral, Numeral.scale, leading]
      omega
  have hfirst : [first] = ['0'] ∨ [first].head? ≠ some '0' := by
    by_cases hzero : first = '0' <;> simp [hzero]
  refine ⟨numeral, ?_, ?_, Binary64.isDigit_of_mem_padded hpadded, .inr (by simp [numeral]), ?_⟩
  · rw [Layout.write, hshow]
    rw [hshow] at hscientific
    simp only [hscientific, Bool.false_eq_true, if_false, numeral, Numeral.spell,
      Numeral.isNegative, leading]
    cases negative <;> cases rest <;> simp [Layout.scientific, Numeral.spellPower]
  · cases negative <;> cases rest <;> simpa [numeral, isStrict] using hfirst
  · have hnumber := Binary64.ofDecimal_padded negative decimal hpadded hscale
    cases negative <;> exact hnumber

/-- A decimal is written as documents require, with a point or a power of ten. -/
theorem exists_spells (negative : Bool) {decimal : Decimal}
    (hzero : decimal.digits = 0 → decimal.exponent = 0) :
    ∃ numeral, Spells numeral negative decimal := by
  by_cases hdigits : decimal.digits = 0
  · obtain ⟨digits, exponent⟩ := decimal
    obtain rfl : digits = 0 := hdigits
    obtain rfl : exponent = 0 := hzero rfl
    exact exists_spells_zero negative
  · cases hpositional : layout.isPositional
        (decimal.exponent + (Text.showNat decimal.digits).length - 1) with
    | true => exact exists_spells_positional negative hdigits hpositional
    | false => exact exists_spells_scientific negative hpositional

/-- The shortest decimal of zero has no power of ten. -/
theorem exponent_ofFinite (tie : Tie) {mantissa : Nat} {exponent : Int}
    (hcanonical : Binary64.Canonical mantissa exponent)
    (hzero : (Decimal.ofFinite tie mantissa exponent hcanonical).digits = 0) :
    (Decimal.ofFinite tie mantissa exponent hcanonical).exponent = 0 := by
  have hstrip (decimal : Decimal) (hdigits : decimal.strip.digits = 0) :
      decimal.strip.exponent = 0 := by
    induction decimal using Decimal.strip.induct with
    | case1 decimal hends ih =>
      rw [Decimal.strip, dif_pos hends] at hdigits ⊢
      exact ih hdigits
    | case2 decimal hends hnone => rw [Decimal.strip, dif_neg hends, if_pos hnone]
    | case3 decimal hends hsome =>
      rw [Decimal.strip, dif_neg hends, if_neg hsome] at hdigits
      exact absurd hdigits hsome
  by_cases hmantissa : mantissa = 0
  · rw [Decimal.ofFinite, if_pos hmantissa]
  · rw [Decimal.ofFinite, if_neg hmantissa] at hzero ⊢
    exact hstrip _ hzero

/-- A number is written with a numeral that is read as the number. -/
theorem exists_numeral (number : Number) :
    ∃ numeral : Numeral, writeNumber number = numeral.spell ∧ isStrict numeral = true ∧
      (∀ c ∈ numeral.digits, c.isDigit = true) ∧ numberValue? numeral.spell = some number := by
  cases number with
  | whole value range =>
    refine ⟨integerNumeral value, (spell_integerNumeral value).symm, isStrict_integerNumeral value,
      isDigit_of_mem_integerNumeral value, ?_⟩
    rw [spell_integerNumeral, numberValue?_showInt range]
  | float value hfinite =>
    cases value with
    | nan => cases hfinite
    | infinite negative => cases hfinite
    | finite negative mantissa exponent canonical =>
      obtain ⟨numeral, hspells⟩ := exists_spells negative (exponent_ofFinite layout.tie canonical)
      have hnumber : Binary64.ofNumeral numeral = .finite negative mantissa exponent canonical := by
        rw [hspells.number, Decimal.nearest_ofFinite]
        rfl
      refine ⟨numeral, hspells.text, hspells.strict, hspells.digits, ?_⟩
      rw [numberValue?_spell hspells.strict hspells.digits hspells.marked (hnumber ▸ hfinite)]
      simp only [hnumber]

end Json

end NestedData
