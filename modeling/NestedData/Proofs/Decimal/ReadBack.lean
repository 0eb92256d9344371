import NestedData.Proofs.Binary64.Ratios
import NestedData.Proofs.Text.Numbers

/-!
# Decimals read as the numbers they were written for

The text of a double precision number is found by a search among short decimals, with the reader's
rounding as the test.  Between the decimal that is found and the text there are two changes: zeros at
the end of the digits are dropped, and zeros are written around the digits to make up for the power of
ten.  Neither changes the number that the decimal is nearest to, because rounding depends on the ratio
only.

Main results:

- `Binary64.ofDecimal_mul_pow`: zeros at the end of the digits stand for a power of ten.
- `Decimal.nearest_ofFinite`: the shortest decimal of a number is nearest to that number.
- `Binary64.read?_display`: the text of a double precision number reads as that number.
-/

namespace NestedData

/-! ## Zeros at the end of the digits -/

namespace Binary64

theorem decimalLength_le_iff {n length : Nat} (hlength : 0 < length) :
    decimalLength n ≤ length ↔ n < 10 ^ length :=
  Nat.length_toDigits_le_iff (by decide) hlength

theorem ofDecimal_of_bounds {digits : Nat} {scale : Int} (negative : Bool) (hdigits : digits ≠ 0)
    (hlow : -330 ≤ decimalLength digits + scale) (hhigh : decimalLength digits + scale ≤ 310) :
    ofDecimal negative digits scale =
      ofRatio negative (digits * 10 ^ scale.toNat) (10 ^ (-scale).toNat) := by
  rw [ofDecimal, if_neg hdigits, if_neg (by omega), if_neg (by omega)]
  rfl

/-- A positive number has one digit more after a zero has been appended. -/
theorem decimalLength_mul_ten {n : Nat} (hn : n ≠ 0) :
    decimalLength (n * 10) = decimalLength n + 1 := by
  have happend := Nat.toDigits_append_toDigits (b := 10) (by decide) (Nat.pos_of_ne_zero hn)
    (show 0 < 10 by decide)
  rw [Nat.add_zero, Nat.mul_comm] at happend
  rw [decimalLength, ← happend]
  simp [decimalLength]

/-- Zeros at the end of the digits stand for a power of ten. -/
theorem ofDecimal_mul_pow (negative : Bool) (digits places : Nat) (scale : Int) :
    ofDecimal negative (digits * 10 ^ places) scale = ofDecimal negative digits (scale + places) := by
  by_cases hzero : digits = 0
  · simp [hzero]
  · have hlength : decimalLength (digits * 10 ^ places) = decimalLength digits + places := by
      induction places with
      | zero => simp
      | succ places ih =>
        rw [pow_succ, ← mul_assoc, decimalLength_mul_ten (by positivity), ih, add_assoc]
    have hmagnitude : ((decimalLength digits + places : Nat) : Int) + scale =
        decimalLength digits + (scale + places) := by
      omega
    have hratio : ofRatio negative (digits * 10 ^ places * Nat.pow 10 scale.toNat)
          (Nat.pow 10 (-scale).toNat) =
        ofRatio negative (digits * Nat.pow 10 (scale + places).toNat)
          (Nat.pow 10 (-(scale + places)).toNat) := by
      simp only [Nat.pow_eq]
      apply ofRatio_congr negative (by positivity) (by positivity)
      have hexponent : places + scale.toNat + (-(scale + places)).toNat =
          (scale + places).toNat + (-scale).toNat := by
        omega
      rw [mul_assoc, mul_assoc, mul_assoc, ← pow_add, ← pow_add, ← pow_add, ← hexponent, add_assoc]
    simp only [ofDecimal, hzero, hlength, hmagnitude, hratio, if_false, mul_eq_zero, false_or,
      pow_eq_zero_iff', OfNat.ofNat_ne_zero, false_and]

end Binary64

namespace Decimal

/-- Dropping zeros at the end of the digits does not change what the decimal is nearest to. -/
theorem nearest_strip (decimal : Decimal) : decimal.strip.nearest = decimal.nearest := by
  induction decimal using strip.induct with
  | case1 decimal hends ih =>
    rw [strip, dif_pos hends, ih]
    have hdigits : decimal.digits / 10 * 10 ^ 1 = decimal.digits := by omega
    calc Binary64.ofDecimal false (decimal.digits / 10) (decimal.exponent + 1)
      _ = Binary64.ofDecimal false (decimal.digits / 10 * 10 ^ 1) decimal.exponent :=
        (Binary64.ofDecimal_mul_pow false _ 1 _).symm
      _ = Binary64.ofDecimal false decimal.digits decimal.exponent := by rw [hdigits]
  | case2 decimal hends hzero =>
    rw [strip, dif_neg hends, if_pos hzero, nearest, nearest, hzero]
    simp
  | case3 decimal hends hzero =>
    rw [strip, dif_neg hends, if_neg hzero]

/-! ## The shortest decimal -/

theorem decimalLength_mul_two_le {mantissa places : Nat}
    (hmantissa : mantissa < 2 * Binary64.fractionRange) (hplaces : places ≤ 971) :
    Binary64.decimalLength (mantissa * 2 ^ places) ≤ 310 := by
  rw [Binary64.decimalLength_le_iff (by decide)]
  calc mantissa * 2 ^ places ≤ 2 * Binary64.fractionRange * 2 ^ 971 := by
        gcongr
        decide
    _ < 10 ^ 310 := by decide +kernel

/-- A number with a fraction has at most 310 digits before the point. -/
theorem decimalLength_mul_five_le {mantissa : Nat} (places : Nat)
    (hmantissa : mantissa < 2 * Binary64.fractionRange) :
    Binary64.decimalLength (mantissa * 5 ^ places) ≤ places + 310 := by
  rw [Binary64.decimalLength_le_iff (by omega)]
  calc mantissa * 5 ^ places < 2 * Binary64.fractionRange * 5 ^ places := by gcongr
    _ ≤ 10 ^ 310 * 10 ^ places := by
        gcongr
        · decide +kernel
        · decide
    _ = 10 ^ (places + 310) := by rw [pow_add, mul_comm]

/-- The first digit of a number with a fraction comes at the 330th place or before. -/
theorem le_decimalLength_mul_five {mantissa places : Nat} (hpositive : mantissa ≠ 0)
    (hplaces : places ≤ 1074) :
    places ≤ Binary64.decimalLength (mantissa * 5 ^ places) + 330 := by
  by_contra hless
  have hlength : 0 < Binary64.decimalLength (mantissa * 5 ^ places) := Nat.length_toDigits_pos
  have hsmall : mantissa * 5 ^ places < 10 ^ (places - 331) :=
    (Binary64.decimalLength_le_iff (by omega)).mp (by omega)
  have hten : 2 ^ places * 5 ^ places = 10 ^ places := (mul_pow 2 5 places).symm
  -- Otherwise the places of the binary fraction would not be enough for those of the decimal.
  have hpowers : 2 ^ places * 5 ^ places < 2 ^ places * 5 ^ places := by
    calc 2 ^ places * 5 ^ places ≤ 2 ^ 1074 * 5 ^ places := by
          gcongr
          decide
      _ ≤ 10 ^ 331 * 5 ^ places := by
          gcongr ?_ * _
          decide +kernel
      _ ≤ 10 ^ 331 * (mantissa * 5 ^ places) := by
          gcongr
          exact Nat.le_mul_of_pos_left _ (by omega)
      _ < 10 ^ 331 * 10 ^ (places - 331) := by gcongr
      _ = 2 ^ places * 5 ^ places := by
          rw [hten, ← pow_add, Nat.add_sub_of_le (by omega)]
  exact lt_irrefl _ hpowers

/-- The expansion of a positive number is nearest to that number. -/
theorem nearest_expansion {mantissa : Nat} {exponent : Int}
    (hcanonical : Binary64.Canonical mantissa exponent) (hpositive : mantissa ≠ 0) :
    (expansion mantissa exponent).nearest = .finite false mantissa exponent hcanonical := by
  obtain ⟨hmantissa, hleast, hgreatest, _⟩ := hcanonical.parts
  rcases Int.eq_nat_or_neg exponent with ⟨places, rfl | rfl⟩
  · have hwhole : (-(places : Int)).toNat = 0 := by omega
    have hexpansion : expansion mantissa places =
        { digits := mantissa * 2 ^ places, exponent := 0 } := by
      simp [expansion, hwhole, Nat.shiftLeft_eq]
    have hlength := @decimalLength_mul_two_le mantissa places hmantissa (by omega)
    rw [hexpansion, nearest]
    simp only
    rw [Binary64.ofDecimal_of_bounds false (by positivity) (by omega) (by omega)]
    exact Binary64.ofRatio_of_eq false hcanonical (by decide) (by simp)
  · have hfraction : (-(places : Int)).toNat = 0 := by omega
    have hexpansion : expansion mantissa (-(places : Int)) =
        { digits := mantissa * 5 ^ places, exponent := -(places : Int) } := by
      simp [expansion, hfraction]
    have hhigh := decimalLength_mul_five_le places hmantissa
    have hlow := @le_decimalLength_mul_five mantissa places hpositive (by omega)
    rw [hexpansion, nearest]
    simp only
    rw [Binary64.ofDecimal_of_bounds false (by positivity) (by omega) (by omega)]
    apply Binary64.ofRatio_of_eq false hcanonical (by positivity)
    rw [hfraction, neg_neg, Int.toNat_natCast, zpow_neg, zpow_natCast]
    push_cast
    rw [show (10 : ℚ) = 2 * 5 by norm_num, mul_pow]
    field_simp

/-- The shortest decimal of a number is nearest to that number. -/
theorem nearest_ofFinite (tie : Tie) {mantissa : Nat} {exponent : Int}
    (hcanonical : Binary64.Canonical mantissa exponent) :
    (ofFinite tie mantissa exponent hcanonical).nearest =
      .finite false mantissa exponent hcanonical := by
  unfold ofFinite
  split
  · rename_i hzero
    obtain rfl := hzero
    obtain ⟨_, _, _, hleast⟩ := hcanonical.parts
    obtain rfl := hleast (by decide)
    exact Binary64.ofDecimal_zero false 0
  · rename_i hpositive
    simp only [nearest_strip]
    cases hfound : shortest? tie (.finite false mantissa exponent hcanonical)
      (mantissa <<< exponent.toNat) (1 <<< (-exponent).toNat) with
    | some decimal => exact shortest?_reads_back hfound
    | none => exact nearest_expansion hcanonical hpositive

end Decimal

/-! ## Signs -/

namespace Binary64

/-- The number with a sign of its own. -/
def signed (negative : Bool) : Binary64 → Binary64
  | .nan => .nan
  | .infinite _ => .infinite negative
  | .finite _ mantissa exponent canonical => .finite negative mantissa exponent canonical

theorem ofStored_eq_signed (negative : Bool) (mantissa : Nat) (exponent : Int) :
    ofStored negative mantissa exponent = (ofStored false mantissa exponent).signed negative := by
  unfold ofStored
  split <;> rfl

theorem ofRatio_eq_signed (negative : Bool) (num den : Nat) :
    ofRatio negative num den = (ofRatio false num den).signed negative := by
  unfold ofRatio ofCarry
  simp only [apply_ite (signed negative), ← ofStored_eq_signed]
  rfl

theorem ofDecimal_eq_signed (negative : Bool) (digits : Nat) (scale : Int) :
    ofDecimal negative digits scale = (ofDecimal false digits scale).signed negative := by
  unfold ofDecimal
  simp only [apply_ite (signed negative), ← ofRatio_eq_signed]
  rfl

/-! ## Texts -/

/-- The digits of a decimal with zeros around them are digits. -/
theorem isDigit_of_mem_padded {digits : Nat} {padded : List Char} {before after : Nat}
    (hpadded : padded =
      List.replicate before '0' ++ Text.showNat digits ++ List.replicate after '0') :
    ∀ c ∈ padded, c.isDigit = true := by
  have hzero (count : Nat) : ∀ c ∈ List.replicate count '0', c.isDigit = true := by
    intro c hmem
    rw [List.eq_of_mem_replicate hmem]
    decide
  rw [hpadded]
  simp only [List.forall_mem_append]
  exact ⟨⟨hzero before, fun _ => Text.isDigit_of_mem_showNat⟩, hzero after⟩

/-- The digits of a decimal with zeros around them denote the decimal, if those behind them make up
for the power of ten. -/
theorem ofDecimal_padded (negative : Bool) (decimal : Decimal) {padded : List Char}
    {before after : Nat} {scale : Int}
    (hpadded : padded =
      List.replicate before '0' ++ Text.showNat decimal.digits ++ List.replicate after '0')
    (hscale : scale + after = decimal.exponent) :
    ofDecimal negative (Nat.ofDigitChars 10 padded 0) scale = decimal.nearest.signed negative := by
  have hvalue : Nat.ofDigitChars 10 padded 0 = decimal.digits * 10 ^ after := by
    rw [hpadded, Nat.ofDigitChars_append, Nat.ofDigitChars_append, Nat.ofDigitChars_replicate_zero,
      Nat.ofDigitChars_replicate_zero, Nat.mul_zero, Text.showNat, Nat.ofDigitChars_ten_toDigits,
      Nat.mul_comm]
  rw [hvalue, ofDecimal_mul_pow, hscale, ofDecimal_eq_signed, Decimal.nearest]

/-- A decimal written without an exponent reads as the number nearest to it. -/
theorem read?_write (negative : Bool) (decimal : Decimal) :
    read? (Layout.plain.write negative decimal) = some (decimal.nearest.signed negative) := by
  obtain ⟨whole, fraction, htext, hwhole, _, before, after, hdigits, hexponent⟩ :=
    Layout.plain.exists_parts_positional decimal.exponent (Text.showNat_ne_nil decimal.digits)
  have hwrite : Layout.plain.write negative decimal =
      (if negative then ['-'] else []) ++ (whole ++ Layout.plain.fractionPart fraction) := by
    rw [Layout.write, ← htext]
    cases negative <;> simp [Layout.plain]
  rw [hwrite, read?_positional negative hwhole (isDigit_of_mem_padded hdigits),
    ofDecimal_padded negative decimal hdigits (by omega)]

/-- The text of a double precision number reads as that number. -/
theorem read?_display (number : Binary64) : read? number.display = some number := by
  cases number with
  | nan => decide
  | infinite negative => cases negative <;> decide
  | finite negative mantissa exponent canonical =>
    rw [display, Layout.writeFinite, read?_write, Decimal.nearest_ofFinite]
    rfl

end Binary64

end NestedData
