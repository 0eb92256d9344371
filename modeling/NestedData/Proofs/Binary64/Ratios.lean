import Mathlib.Algebra.Order.Field.Power
import Mathlib.Data.Int.Log
import Mathlib.Data.Rat.Floor
import Mathlib.Tactic.FieldSimp
import NestedData.Binary64.Rounding

/-!
# Rounding depends on the ratio only

Rounding a quotient of natural numbers compares and divides them after shifts.  This module reads
the shifts as powers of two with an integer exponent and the quotient as a rational number: what
is rounded to depends on the rational number alone, and a number that has a stored form is not
changed.

Main results:

- `Binary64.binade_eq_log`: the binade of a quotient is its binary logarithm, rounded down.
- `Binary64.ofRatio_congr`: equal ratios are rounded alike.
- `Binary64.ofRatio_of_eq`: a ratio that has a stored form becomes that number.
-/

namespace NestedData.Binary64

/-! ## Shifts as powers of two -/

/-- Shifting both sides so that no bit is lost compares with a power of two. -/
theorem shift_le_shift_iff (num den : Nat) (exponent : Int) :
    den <<< exponent.toNat ≤ num <<< (-exponent).toNat ↔
      (2 : ℚ) ^ exponent * den ≤ num := by
  rw [Nat.shiftLeft_eq, Nat.shiftLeft_eq]
  rcases Int.le_total 0 exponent with hpos | hneg
  · obtain ⟨places, rfl⟩ := Int.eq_ofNat_of_zero_le hpos
    have hleft : (-(places : Int)).toNat = 0 := by omega
    rw [hleft, Int.toNat_natCast, pow_zero, mul_one, zpow_natCast, mul_comm ((2 : ℚ) ^ places)]
    exact_mod_cast Iff.rfl
  · obtain ⟨places, rfl⟩ : ∃ places : Nat, exponent = -(places : Int) := ⟨_, (by omega :
      exponent = -((-exponent).toNat : Int))⟩
    have hright : (-(places : Int)).toNat = 0 := by omega
    rw [hright, neg_neg, Int.toNat_natCast, pow_zero, mul_one, zpow_neg, zpow_natCast,
      inv_mul_le_iff₀ (by positivity), mul_comm ((2 : ℚ) ^ places)]
    exact_mod_cast Iff.rfl

/-- A quotient that is a multiple of a power of two is that multiple after the shifts. -/
theorem shift_eq_mul_shift {mantissa num den : Nat} {exponent : Int}
    (hratio : (num : ℚ) = mantissa * 2 ^ exponent * den) :
    num <<< (-exponent).toNat = mantissa * (den <<< exponent.toNat) := by
  rw [Nat.shiftLeft_eq, Nat.shiftLeft_eq]
  rcases Int.le_total 0 exponent with hpos | hneg
  · obtain ⟨places, rfl⟩ := Int.eq_ofNat_of_zero_le hpos
    have hleft : (-(places : Int)).toNat = 0 := by omega
    rw [zpow_natCast] at hratio
    rw [hleft, Int.toNat_natCast, pow_zero, mul_one]
    have hnat : num = mantissa * 2 ^ places * den := by exact_mod_cast hratio
    rw [hnat]
    ring
  · obtain ⟨places, rfl⟩ : ∃ places : Nat, exponent = -(places : Int) := ⟨_, (by omega :
      exponent = -((-exponent).toNat : Int))⟩
    have hright : (-(places : Int)).toNat = 0 := by omega
    rw [hright, neg_neg, Int.toNat_natCast, pow_zero, mul_one]
    have hscaled : (num : ℚ) * 2 ^ places = mantissa * den := by
      rw [hratio, zpow_neg, zpow_natCast]
      field_simp
    exact_mod_cast hscaled

/-! ## The binade -/

/-- A positive number lies between the powers of two around its binary length. -/
theorem log2_bounds {n : Nat} (hn : n ≠ 0) :
    (2 : ℚ) ^ (n.log2 : Int) ≤ n ∧ (n : ℚ) < 2 ^ (n.log2 + 1 : Int) := by
  constructor
  · rw [zpow_natCast]
    exact_mod_cast Nat.log2_self_le hn
  · rw [← Nat.cast_succ, zpow_natCast]
    exact_mod_cast Nat.lt_log2_self (n := n)

/-- The binade of a quotient is its binary logarithm, rounded down. -/
theorem binade_eq_log {num den : Nat} (hnum : num ≠ 0) (hden : den ≠ 0) :
    binade num den = Int.log 2 ((num : ℚ) / den) := by
  obtain ⟨hnumLow, hnumHigh⟩ := log2_bounds hnum
  obtain ⟨hdenLow, hdenHigh⟩ := log2_bounds hden
  have hpositive : (0 : ℚ) < den := by positivity
  have hratio : (0 : ℚ) < (num : ℚ) / den := by positivity
  obtain ⟨guess, hguess⟩ : ∃ guess : Int, guess = (num.log2 : Int) - den.log2 := ⟨_, rfl⟩
  have hhigh : (num : ℚ) < 2 ^ (guess + 1) * den := by
    have hsplit : (2 : ℚ) ^ (num.log2 + 1 : Int) = 2 ^ (guess + 1) * 2 ^ (den.log2 : Int) := by
      rw [← zpow_add₀ (by norm_num)]
      congr 1
      omega
    calc (num : ℚ) < 2 ^ (guess + 1) * 2 ^ (den.log2 : Int) := hsplit ▸ hnumHigh
      _ ≤ 2 ^ (guess + 1) * den := by gcongr
  have hlow : (2 : ℚ) ^ (guess - 1) * den ≤ num := by
    have hsplit : (2 : ℚ) ^ (num.log2 : Int) = 2 ^ (guess - 1) * 2 ^ (den.log2 + 1 : Int) := by
      rw [← zpow_add₀ (by norm_num)]
      congr 1
      omega
    calc (2 : ℚ) ^ (guess - 1) * den ≤ 2 ^ (guess - 1) * 2 ^ (den.log2 + 1 : Int) := by gcongr
      _ ≤ num := hsplit ▸ hnumLow
  have hlog {exponent : Int} (hfrom : (2 : ℚ) ^ exponent * den ≤ num)
      (hto : (num : ℚ) < 2 ^ (exponent + 1) * den) :
      exponent = Int.log 2 ((num : ℚ) / den) := by
    apply le_antisymm
    · rw [← Int.zpow_le_iff_le_log (by norm_num) hratio, le_div_iff₀ hpositive]
      exact_mod_cast hfrom
    · rw [← Int.lt_add_one_iff, ← Int.lt_zpow_iff_log_lt (by norm_num) hratio,
        div_lt_iff₀ hpositive]
      exact_mod_cast hto
  unfold binade
  simp only [← hguess]
  split
  · rename_i hless
    rw [← not_le, shift_le_shift_iff, not_le] at hless
    exact hlog hlow (by rwa [sub_add_cancel])
  · rename_i hmore
    rw [not_lt, shift_le_shift_iff] at hmore
    exact hlog hmore hhigh

/-! ## Rounding -/

theorem roundDiv_mul_mul (num den : Nat) {factor : Nat} (hfactor : 0 < factor) :
    roundDiv (num * factor) (den * factor) = roundDiv num den := by
  have hless (left right : Nat) : left * factor < right * factor ↔ left < right :=
    Nat.mul_lt_mul_right hfactor
  have hsame (left right : Nat) : left * factor = right * factor ↔ left = right :=
    Nat.mul_left_inj hfactor.ne'
  simp only [roundDiv, Nat.mul_div_mul_right _ _ hfactor, Nat.mul_mod_mul_right, ← mul_assoc,
    hless, hsame]

theorem roundDiv_congr {num den num' den' : Nat} (hden : 0 < den) (hden' : 0 < den')
    (hratio : num * den' = num' * den) : roundDiv num den = roundDiv num' den' :=
  calc roundDiv num den = roundDiv (num * den') (den * den') := (roundDiv_mul_mul _ _ hden').symm
    _ = roundDiv (num' * den) (den' * den) := by rw [hratio, mul_comm den]
    _ = roundDiv num' den' := roundDiv_mul_mul _ _ hden

/-- Equal ratios are rounded alike. -/
theorem ofRatio_congr {num den num' den' : Nat} (negative : Bool) (hden : 0 < den)
    (hden' : 0 < den') (hratio : num * den' = num' * den) :
    ofRatio negative num den = ofRatio negative num' den' := by
  have hzero : num = 0 ↔ num' = 0 := by
    constructor
    · rintro rfl
      exact (Nat.mul_eq_zero.mp (by omega : num' * den = 0)).resolve_right hden.ne'
    · rintro rfl
      exact (Nat.mul_eq_zero.mp (by omega : num * den' = 0)).resolve_right hden'.ne'
  unfold ofRatio
  by_cases hnum : num = 0
  · rw [if_pos hnum, if_pos (hzero.mp hnum)]
  · have hnum' : num' ≠ 0 := fun hsame => hnum (hzero.mpr hsame)
    have hquotient : (num : ℚ) / den = num' / den' := by
      rw [div_eq_div_iff (by positivity) (by positivity)]
      exact_mod_cast hratio
    have hbinade : binade num den = binade num' den' := by
      rw [binade_eq_log hnum hden.ne', binade_eq_log hnum' hden'.ne', hquotient]
    have hround (exponent : Int) : roundAt exponent num den = roundAt exponent num' den' := by
      unfold roundAt
      simp only [Nat.shiftLeft_eq]
      apply roundDiv_congr (by positivity) (by positivity)
      rw [mul_mul_mul_comm, hratio, mul_mul_mul_comm]
    simp only [hnum, hnum', if_false, hbinade, hround]

/-- The exponent of a number that is stored is told by the size of the number. -/
theorem max_log_of_canonical {mantissa : Nat} {exponent : Int}
    (hcanonical : Canonical mantissa exponent) (hmantissa : (0 : ℚ) < mantissa) :
    max (Int.log 2 ((mantissa : ℚ) * 2 ^ exponent) - 52) (-1074) = exponent := by
  obtain ⟨hbound, hleast, _, hsmall⟩ := hcanonical.parts
  have hvalue : (0 : ℚ) < mantissa * 2 ^ exponent := by positivity
  have hpower : (fractionRange : ℚ) = 2 ^ (52 : Int) := by norm_num [fractionRange]
  by_cases hfull : fractionRange ≤ mantissa
  · have hlog : Int.log 2 ((mantissa : ℚ) * 2 ^ exponent) = 52 + exponent := by
      apply le_antisymm
      · rw [← Int.lt_add_one_iff, ← Int.lt_zpow_iff_log_lt (by norm_num) hvalue]
        have htop : (mantissa : ℚ) < 2 * 2 ^ (52 : Int) := by
          rw [← hpower]
          exact_mod_cast hbound
        have hsplit : ((2 : Nat) : ℚ) ^ (52 + exponent + 1) =
            2 * 2 ^ (52 : Int) * 2 ^ exponent := by
          rw [Nat.cast_ofNat, zpow_add_one₀ (by norm_num), zpow_add₀ (by norm_num)]
          ring
        rw [hsplit]
        gcongr
      · rw [← Int.zpow_le_iff_le_log (by norm_num) hvalue, Nat.cast_ofNat,
          zpow_add₀ (by norm_num), ← hpower]
        gcongr
    rw [hlog]
    omega
  · obtain rfl := hsmall (by omega)
    have hlog : Int.log 2 ((mantissa : ℚ) * 2 ^ (-1074 : Int)) < 52 + -1074 := by
      rw [← Int.lt_zpow_iff_log_lt (by norm_num) hvalue, Nat.cast_ofNat,
        zpow_add₀ (by norm_num), ← hpower]
      gcongr
      exact_mod_cast not_le.mp hfull
    omega

/-- A ratio that has a stored form becomes the number of that form. -/
theorem ofRatio_of_eq {mantissa num den : Nat} {exponent : Int} (negative : Bool)
    (hcanonical : Canonical mantissa exponent) (hden : 0 < den)
    (hratio : (num : ℚ) = mantissa * 2 ^ exponent * den) :
    ofRatio negative num den = .finite negative mantissa exponent hcanonical := by
  by_cases hzero : mantissa = 0
  · obtain rfl := hzero
    obtain ⟨_, _, _, hsmall⟩ := hcanonical.parts
    obtain rfl := hsmall (by decide)
    have hnum : num = 0 := by
      rw [Nat.cast_zero, zero_mul, zero_mul] at hratio
      exact_mod_cast hratio
    rw [ofRatio, if_pos hnum, zero]
  · have hmantissa : (0 : ℚ) < mantissa := by positivity
    have hnum : num ≠ 0 := by
      have hpositive : (0 : ℚ) < num := by
        rw [hratio]
        positivity
      exact_mod_cast hpositive.ne'
    have hplace : max (binade num den - 52) (-1074) = exponent := by
      rw [binade_eq_log hnum hden.ne', hratio, mul_div_assoc, div_self (by positivity), mul_one]
      exact max_log_of_canonical hcanonical hmantissa
    have hround : roundAt exponent num den = mantissa := by
      unfold roundAt
      rw [shift_eq_mul_shift hratio]
      exact roundDiv_mul_right mantissa (by rw [Nat.shiftLeft_eq]; positivity)
    simp only [ofRatio, hnum, if_false, hplace, hround]
    exact ofCarry_canonical negative hcanonical

end NestedData.Binary64
