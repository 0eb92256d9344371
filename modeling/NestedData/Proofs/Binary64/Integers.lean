import NestedData.Proofs.Decimal.ReadBack

/-!
# Integers of more than 53 bits

A double precision number holds 53 bits, so an integer that is longer is rounded to a multiple of a
power of two.  This module says what becomes of the integers around `2 ^ 63`, where such numbers lie
1024 apart on one side and 2048 on the other, and how the text of an integer is read as a number.

Main results:

- `Binary64.ofRatio_one`: a long integer is rounded to a mantissa and a power of two.
- `Binary64.ofRatio_of_near`: an integer just above `2 ^ 63` is rounded down to it.
- `Binary64.lt_natAbs_of_truncate?_ofRatio`: an integer farther above stays above it.
- `Binary64.read?_of_readInt?`: the text of an integer is read as the number nearest to it.
-/

namespace NestedData.Binary64

/-! ## Rounding long integers -/

theorem binade_one {n : Nat} (hn : n ≠ 0) : binade n 1 = n.log2 := by
  have hlength : 2 ^ n.log2 ≤ n := Nat.log2_self_le hn
  have hone : Nat.log2 1 = 0 := by decide
  have hplaces : (-(n.log2 : Int)).toNat = 0 := by omega
  simp only [binade, hone, Nat.cast_zero, Int.sub_zero, hplaces, Int.toNat_natCast,
    Nat.shiftLeft_eq, pow_zero, Nat.mul_one, Nat.one_mul, Nat.not_lt.mpr hlength, if_false]

/-- An integer of at least 53 bits is rounded to 53 of them, and what the others amount to is a power
of two. -/
theorem ofRatio_one {n : Nat} (hn : fractionRange ≤ n) (negative : Bool) :
    ofRatio negative n 1 =
      ofCarry negative (roundDiv n (2 ^ (n.log2 - 52))) ((n.log2 - 52 : Nat) : Int) := by
  have hpositive : n ≠ 0 := by
    rintro rfl
    exact absurd hn (by decide)
  have hlong : 52 ≤ n.log2 := (Nat.le_log2 hpositive).mpr hn
  have hplace : max ((n.log2 : Int) - 52) (-1074) = ((n.log2 - 52 : Nat) : Int) := by omega
  have hdown : (-((n.log2 - 52 : Nat) : Int)).toNat = 0 := by omega
  simp only [ofRatio, hpositive, if_false, binade_one hpositive, hplace, roundAt, hdown,
    Int.toNat_natCast, Nat.shiftLeft_eq, pow_zero, Nat.mul_one, Nat.one_mul]

/-- A finite number with a power of two is whole. -/
theorem truncate?_ofStored {negative : Bool} {mantissa places : Nat} {whole : Int}
    (hwhole : (ofStored negative mantissa places).truncate? = some whole) :
    whole.natAbs = mantissa * 2 ^ places := by
  unfold ofStored at hwhole
  split at hwhole
  · have hdown : (-(places : Int)).toNat = 0 := by omega
    simp only [truncate?, Int.toNat_natCast, hdown, Nat.shiftLeft_eq, Nat.shiftRight_zero,
      Option.some.injEq] at hwhole
    subst hwhole
    cases negative <;> simp [Int.natAbs_mul, Int.natAbs_pow]
  · cases hwhole

/-- So is one whose mantissa rounding has carried up. -/
theorem truncate?_ofCarry {negative : Bool} {mantissa places : Nat} {whole : Int}
    (hwhole : (ofCarry negative mantissa places).truncate? = some whole) :
    whole.natAbs = mantissa * 2 ^ places := by
  unfold ofCarry at hwhole
  split at hwhole
  · rename_i hcarry
    have hstored : whole.natAbs = fractionRange * 2 ^ (places + 1) := truncate?_ofStored hwhole
    rw [hstored, hcarry, pow_succ]
    ring
  · exact truncate?_ofStored hwhole

theorem div_le_roundDiv (num den : Nat) : num / den ≤ roundDiv num den := by
  unfold roundDiv
  dsimp only
  split <;> omega

/-! ## Around the signed 64-bit range -/

/-- The number `± 2 ^ 63`. -/
def wordBound (negative : Bool) : Binary64 :=
  .finite negative fractionRange 11 (by decide)

/-- An integer that is at most 1024 above `2 ^ 63` is rounded down to it. -/
theorem ofRatio_of_near {n : Nat} (hlow : 0x8000000000000000 ≤ n)
    (hhigh : n ≤ 0x8000000000000400) (negative : Bool) :
    ofRatio negative n 1 = wordBound negative := by
  have hpositive : n ≠ 0 := by omega
  have hlength : n.log2 = 63 := by
    refine le_antisymm (Nat.le_of_lt_succ ((Nat.log2_lt hpositive).mpr ?_))
      ((Nat.le_log2 hpositive).mpr ?_)
    · omega
    · omega
  have hround : roundDiv n (2 ^ 11) = fractionRange := by
    unfold roundDiv fractionRange
    dsimp only
    split <;> omega
  rw [ofRatio_one (by unfold fractionRange; omega), hlength, hround]
  exact ofCarry_canonical negative (by decide)

/-- An integer that is more than 1024 above `2 ^ 63` is rounded to a number above it, too. -/
theorem lt_natAbs_of_truncate?_ofRatio {n : Nat} (hn : 0x8000000000000400 < n) {negative : Bool}
    {whole : Int} (hwhole : (ofRatio negative n 1).truncate? = some whole) :
    0x8000000000000000 < whole.natAbs := by
  have hpositive : n ≠ 0 := by omega
  have hlength : 63 ≤ n.log2 := (Nat.le_log2 hpositive).mpr (by omega)
  rw [ofRatio_one (by unfold fractionRange; omega)] at hwhole
  rw [truncate?_ofCarry hwhole]
  rcases Nat.eq_or_lt_of_le hlength with hshort | hlong
  · -- The numbers are 2048 apart here, and the integer is past the middle between the first two.
    rw [← hshort]
    unfold roundDiv
    dsimp only
    split <;> omega
  · have hbits : 2 ^ 52 * 2 ^ (n.log2 - 52) = 2 ^ n.log2 := by
      rw [← pow_add]
      congr 1
      omega
    have hquotient : 2 ^ 52 ≤ n / 2 ^ (n.log2 - 52) := by
      rw [Nat.le_div_iff_mul_le (by positivity), hbits]
      exact Nat.log2_self_le hpositive
    calc 0x8000000000000000 < 2 ^ 64 := by decide
      _ ≤ 2 ^ n.log2 := Nat.pow_le_pow_right (by decide) hlong
      _ = 2 ^ 52 * 2 ^ (n.log2 - 52) := hbits.symm
      _ ≤ roundDiv n (2 ^ (n.log2 - 52)) * 2 ^ (n.log2 - 52) := by
        gcongr
        exact hquotient.trans (div_le_roundDiv _ _)

/-! ## Texts of integers -/

/-- Digits after a sign, or without one, are read as the number nearest to what they denote. -/
theorem read?_of_readDigits? {text digits : List Char} {sign : Option Bool} {n : Nat}
    (hsign : Numeral.takeSign text = (sign, digits)) (hread : Text.readDigits? digits = some n) :
    read? text = some (ofDecimal (sign == some true) n 0) := by
  unfold Text.readDigits? at hread
  split at hread
  · rename_i hdigits
    obtain ⟨hsome, hall⟩ := hdigits
    obtain ⟨first, rest, rfl⟩ := List.exists_cons_of_ne_nil hsome
    obtain rfl := Option.some.inj hread
    rw [List.all_eq_true] at hall
    have hfirst : first.isDigit = true := hall first List.mem_cons_self
    have hword (word : List Char) (hletter : ∀ c ∈ word.head?, 97 ≤ c.toNat) :
        (first :: rest).map Char.toLower ≠ word :=
      map_toLower_ne_word ⟨first, by simp, hfirst⟩ hletter
    have hinfinite := not_or.mpr ⟨hword "inf".toList (by simp), hword "infinity".toList (by simp)⟩
    have hnan := hword "nan".toList (by simp)
    have htake : Numeral.takeDigits (first :: rest ++ []) = (first :: rest, []) :=
      Numeral.takeDigits_digits_append hall (by simp)
    rw [List.append_nil] at htake
    have hscan : Numeral.scan? text =
        some { sign, whole := first :: rest, fraction := none, exponent := none } := by
      simp only [Numeral.scan?, hsign, htake, Numeral.takeFraction, Numeral.readExponent?,
        Option.map_some]
    unfold read?
    simp only [hsign, hinfinite, hnan, hscan, if_false]
    simp [Numeral.digits, ofNumeral, Numeral.isNegative, Numeral.scale]
  · cases hread

/-- The text of an integer is read as the number nearest to the integer. -/
theorem read?_of_readInt? {text : List Char} {n : Int} (hread : Text.readInt? text = some n) :
    ∃ negative, read? text = some (ofDecimal negative n.natAbs 0) ∧
      n = if negative then -(n.natAbs : Int) else n.natAbs := by
  rw [Text.readInt?.eq_def] at hread
  split at hread
  · rename_i digits
    obtain ⟨size, hdigits, rfl⟩ := Option.map_eq_some_iff.mp hread
    have hsign : Numeral.takeSign ('-' :: digits) = (some true, digits) := rfl
    exact ⟨true, by simpa using read?_of_readDigits? hsign hdigits, by simp⟩
  · rename_i digits
    obtain ⟨size, hdigits, rfl⟩ := Option.map_eq_some_iff.mp hread
    have hsign : Numeral.takeSign ('+' :: digits) = (some false, digits) := rfl
    exact ⟨false, by simpa using read?_of_readDigits? hsign hdigits, by simp⟩
  · rename_i hminus hplus
    obtain ⟨size, hdigits, rfl⟩ := Option.map_eq_some_iff.mp hread
    have hsign : Numeral.takeSign text = (none, text) := by
      unfold Numeral.takeSign
      split
      · exact absurd rfl (hminus _)
      · exact absurd rfl (hplus _)
      · rfl
    exact ⟨false, by simpa using read?_of_readDigits? hsign hdigits, by simp⟩

/-- The digits of an integer denote that integer, unless it is longer than every finite number. -/
theorem ofDecimal_integer (negative : Bool) {n : Nat} (hn : n ≠ 0) :
    ofDecimal negative n 0 = .infinite negative ∨ ofDecimal negative n 0 = ofRatio negative n 1 := by
  unfold ofDecimal
  simp only [hn, if_false]
  split
  · exact .inl rfl
  · rw [if_neg (by omega)]
    exact .inr (by simp)

theorem ofDecimal_of_near {n : Nat} (hlow : 0x8000000000000000 ≤ n)
    (hhigh : n ≤ 0x8000000000000400) (negative : Bool) :
    ofDecimal negative n 0 = wordBound negative := by
  have hlength : decimalLength n ≤ 19 := (decimalLength_le_iff (by decide)).mpr (by omega)
  rw [ofDecimal_of_bounds negative (by omega) (by omega) (by omega)]
  simpa using ofRatio_of_near hlow hhigh negative

end NestedData.Binary64
