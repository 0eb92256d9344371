import NestedData.Decimal.Layout
import NestedData.Text.Blank

/-!
# Numbers read as they were written

This module proves what the text of a number reads as.  Integers read as themselves.  A double
precision number is written with digits and at most one point among them, and reads as the number
nearest to the decimal that these denote.

Main results:

- `Text.readInt64?_showInt`: a written integer reads as that integer.
- `Layout.exists_parts_positional`: a number without an exponent is digits, and perhaps a
  point with more digits.
- `Numeral.scan?_spell`: a numeral is taken apart as it was put together.
- `Binary64.read?_positional`: digits with a point read as the number nearest to what they denote.
-/

namespace NestedData

/-! ## Integers -/

namespace Text

theorem isDigit_of_mem_showNat {n : Nat} {c : Char} (hmem : c ∈ showNat n) : c.isDigit = true :=
  Nat.isDigit_of_mem_toDigits (by decide) (by decide) hmem

theorem not_blank_of_isDigit {c : Char} (hdigit : c.isDigit = true) : isBlank c = false := by
  simp only [Char.isDigit, Bool.and_eq_true, decide_eq_true_eq, ge_iff_le,
    UInt32.le_iff_toNat_le] at hdigit
  have hlow : 48 ≤ c.toNat := hdigit.1
  have hhigh : c.toNat ≤ 57 := hdigit.2
  simp only [isBlank, Bool.or_eq_false_iff, Bool.and_eq_false_iff, decide_eq_false_iff_not,
    beq_eq_false_iff_ne]
  omega

theorem showNat_ne_nil (n : Nat) : showNat n ≠ [] :=
  Nat.toDigits_ne_nil

/-- The number read from a written natural number is that number. -/
theorem readNat?_showNat (n : Nat) : readNat? (showNat n) = some n := by
  unfold readNat?
  split
  · rename_i digits hshape
    have hplus : ('+').isDigit = true := isDigit_of_mem_showNat (n := n) (by simp [hshape])
    exact absurd hplus (by decide)
  · exact readDigits?_showNat n

/-- The word read from a written integer is the word of that value. -/
theorem readInt64?_showInt (word : Int64) : readInt64? (showInt word.toInt) = some word := by
  rw [readInt64?, readInt?_showInt]
  exact exactInt64?_eq_some_iff.mpr rfl

end Text

/-! ## Digits with a point -/

namespace Layout

/-- Digits scaled by a power of ten are written as whole digits and the digits after a
point, if there are any.  Together these are the given digits, with zeros around them that
make up for the power of ten; the whole digits begin as the given ones do, or are a zero. -/
theorem exists_parts_positional (layout : Layout) {digits : List Char} (exponent : Int)
    (hdigits : digits ≠ []) :
    ∃ whole fraction, layout.positional digits exponent = whole ++ layout.fractionPart fraction ∧
      whole ≠ [] ∧ (whole = ['0'] ∨ whole.head? = digits.head?) ∧ ∃ before after : Nat,
        whole ++ fraction = List.replicate before '0' ++ digits ++ List.replicate after '0' ∧
        exponent = after - fraction.length := by
  unfold positional
  simp only
  split
  · have hhead : (digits ++ List.replicate exponent.toNat '0').head? = digits.head? := by
      obtain ⟨first, rest, rfl⟩ := List.exists_cons_of_ne_nil hdigits
      rfl
    refine ⟨digits ++ List.replicate exponent.toNat '0', [], rfl, by simp [hdigits], .inr hhead, 0,
      exponent.toNat, by simp, ?_⟩
    simp only [List.length_nil]
    omega
  · split
    · rename_i hplaces
      have hpositive : digits.length - (-exponent).toNat ≠ 0 := by omega
      refine ⟨_, _, rfl, ?_, .inr (by rw [List.head?_take, if_neg hpositive]), 0, 0, by simp, ?_⟩
      · rw [← List.length_pos_iff, List.length_take]
        omega
      · rw [List.length_drop]
        omega
    · refine ⟨['0'], _, rfl, by simp, .inl rfl, (-exponent).toNat - digits.length + 1, 0, ?_, ?_⟩
      · simp [List.replicate_succ]
      · simp only [List.length_append, List.length_replicate]
        omega

end Layout

/-! ## Scanning -/

namespace Numeral

/-- Digits before something else are split off. -/
theorem takeDigits_digits_append {digits rest : List Char}
    (hall : ∀ c ∈ digits, c.isDigit = true) (hrest : ∀ c ∈ rest.head?, c.isDigit = false) :
    takeDigits (digits ++ rest) = (digits, rest) := by
  have htake : rest.takeWhile Char.isDigit = [] ∧ rest.dropWhile Char.isDigit = rest := by
    cases rest with
    | nil => simp
    | cons c tail =>
      have hc : c.isDigit = false := hrest c (by simp)
      simp [hc]
  rw [takeDigits, List.takeWhile_append_of_pos hall, List.dropWhile_append_of_pos hall]
  simp [htake]

theorem takeSign_of_isDigit {text : List Char} (hdigit : ∀ c ∈ text.head?, c.isDigit = true) :
    takeSign text = (none, text) := by
  unfold takeSign
  split
  · exact absurd (hdigit '-' (by simp)) (by decide)
  · exact absurd (hdigit '+' (by simp)) (by decide)
  · rfl

theorem takeSign_append {text : List Char} (negative : Bool)
    (hdigit : ∀ c ∈ text.head?, c.isDigit = true) :
    takeSign ((if negative then ['-'] else []) ++ text) =
      (if negative then some true else none, text) := by
  cases negative with
  | true => rfl
  | false => exact takeSign_of_isDigit hdigit

/-- A signed power of ten, after its mark. -/
def spellPower (power : Int) : List Char :=
  'e' :: (if power < 0 then '-' else '+') :: Text.showNat power.natAbs

/-- The text of a numeral: a minus sign or none, whole digits, the digits after a point if there is
one, and a power of ten if there is one. -/
def spell (numeral : Numeral) : List Char :=
  (if numeral.isNegative then ['-'] else []) ++
    (numeral.whole ++ (numeral.fraction.elim [] ('.' :: ·) ++ numeral.exponent.elim [] spellPower))

theorem readExponent?_spellPower (power : Int) :
    readExponent? (spellPower power) = some (some power) := by
  simp only [spellPower, readExponent?, true_or, if_true]
  split
  · have hpower : -(power.natAbs : Int) = power := by omega
    rw [Text.readInt?, Text.readDigits?_showNat, Option.map_some, hpower, Option.map_some]
  · have hpower : (power.natAbs : Int) = power := by omega
    rw [Text.readInt?, Text.readDigits?_showNat, Option.map_some, hpower, Option.map_some]

/-- A numeral is taken apart as it was put together. -/
theorem scan?_spell {numeral : Numeral} (hsign : numeral.sign ≠ some false)
    (hwhole : numeral.whole ≠ []) (hdigits : ∀ c ∈ numeral.digits, c.isDigit = true) :
    scan? numeral.spell = some numeral := by
  rcases numeral with ⟨sign, whole, fraction, exponent⟩
  have hall : ∀ c ∈ whole, c.isDigit = true := fun c hmem =>
    hdigits c (List.mem_append_left _ hmem)
  have hhead (after : List Char) : ∀ c ∈ (whole ++ after).head?, c.isDigit = true := by
    obtain ⟨first, rest, rfl⟩ := List.exists_cons_of_ne_nil hwhole
    intro c hc
    exact Option.some.inj hc ▸ hall first List.mem_cons_self
  have hnegative : (if (isNegative { sign, whole, fraction, exponent }) = true then some true
      else none) = sign := by
    rcases sign with _ | _ | _ <;> first | rfl | exact absurd rfl hsign
  have hpower : (∀ c ∈ (exponent.elim [] spellPower).head?, c.isDigit = false) ∧
      readExponent? (exponent.elim [] spellPower) = some exponent ∧
      takeFraction (exponent.elim [] spellPower) = (none, exponent.elim [] spellPower) := by
    cases exponent with
    | none => exact ⟨by simp, rfl, rfl⟩
    | some power => exact ⟨by simp [spellPower], readExponent?_spellPower power, rfl⟩
  obtain ⟨hmark, hread, hnone⟩ := hpower
  rw [scan?, spell, takeSign_append _ (hhead _), hnegative]
  cases fraction with
  | none =>
    simp only [Option.elim_none, List.nil_append, takeDigits_digits_append hall hmark, hnone, hread,
      Option.map_some]
  | some places =>
    have hplaces : ∀ c ∈ places, c.isDigit = true := fun c hmem =>
      hdigits c (List.mem_append_right _ hmem)
    have hpoint : ∀ c ∈ ('.' :: (places ++ exponent.elim [] spellPower)).head?,
        c.isDigit = false := by
      simp
    simp only [Option.elim_some, List.cons_append, takeDigits_digits_append hall hpoint,
      takeFraction, takeDigits_digits_append hplaces hmark, hread, Option.map_some]

end Numeral

namespace Binary64

/-- What starts with a digit is no word in any letter case. -/
theorem map_toLower_ne_word {text word : List Char} (hdigit : ∃ c ∈ text.head?, c.isDigit = true)
    (hword : ∀ c ∈ word.head?, 97 ≤ c.toNat) : text.map Char.toLower ≠ word := by
  rintro rfl
  obtain ⟨c, hhead, hdigit⟩ := hdigit
  have hlow := hword c.toLower (by simpa using ⟨c, hhead, rfl⟩)
  simp only [Char.isDigit, Bool.and_eq_true, decide_eq_true_eq, ge_iff_le,
    UInt32.le_iff_toNat_le] at hdigit
  have hhigh : c.toNat ≤ 57 := hdigit.2
  have hupper : ¬ (c.val ≥ 'A'.val ∧ c.val ≤ 'Z'.val) := by
    rintro ⟨hupper, _⟩
    have hupper : 65 ≤ c.toNat := UInt32.le_iff_toNat_le.mp hupper
    omega
  have hsame : c.toLower = c := dif_neg hupper
  rw [hsame] at hlow
  omega

/-- A number written with a minus sign or none, whole digits, and the digits after a point reads
as the number nearest to the one that all digits denote. -/
theorem read?_positional {whole fraction : List Char} (negative : Bool) (hwhole : whole ≠ [])
    (hall : ∀ c ∈ whole ++ fraction, c.isDigit = true) :
    read? ((if negative then ['-'] else []) ++ (whole ++ Layout.plain.fractionPart fraction)) =
      some (ofDecimal negative (Nat.ofDigitChars 10 (whole ++ fraction) 0) (-fraction.length)) := by
  obtain ⟨first, rest, rfl⟩ := List.exists_cons_of_ne_nil hwhole
  have hfirst : first.isDigit = true := hall first (by simp)
  have hhead : ∀ c ∈ (first :: rest ++ Layout.plain.fractionPart fraction).head?,
      c.isDigit = true := by
    simpa using hfirst
  have hword (word : List Char) (hletter : ∀ c ∈ word.head?, 97 ≤ c.toNat) :
      (first :: rest ++ Layout.plain.fractionPart fraction).map Char.toLower ≠ word :=
    map_toLower_ne_word ⟨first, by simp, hfirst⟩ hletter
  have hinfinite := not_or.mpr ⟨hword "inf".toList (by simp), hword "infinity".toList (by simp)⟩
  have hnan := hword "nan".toList (by simp)
  let numeral : Numeral :=
    { sign := if negative then some true else none
      whole := first :: rest
      fraction := if fraction = [] then none else some fraction
      exponent := none }
  have hspell : (if negative then ['-'] else []) ++
      (first :: rest ++ Layout.plain.fractionPart fraction) = numeral.spell := by
    cases negative <;> cases fraction <;>
      simp [numeral, Numeral.spell, Numeral.isNegative, Layout.fractionPart, Layout.plain]
  have hdigits : numeral.digits = first :: rest ++ fraction := by
    cases fraction <;> simp [numeral, Numeral.digits]
  have hsign : numeral.sign ≠ some false := by
    cases negative <;> simp [numeral]
  have hscan : Numeral.scan? numeral.spell = some numeral :=
    Numeral.scan?_spell hsign hwhole (by rwa [hdigits])
  rw [← hspell] at hscan
  unfold read?
  simp only [Numeral.takeSign_append negative hhead, hscan, hinfinite, hnan, if_false]
  cases negative <;> cases fraction <;>
    simp [numeral, ofNumeral, Numeral.digits, Numeral.isNegative, Numeral.scale]

end Binary64

end NestedData
