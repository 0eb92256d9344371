import NestedData.Json.Reader
import NestedData.Proofs.Binary64.Integers
import NestedData.Proofs.Schema.Conversions

/-!
# Integers made of numbers and of texts

A node for integers takes a double precision number without its fraction, and a text for the integer
that it spells.  A text that spells no integer of the signed 64-bit range is read as a number, and the
range of a number is checked in double precision, where `2 ^ 63` takes the place of the greatest
integer.  This module says exactly where conversion is exact: for every integer except the few beside
the range that are rounded to its bounds.

Main results:

- `Schema.convert_int_exact_iff`: where a number or a text is converted to the integer that it stands
  for, or refused because no word has that value.
- `Schema.convert_int_of_besideRange`: an integer beside the range is converted to the bound next to
  it.
-/

namespace NestedData

/-- An integer just above or just below the signed 64-bit range, which a double precision number does
not tell from the bound. -/
def BesideRange (n : Int) : Prop :=
  0x8000000000000000 ≤ n ∧ n ≤ 0x8000000000000400 ∨
    -0x8000000000000400 ≤ n ∧ n < -0x8000000000000000

/-- The word at the upper end of the signed range for an integer that is not negative, and the word at
the lower end for others. -/
def boundNear (n : Int) : Int64 :=
  if 0 ≤ n then Int64.maxValue else Int64.minValue

theorem exactInt64?_of_besideRange {n : Int} (hbeside : BesideRange n) :
    Text.exactInt64? n = none := by
  unfold BesideRange at hbeside
  rw [Text.exactInt64?, if_neg (by omega)]

/-- The word that a number gives an integer is the one of its value, except for `2 ^ 63`. -/
theorem nearInt64?_eq_exactInt64? {n : Int} (hn : n ≠ 0x8000000000000000) :
    nearInt64? n = Text.exactInt64? n := by
  unfold Text.exactInt64?
  split
  · rename_i hrange
    exact nearInt64?_of_lt hrange.1 hrange.2
  · rw [nearInt64?, if_neg (by omega)]

namespace Value

/-! ## What is coerced to an integer -/

theorem coerceInt?_float {number : Binary64} {n : Int} (htruncate : number.truncate? = some n)
    (hn : n ≠ 0x8000000000000000) : (Value.float number).coerceInt? = Text.exactInt64? n := by
  rw [coerceInt?, htruncate, Option.bind_some, nearInt64?_eq_exactInt64? hn]

theorem coerceInt?_float_bound {number : Binary64}
    (htruncate : number.truncate? = some 0x8000000000000000) :
    (Value.float number).coerceInt? = some Int64.maxValue := by
  rw [coerceInt?, htruncate]
  rfl

/-- A text that spells an integer for which there is no word is read as the number nearest to it. -/
theorem coerceInt?_text_of_none {content : String} {n : Int}
    (hread : Text.readInt? (Text.trim content.toList) = some n) (hnone : Text.exactInt64? n = none) :
    ∃ negative, (Value.text content).coerceInt? =
        ((Binary64.ofDecimal negative n.natAbs 0).truncate?.bind nearInt64?) ∧
      n = if negative then -(n.natAbs : Int) else n.natAbs := by
  obtain ⟨negative, hnumber, hsign⟩ := Binary64.read?_of_readInt? hread
  refine ⟨negative, ?_, hsign⟩
  simp only [coerceInt?, Text.readInt64?, hread, Option.bind_some, hnone, Option.none_or, hnumber]

/-- A text that spells an integer is coerced to it, unless the integer is beside the range. -/
theorem coerceInt?_text {content : String} {n : Int}
    (hread : Text.readInt? (Text.trim content.toList) = some n) (hn : ¬ BesideRange n) :
    (Value.text content).coerceInt? = Text.exactInt64? n := by
  cases hexact : Text.exactInt64? n with
  | some word =>
    simp only [coerceInt?, Text.readInt64?, hread, Option.bind_some, hexact, Option.some_or]
  | none =>
    obtain ⟨negative, hcoerce, hsign⟩ := coerceInt?_text_of_none hread hexact
    have hrange : ¬ (-0x8000000000000000 ≤ n ∧ n < 0x8000000000000000) := fun hrange => by
      rw [Text.exactInt64?, if_pos hrange] at hexact
      cases hexact
    have hfar : 0x8000000000000400 < n.natAbs := by
      unfold BesideRange at hn
      omega
    rw [hcoerce, Option.bind_eq_none_iff]
    intro whole hwhole
    rcases Binary64.ofDecimal_integer negative (n := n.natAbs) (by omega) with hinfinite | hround
    · rw [hinfinite] at hwhole
      cases hwhole
    · rw [hround] at hwhole
      have hoff := Binary64.lt_natAbs_of_truncate?_ofRatio hfar hwhole
      rw [nearInt64?, if_neg (by omega)]

/-- A text that spells an integer beside the range is coerced to the bound next to it. -/
theorem coerceInt?_text_of_besideRange {content : String} {n : Int}
    (hread : Text.readInt? (Text.trim content.toList) = some n) (hbeside : BesideRange n) :
    (Value.text content).coerceInt? = some (boundNear n) := by
  obtain ⟨negative, hcoerce, hsign⟩ :=
    coerceInt?_text_of_none hread (exactInt64?_of_besideRange hbeside)
  unfold BesideRange at hbeside
  rw [hcoerce, Binary64.ofDecimal_of_near (by omega) (by omega)]
  cases negative with
  | false =>
    rw [boundNear, if_pos (by rw [hsign]; simp)]
    rfl
  | true =>
    rw [boundNear, if_neg (by rw [if_pos rfl] at hsign; omega)]
    rfl

end Value

namespace Schema

/-! ## Conversion -/

/-- An outcome of a conversion is exact for an integer: it is the word of that value, and a fault where
the integer lies outside the range of the words. -/
structure ExactFor (outcome : Except SchemaError Value) (n : Int) : Prop where
  /-- An integer of the range is kept. -/
  kept : -0x8000000000000000 ≤ n → n ≤ 0x7fffffffffffffff →
    ∃ word : Int64, word.toInt = n ∧ outcome = .ok (.int word)
  /-- Every other integer is refused. -/
  refused : n < -0x8000000000000000 ∨ 0x7fffffffffffffff < n → ∃ error, outcome = .error error

/-- The outcome of a conversion of what is coerced to an integer, or else is refused. -/
def coercedTo (node : Node Schema) (location : Location) (source : Value) (word? : Option Int64) :
    Except SchemaError Value :=
  match word? with
  | some word => .ok (.int word)
  | none => node.unconvertible location source (.notScalar .int)

/-- An outcome is exact if coercion gives the integer the word of its value. -/
theorem exactFor_coercedTo (node : Node Schema) (location : Location) (source : Value) (n : Int) :
    ExactFor (coercedTo node location source (Text.exactInt64? n)) n where
  kept hlow hhigh := by
    refine ⟨Int64.ofInt n, Int64.toInt_ofInt_of_le hlow (by omega), ?_⟩
    rw [Text.exactInt64?, if_pos ⟨hlow, by omega⟩, coercedTo]
  refused hrange := by
    rw [Text.exactInt64?, if_neg (by omega)]
    exact ⟨_, rfl⟩

/-- It is not exact for an integer outside the range if there is a word at all. -/
theorem not_exactFor_ok {n : Int} (hnone : Text.exactInt64? n = none) (value : Value) :
    ¬ ExactFor (.ok value) n := by
  intro hexact
  have hrange : n < -0x8000000000000000 ∨ 0x7fffffffffffffff < n := by
    by_contra hinside
    rw [Text.exactInt64?, if_pos (by omega)] at hnone
    cases hnone
  obtain ⟨error, herror⟩ := hexact.refused hrange
  cases herror

section Conversion

variable {library : Json.Library} {node : Node Schema} {source : Value}

/-- A value that is there becomes the integer that it is coerced to. -/
theorem convert_int (hplain : node.converter? = none) (hkind : node.kind = .int)
    (hpresent : source.target.isAbsent = false) (strict : Bool) (location : Location) :
    (Schema.single node).convert library strict location source =
      coercedTo node location source.target source.target.coerceInt? := by
  have hcontainer : node.kind.isContainer = false := by rw [hkind]; rfl
  rw [convert_single, Node.convertWith_of_no_container hplain hcontainer hpresent,
    Node.convertPresent, hkind]
  cases hcoerce : source.target.coerceInt? <;> simp [Value.coerce?, hcoerce, coercedTo]

/-- The text of an integer beside the range is converted to the bound next to the integer. -/
theorem convert_int_of_besideRange {content : String} {n : Int} (hplain : node.converter? = none)
    (hkind : node.kind = .int) (hsource : source.target = .text content)
    (hread : Text.readInt? (Text.trim content.toList) = some n) (hbeside : BesideRange n)
    (strict : Bool) (location : Location) :
    (Schema.single node).convert library strict location source = .ok (.int (boundNear n)) := by
  rw [convert_int hplain hkind (by rw [hsource]; rfl), hsource,
    Value.coerceInt?_text_of_besideRange hread hbeside, coercedTo]

/-- Conversion to an integer is exact, but for the integers that double precision does not tell from
the bounds of the range: a number is converted exactly unless `2 ^ 63` stands before its point, and a
text unless it spells an integer beside the range.  Numbers without an integer before the point are
refused. -/
theorem convert_int_exact_iff (hplain : node.converter? = none) (hkind : node.kind = .int)
    (strict : Bool) (location : Location) :
    (∀ number, source.target = .float number →
      (number.truncate? = none →
        ∃ error, (Schema.single node).convert library strict location source = .error error) ∧
      ∀ n, number.truncate? = some n →
        (ExactFor ((Schema.single node).convert library strict location source) n ↔
          n ≠ 0x8000000000000000)) ∧
    ∀ content n, source.target = .text content →
      Text.readInt? (Text.trim content.toList) = some n →
        (ExactFor ((Schema.single node).convert library strict location source) n ↔
          ¬ BesideRange n) := by
  refine ⟨fun number hsource => ⟨fun htruncate => ?_, fun n htruncate => ?_⟩,
    fun content n hsource hread => ?_⟩
  · rw [convert_int hplain hkind (by rw [hsource]; rfl), hsource, Value.coerceInt?, htruncate]
    exact ⟨_, rfl⟩
  · rw [convert_int hplain hkind (by rw [hsource]; rfl), hsource]
    constructor
    · rintro hexact rfl
      rw [Value.coerceInt?_float_bound htruncate] at hexact
      exact not_exactFor_ok (by decide) _ hexact
    · intro hn
      rw [Value.coerceInt?_float htruncate hn]
      exact exactFor_coercedTo ..
  · constructor
    · intro hexact hbeside
      rw [convert_int_of_besideRange hplain hkind hsource hread hbeside] at hexact
      exact not_exactFor_ok (exactInt64?_of_besideRange hbeside) _ hexact
    · intro hn
      rw [convert_int hplain hkind (by rw [hsource]; rfl), hsource, Value.coerceInt?_text hread hn]
      exact exactFor_coercedTo ..

end Conversion

/-- The numbers next to the bounds: the greatest below `2 ^ 63` is kept, and the text of the first
integer that is rounded away from the bound is refused. -/
theorem convert_int_exact_samples :
    ExactFor ((Schema.single { shape := .int }).conform Json.exact
        (.float (.finite false 0x1fffffffffffff 10 (by decide)))) 0x7ffffffffffffc00 ∧
      ExactFor ((Schema.single { shape := .int }).conform Json.exact (.text " -9223372036854776833 "))
        (-0x8000000000000401) :=
  ⟨(((convert_int_exact_iff rfl rfl false []).1 _ rfl).2 _ (by decide)).mpr (by decide),
    ((convert_int_exact_iff rfl rfl false []).2 " -9223372036854776833 " _ rfl (by decide)).mpr
      (by unfold BesideRange; omega)⟩

/-- What double precision does not tell from the bounds is not refused: `2 ^ 63` as a number becomes the
greatest integer, and the text of the integer below the range becomes the least one. -/
theorem convert_int_takes_bound :
    (Binary64.wordBound false).truncate? = some 0x8000000000000000 ∧
      (Schema.single { shape := .int }).conform Json.exact (.float (Binary64.wordBound false)) =
        .ok (.int 0x7fffffffffffffff) ∧
      Text.readInt? (Text.trim "-9223372036854775809".toList) = some (-0x8000000000000001) ∧
      (Schema.single { shape := .int }).conform Json.exact (.text "-9223372036854775809") =
        .ok (.int (-0x8000000000000000)) := by
  have hnumber : (Binary64.wordBound false).truncate? = some 0x8000000000000000 := by decide
  have htext : Text.readInt? (Text.trim "-9223372036854775809".toList) =
      some (-0x8000000000000001) := by decide
  refine ⟨hnumber, ?_, htext, ?_⟩
  · have hsource : (Value.float (Binary64.wordBound false)).target =
        .float (Binary64.wordBound false) := rfl
    rw [conform, convert_int rfl rfl rfl, hsource, Value.coerceInt?_float_bound hnumber]
    rfl
  · rw [conform, convert_int_of_besideRange rfl rfl rfl htext (by unfold BesideRange; omega)]
    rfl

end Schema

end NestedData
