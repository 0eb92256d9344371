import NestedData.Path.Slice
import NestedData.Text.Integer

/-!
# Slices in words

A slice is resolved here in 64-bit words instead of unbounded integers: the length, the bounds and the
positions are signed words, and the step and the positions that are selected are unsigned ones.  Every
sum and every conversion is refused whose result is no word, so a computation that gives positions has
not overflowed anywhere.  The only sum that may leave the range is the one that looks for the next
position; where it does, the walk is at its end.

Main results:

- `SliceWords.walk?_eq`: a walk in words takes the positions before its end, one step apart.
- `SliceWords.positions?_eq`: a slice resolved in words selects what it selects over the integers.
- `Segment.sliceIndices?_exact`: a slice selects the positions between its bounds that are a whole
  number of steps from the first, and nothing overflows.
-/

namespace NestedData

open Text (exactInt64? exactInt64?_eq_some_iff)

/-! ## Bounds over the integers -/

namespace SliceBounds

/-- The integer that a bound stands for: counted from the end of the list if it is negative, and moved
into the list. -/
def resolved (length : Nat) (bound : Int64) : Int :=
  if bound.toInt < 0 then max (length + bound.toInt) 0 else min bound.toInt length

/-- Where a slice begins. -/
def low (start : Option Int64) (length : Nat) : Int :=
  start.elim 0 (resolved length)

/-- Where a slice ends. -/
def high (stop : Option Int64) (length : Nat) : Int :=
  stop.elim length (resolved length)

/-- How far the positions of a slice lie apart. -/
def stride (step : Option Int64) : Int :=
  step.elim 1 fun step => if 0 < step.toInt then step.toInt else 1

theorem resolved_eq (length : Nat) (bound : Int64) :
    resolved length bound = resolveBound length bound := by
  simp only [resolved, resolveBound]
  split <;> omega

theorem low_eq (start : Option Int64) (length : Nat) : low start length = sliceStart start length := by
  cases start with
  | none => rfl
  | some bound => exact resolved_eq length bound

theorem high_eq (stop : Option Int64) (length : Nat) : high stop length = sliceStop stop length := by
  cases stop with
  | none => rfl
  | some bound => exact resolved_eq length bound

theorem stride_eq (step : Option Int64) : stride step = sliceStep step := by
  cases step with
  | none => rfl
  | some word =>
    simp only [stride, sliceStep, Option.elim_some]
    split <;> omega

end SliceBounds

/-! ## Positions in words -/

namespace SliceWords

/-- The unsigned word that is an integer, if there is one. -/
def exactUInt64? (n : Int) : Option UInt64 :=
  if 0 ≤ n ∧ n < UInt64.size then some (.ofNat n.toNat) else none

/-- The position that a bound stands for; refused if the sum with the length is no word. -/
def bound? (length bound : Int64) : Option Int64 :=
  if bound < 0 then (exactInt64? (length.toInt + bound.toInt)).map fun position => max position 0
  else some (min bound length)

/-- The positions of a walk up to `stop` that begins at `position` and passes over `gap` positions
between two that it takes. -/
def walk? (stop : Int64) (gap : UInt64) (position : Int64) : Option (List UInt64) :=
  if _hbefore : position < stop then
    match exactUInt64? position.toInt, _hfollowing : exactInt64? (position.toInt + 1) with
    | some index, some following =>
      match _hnext : exactInt64? (following.toInt + gap.toNat) with
      | some next => (walk? stop gap next).map (index :: ·)
      | none => some [index]
    | _, _ => none
  else some []
termination_by (stop.toInt - position.toInt).toNat
decreasing_by
  have hfollowing := exactInt64?_eq_some_iff.mp _hfollowing
  have hnext := exactInt64?_eq_some_iff.mp _hnext
  rw [Int64.lt_iff_toInt_lt] at _hbefore
  omega

/-- The positions that a slice selects from a list whose length is a signed word. -/
def positions? (start stop step : Option Int64) (length : Int64) : Option (List UInt64) := do
  let low ← start.elim (some 0) (bound? length)
  let high ← stop.elim (some length) (bound? length)
  let width ← exactUInt64? ((step.filter (0 < ·)).getD 1).toInt
  let gap ← exactUInt64? (width.toNat - 1)
  walk? high gap low

/-! ## Words that exist -/

/-- An integer has an unsigned word exactly when it lies in the range, and the word has its value. -/
theorem exactUInt64?_eq_some_iff {n : Int} {word : UInt64} :
    exactUInt64? n = some word ↔ (word.toNat : Int) = n := by
  unfold exactUInt64?
  constructor
  · intro hword
    split at hword
    · rename_i hrange
      cases hword
      rw [UInt64.toNat_ofNat_of_lt' (by omega)]
      omega
    · cases hword
  · rintro rfl
    have hsize := word.toNat_lt_size
    have hrange : 0 ≤ (word.toNat : Int) ∧ (word.toNat : Int) < UInt64.size := by omega
    rw [if_pos hrange, Int.toNat_natCast, UInt64.ofNat_toNat]

theorem exists_exactInt64? {n : Int} (hlow : -0x8000000000000000 ≤ n)
    (hhigh : n < 0x8000000000000000) : ∃ word, exactInt64? n = some word ∧ word.toInt = n := by
  have hword : (Int64.ofInt n).toInt = n := Int64.toInt_ofInt_of_le (by omega) (by omega)
  exact ⟨.ofInt n, exactInt64?_eq_some_iff.mpr hword, hword⟩

theorem exists_exactUInt64? {word : Int64} (hcount : 0 ≤ word.toInt) :
    ∃ count, exactUInt64? word.toInt = some count ∧ count.toNat = word.toInt.toNat := by
  have hword := word.toInt_lt
  have hrange : word.toInt.toNat < 0x10000000000000000 := by omega
  have hsame : (UInt64.ofNat word.toInt.toNat).toNat = word.toInt.toNat :=
    UInt64.toNat_ofNat_of_lt' hrange
  exact ⟨.ofNat word.toInt.toNat, exactUInt64?_eq_some_iff.mpr (by omega), hsame⟩

/-! ## Walks -/

/-- Of the positions that lie a step apart, the first one comes before the others. -/
theorem range'_stride_of_lt {low high gap : Nat} (hbefore : low < high) :
    List.range' low ((high - low + gap) / (gap + 1)) (gap + 1) =
      low :: List.range' (low + (gap + 1)) ((high - (low + (gap + 1)) + gap) / (gap + 1))
        (gap + 1) := by
  have hcount : (high - low + gap) / (gap + 1) =
      (high - (low + (gap + 1)) + gap) / (gap + 1) + 1 := by
    by_cases hlast : high ≤ low + (gap + 1)
    · rw [show high - low + gap = (high - low - 1) + (gap + 1) by omega,
        Nat.add_div_right _ (by omega), Nat.div_eq_of_lt (by omega),
        Nat.div_eq_of_lt (by omega)]
    · rw [show high - low + gap = (high - (low + (gap + 1)) + gap) + (gap + 1) by omega,
        Nat.add_div_right _ (by omega)]
  rw [hcount, List.range'_succ]

theorem range'_stride_of_le {low high gap : Nat} (hend : high ≤ low) :
    List.range' low ((high - low + gap) / (gap + 1)) (gap + 1) = [] := by
  rw [Nat.div_eq_of_lt (by omega)]
  rfl

/-- A walk in words that begins inside a list takes the positions before its end, one step apart. -/
theorem walk?_eq {stop position : Int64} (gap : UInt64) (hposition : 0 ≤ position.toInt) :
    (walk? stop gap position).map (List.map UInt64.toNat) =
      some (List.range' position.toInt.toNat
        ((stop.toInt.toNat - position.toInt.toNat + gap.toNat) / (gap.toNat + 1))
        (gap.toNat + 1)) := by
  -- The sum for the next position is the only one that may be no word: then it lies beyond the end.
  fun_induction walk? stop gap position with
  | case1 position hbefore index following hfollowing hindex next hnext ih =>
    rw [exactUInt64?_eq_some_iff] at hindex
    rw [exactInt64?_eq_some_iff] at hfollowing hnext
    rw [Int64.lt_iff_toInt_lt] at hbefore
    have hhere : index.toNat = position.toInt.toNat := by omega
    have hahead : next.toInt.toNat = position.toInt.toNat + (gap.toNat + 1) := by omega
    obtain ⟨words, hwords, hsame⟩ := Option.map_eq_some_iff.mp (ih (by omega))
    have hinside : position.toInt.toNat < stop.toInt.toNat := by omega
    rw [hwords, Option.map_some, Option.map_some, List.map_cons, hsame, hahead, hhere,
      range'_stride_of_lt hinside]
  | case2 position hbefore index following hfollowing hindex hnext =>
    rw [exactUInt64?_eq_some_iff] at hindex
    rw [exactInt64?_eq_some_iff] at hfollowing
    rw [Int64.lt_iff_toInt_lt] at hbefore
    have hhere : index.toNat = position.toInt.toNat := by omega
    have hend : stop.toInt.toNat ≤ position.toInt.toNat + (gap.toNat + 1) := by
      refine Nat.le_of_not_lt fun hinside => ?_
      have hstop := stop.toInt_lt
      obtain ⟨next, hword, _⟩ := exists_exactInt64? (n := following.toInt + gap.toNat) (by omega)
        (by omega)
      rw [hword] at hnext
      cases hnext
    rw [range'_stride_of_lt (by omega), range'_stride_of_le hend]
    simp [hhere]
  | case3 position hbefore hrefused =>
    rw [Int64.lt_iff_toInt_lt] at hbefore
    have hstop := stop.toInt_lt
    obtain ⟨index, hindex, _⟩ := exists_exactUInt64? hposition
    obtain ⟨following, hfollowing, _⟩ := exists_exactInt64? (n := position.toInt + 1) (by omega)
      (by omega)
    exact absurd hfollowing (hrefused index following hindex)
  | case4 position hbefore =>
    rw [Int64.lt_iff_toInt_lt] at hbefore
    rw [range'_stride_of_le (by omega)]
    rfl

/-! ## Slices -/

variable {length : Int64}

theorem toInt_max (left right : Int64) : (max left right).toInt = max left.toInt right.toInt := by
  change (if left ≤ right then right else left).toInt = _
  split <;> rename_i horder <;> rw [Int64.le_iff_toInt_le] at horder <;> omega

theorem toInt_min (left right : Int64) : (min left right).toInt = min left.toInt right.toInt := by
  change (if left ≤ right then left else right).toInt = _
  split <;> rename_i horder <;> rw [Int64.le_iff_toInt_le] at horder <;> omega

/-- A bound is resolved in words: its sum with a length is a word. -/
theorem bound?_eq (hlength : 0 ≤ length.toInt) (bound : Int64) :
    ∃ position, bound? length bound = some position ∧
      position.toInt = resolveBound length.toInt.toNat bound := by
  have hlow := bound.le_toInt
  have hhigh := length.toInt_lt
  have hbefore : bound < 0 ↔ bound.toInt < 0 := Int64.lt_iff_toInt_lt
  rw [← SliceBounds.resolved_eq, SliceBounds.resolved, bound?]
  by_cases hnegative : bound.toInt < 0
  · obtain ⟨sum, hsum, hexact⟩ := exists_exactInt64? (n := length.toInt + bound.toInt) (by omega)
      (by omega)
    rw [if_pos (hbefore.mpr hnegative), if_pos hnegative, hsum]
    refine ⟨max sum 0, rfl, ?_⟩
    rw [toInt_max, hexact, Int64.toInt_zero]
    omega
  · rw [if_neg fun h => hnegative (hbefore.mp h), if_neg hnegative]
    refine ⟨min bound length, rfl, ?_⟩
    rw [toInt_min]
    omega

theorem start_eq (hlength : 0 ≤ length.toInt) (start : Option Int64) :
    ∃ low, start.elim (some 0) (bound? length) = some low ∧
      low.toInt = sliceStart start length.toInt.toNat := by
  cases start with
  | none => exact ⟨0, rfl, rfl⟩
  | some bound => exact bound?_eq hlength bound

theorem stop_eq (hlength : 0 ≤ length.toInt) (stop : Option Int64) :
    ∃ high, stop.elim (some length) (bound? length) = some high ∧
      high.toInt = sliceStop stop length.toInt.toNat := by
  cases stop with
  | none => exact ⟨length, rfl, (Int.toNat_of_nonneg hlength).symm⟩
  | some bound => exact bound?_eq hlength bound

/-- The step is a positive word. -/
theorem toInt_step (step : Option Int64) :
    ((step.filter (0 < ·)).getD 1).toInt = sliceStep step := by
  cases step with
  | none => rfl
  | some word =>
    have hpositive : 0 < word ↔ 0 < word.toInt := Int64.lt_iff_toInt_lt
    rw [sliceStep, Option.filter_some]
    by_cases hword : 0 < word.toInt
    · rw [if_pos (decide_eq_true (hpositive.mpr hword)), if_pos hword, Option.getD_some]
      omega
    · rw [if_neg (by simp [hpositive, hword]), if_neg hword]
      rfl

/-- A slice that is resolved in words selects the positions that it selects over the integers. -/
theorem positions?_eq (hlength : 0 ≤ length.toInt) (start stop step : Option Int64) :
    (positions? start stop step length).map (List.map UInt64.toNat) =
      some (sliceIndices start stop step length.toInt.toNat) := by
  have hword := length.toInt_lt
  have hcounted : countedLength length.toInt.toNat = length.toInt.toNat := by
    rw [countedLength]
    omega
  have hpositive := sliceStep_pos step
  have hstep := toInt_step step
  obtain ⟨low, hlow, hbegins⟩ := start_eq hlength start
  obtain ⟨high, hhigh, hends⟩ := stop_eq hlength stop
  have hnonneg : 0 ≤ ((step.filter (0 < ·)).getD 1).toInt := by omega
  obtain ⟨width, hwidth, hsame⟩ := exists_exactUInt64? hnonneg
  -- One is taken from the step before the walk, which adds it again when it passes a position.
  have hgap : exactUInt64? (width.toNat - 1) = some (width - 1) := by
    have hone : 1 ≤ width := by
      rw [UInt64.le_iff_toNat_le, UInt64.toNat_one]
      omega
    rw [exactUInt64?_eq_some_iff, UInt64.toNat_sub_of_le _ _ hone, UInt64.toNat_one]
    omega
  have hpassed : (width - 1).toNat = sliceStep step - 1 := by
    have := exactUInt64?_eq_some_iff.mp hgap
    omega
  have hwalk : positions? start stop step length = walk? high (width - 1) low := by
    simp only [positions?, hlow, hhigh, hwidth, hgap, Option.bind_eq_bind, Option.bind_some]
  rw [hwalk, walk?_eq _ (by omega), hpassed, hbegins, hends, Nat.sub_add_cancel hpositive,
    sliceIndices, hcounted]
  rfl

end SliceWords

/-! ## What a slice selects -/

/-- A slice of a list selects, in ascending order and once each, the positions between its bounds that
are a whole number of steps from the first.  They lie inside the list, and are worked out in words
without an overflow. -/
theorem Segment.sliceIndices?_exact (start stop step : Option Int64) {length : Nat}
    (hlength : length ≤ 0x7fffffffffffffff) :
    ∃ positions, (Segment.slice start stop step).sliceIndices? length = some positions ∧
      positions.Pairwise (· < ·) ∧
      (∀ i : Int, (∃ position ∈ positions, (position : Int) = i) ↔
        SliceBounds.low start length ≤ i ∧ i < SliceBounds.high stop length ∧
          SliceBounds.stride step ∣ i - SliceBounds.low start length) ∧
      (∀ position ∈ positions, position < length) ∧
      (SliceWords.positions? start stop step (.ofNat length)).map (List.map UInt64.toNat) =
        some positions := by
  have hcounted : countedLength length = length := by
    rw [countedLength]
    omega
  have hword : (Int64.ofNat length).toInt = length := Int64.toInt_ofNat_of_lt (by omega)
  refine ⟨sliceIndices start stop step length, rfl, ?_, fun i => ?_, fun position => ?_, ?_⟩
  · exact List.pairwise_lt_range' _ (sliceStep_pos step)
  · have hmem (position : Nat) := @mem_sliceIndices_iff start stop step length position
    rw [hcounted] at hmem
    rw [SliceBounds.low_eq, SliceBounds.high_eq, SliceBounds.stride_eq]
    constructor
    · rintro ⟨position, hposition, rfl⟩
      obtain ⟨hlow, hhigh, hstride⟩ := (hmem position).mp hposition
      refine ⟨by omega, by omega, ?_⟩
      rw [← Int.natCast_sub hlow]
      exact Int.natCast_dvd_natCast.mpr hstride
    · rintro ⟨hlow, hhigh, hstride⟩
      obtain ⟨position, rfl⟩ := Int.eq_ofNat_of_zero_le (a := i) (by omega)
      have hfirst : sliceStart start length ≤ position := by omega
      rw [← Int.natCast_sub hfirst] at hstride
      exact ⟨position, (hmem position).mpr
        ⟨hfirst, by omega, Int.natCast_dvd_natCast.mp hstride⟩, rfl⟩
  · exact sliceIndices_lt_length
  · rw [SliceWords.positions?_eq (by omega), hword, Int.toNat_natCast]

/-- The last position but one of the longest list is selected alone by the longest step: the next one
is no word, and the walk ends there. -/
theorem Segment.sliceIndices?_exact_longest :
    0x7fffffffffffffff ≤ 0x7fffffffffffffff ∧
      (Segment.slice (some (-2)) none (some 0x7fffffffffffffff)).sliceIndices? 0x7fffffffffffffff =
        some [0x7ffffffffffffffd] ∧
      (SliceWords.positions? (some (-2)) none (some 0x7fffffffffffffff)
        (.ofNat 0x7fffffffffffffff)).map (List.map UInt64.toNat) = some [0x7ffffffffffffffd] := by
  have hselected : (Segment.slice (some (-2)) none (some 0x7fffffffffffffff)).sliceIndices?
      0x7fffffffffffffff = some [0x7ffffffffffffffd] := by
    decide
  obtain ⟨positions, hpositions, _, _, _, hwords⟩ := sliceIndices?_exact (some (-2)) none
    (some 0x7fffffffffffffff) (Nat.le_refl 0x7fffffffffffffff)
  rw [hselected] at hpositions
  exact ⟨Nat.le_refl _, hselected, hwords.trans hpositions.symm⟩

end NestedData
