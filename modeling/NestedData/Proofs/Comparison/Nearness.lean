import Mathlib.Data.List.Permutation
import NestedData.Proofs.Comparison.Agreement

/-!
# Values that agree within a tolerance

A tolerance lets two numbers agree that are a little apart, and leaves every other rule as it is.
What agrees without a tolerance therefore agrees with one, as far as equal numbers lie no distance
apart.  Equal finite numbers do, zeros of different signs among them.  The distance of an infinity from
itself is undefined, and what is undefined is not within any tolerance.

Main results:

- `Binary64.sub_of_equals`, `Binary64.sub_of_equals_infinite`: the difference of equal numbers.
- `Comparison.numbersAgree_within_iff`: equal numbers agree within a tolerance if they are finite.
- `Comparison.agree_within_iff`: values that agree do so within a tolerance, too, exactly if no
  infinity stands inside them.
-/

namespace NestedData

namespace Binary64

variable {left right : Binary64}

/-- The difference of equal finite numbers is a zero. -/
theorem sub_of_equals (hequal : left.equals right = true) (hfinite : left.isFinite = true) :
    ∃ negative, left.sub right = zero negative := by
  cases left with
  | nan | infinite => cases hfinite
  | finite leftSign mantissa exponent =>
    cases right with
    | nan | infinite => cases hequal
    | finite rightSign other otherExponent =>
      have hunits : unitsOf leftSign mantissa exponent - unitsOf rightSign other otherExponent = 0 :=
        Int.sub_eq_zero.mpr (beq_iff_eq.mp hequal)
      exact ⟨leftSign && !rightSign, by simp only [sub, hunits, if_true]⟩

/-- The difference of equal infinities is undefined. -/
theorem sub_of_equals_infinite (hequal : left.equals right = true)
    (hinfinite : left.isFinite = false) : left.sub right = .nan := by
  cases left with
  | nan => cases hequal
  | finite => cases hinfinite
  | infinite leftSign =>
    cases right with
    | nan | finite => cases hequal
    | infinite rightSign => exact if_pos (beq_iff_eq.mp hequal)

end Binary64

/-! ## Infinities inside values -/

namespace Value

/-- An infinity stands somewhere inside the value, hidden fields and what references refer to
included. -/
def HoldsInfinity (value : Value) : Prop :=
  ∃ negative, Occurs (.float (.infinite negative)) value

theorem not_holdsInfinity_nilRef : ¬Value.nilRef.HoldsInfinity :=
  nofun

/-- Of the numbers that equal something, the infinities are infinite. -/
theorem holdsInfinity_float_iff {number : Binary64} (hnumber : number ≠ .nan) :
    (Value.float number).HoldsInfinity ↔ number.isFinite = false := by
  constructor
  · rintro ⟨negative, ⟨⟩⟩
    rfl
  · intro hinfinite
    cases number with
    | nan => exact absurd rfl hnumber
    | finite => cases hinfinite
    | infinite negative => exact ⟨negative, .self⟩

theorem holdsInfinity_list_iff {sequence : Sequence Value} :
    (Value.list sequence).HoldsInfinity ↔ ∃ item ∈ sequence.items, item.HoldsInfinity := by
  constructor
  · rintro ⟨negative, _ | ⟨hitem, hinside⟩⟩
    exact ⟨_, hitem, negative, hinside⟩
  · rintro ⟨item, hitem, negative, hinside⟩
    exact ⟨negative, .item hitem hinside⟩

theorem holdsInfinity_map_iff {entries : Entries Value} :
    (Value.map entries).HoldsInfinity ↔ ∃ entry ∈ entries, entry.2.HoldsInfinity := by
  constructor
  · rintro ⟨negative, _ | _ | ⟨hentry, hinside⟩⟩
    exact ⟨_, hentry, negative, hinside⟩
  · rintro ⟨entry, hentry, negative, hinside⟩
    exact ⟨negative, .entry hentry hinside⟩

theorem holdsInfinity_record_iff {aggregate : Record Value} :
    (Value.record aggregate).HoldsInfinity ↔
      ∃ field ∈ aggregate.fields, field.value.HoldsInfinity := by
  constructor
  · rintro ⟨negative, _ | _ | _ | ⟨hfield, hinside⟩⟩
    exact ⟨_, hfield, negative, hinside⟩
  · rintro ⟨field, hfield, negative, hinside⟩
    exact ⟨negative, .field hfield hinside⟩

theorem holdsInfinity_ref_iff {referent : Value} :
    (Value.ref referent).HoldsInfinity ↔ referent.HoldsInfinity := by
  constructor
  · rintro ⟨negative, _ | _ | _ | _ | hinside⟩
    exact ⟨negative, hinside⟩
  · rintro ⟨negative, hinside⟩
    exact ⟨negative, .referent hinside⟩

end Value

/-- Where the members of related rows are related in another way exactly if the first has a
property, the rows are exactly if all members of the first have it. -/
theorem forall₂_iff_of_related {α β : Type} {related closer : α → β → Prop} {property : α → Prop}
    {first : List α} {second : List β} (hrelated : List.Forall₂ related first second)
    (hcloser : ∀ one ∈ first, ∀ other, related one other → (closer one other ↔ property one)) :
    List.Forall₂ closer first second ↔ ∀ one ∈ first, property one := by
  induction hrelated with
  | nil => simp
  | cons hhead _ ih =>
    rw [List.forall₂_cons, List.forall_mem_cons, hcloser _ List.mem_cons_self _ hhead,
      ih fun one hone => hcloser one (List.mem_cons_of_mem _ hone)]

/-! ## Comparing with a tolerance -/

namespace Comparison

open Value

variable {tolerance : Binary64} {left right : Value}

/-- The comparison that lets numbers lie a tolerance apart and replaces no rule. -/
def within (tolerance : Binary64) : Comparison :=
  { tolerance := some tolerance }

instance : (within tolerance).KeepsRules :=
  keepsRules_of_none (fun _ => rfl) fun _ => rfl

/-- Equal numbers agree within a tolerance exactly if they are finite. -/
theorem numbersAgree_within_iff (htolerance : (Binary64.zero false).atMost tolerance = true)
    {number other : Binary64} (hequal : number.equals other = true) :
    (within tolerance).numbersAgree number other = true ↔ number.isFinite = true := by
  rw [numbersAgree, within]
  cases hfinite : number.isFinite with
  | true =>
    obtain ⟨negative, hsub⟩ := Binary64.sub_of_equals hequal hfinite
    simpa [hsub, Binary64.zero, Binary64.abs] using htolerance
  | false => simp [Binary64.sub_of_equals_infinite hequal hfinite, Binary64.abs, Binary64.atMost]

/-- Values that agree without a tolerance agree with every tolerance that is not negative, unless an
infinity stands somewhere inside them: then they agree with none. -/
theorem agree_within_iff (htolerance : (Binary64.zero false).atMost tolerance = true)
    (hagree : plain.agree left right = true) :
    (within tolerance).agree left right = true ↔ ¬left.HoldsInfinity := by
  induction left using Value.induct generalizing right with
  | null | nilRef =>
    rw [agree_of_isAbsent rfl] at hagree ⊢
    exact iff_of_true hagree nofun
  | bool truth => exact iff_of_true (agree_bool_iff.mpr (agree_bool_iff.mp hagree)) nofun
  | int number => exact iff_of_true (agree_int_iff.mpr (agree_int_iff.mp hagree)) nofun
  | text content => exact iff_of_true (agree_text_iff.mpr (agree_text_iff.mp hagree)) nofun
  | float number =>
    obtain ⟨other, hother, hequal⟩ := agree_float_iff.mp hagree
    have hnumber : number ≠ .nan := by
      rintro rfl
      cases hequal
    rw [agree_number_iff, hother, holdsInfinity_float_iff hnumber, Bool.not_eq_false]
    simpa using numbersAgree_within_iff htolerance hequal
  | ref referent ih =>
    rw [agree_ref_left] at hagree ⊢
    rw [holdsInfinity_ref_iff]
    exact ih hagree
  | list sequence ih =>
    obtain ⟨other, hother, hextent, hitems⟩ := agree_list_iff.mp hagree
    have hnear := forall₂_iff_of_related hitems fun item hitem part =>
      ih item (Array.mem_toList_iff.mp hitem)
    rw [agree_list_iff, hother, holdsInfinity_list_iff]
    simpa [hextent] using hnear
  | map entries ih =>
    obtain ⟨others, hother, hlength, hentries⟩ := agree_map_iff.mp hagree
    have hnear (entry : String × Value) (hentry : entry ∈ entries) :
        (∃ other, Entries.get? others entry.1 = some other ∧
          (within tolerance).agree entry.2 other = true) ↔ ¬entry.2.HoldsInfinity := by
      obtain ⟨other, hfound, hvalue⟩ := hentries entry hentry
      rw [hfound, ← ih entry hentry hvalue]
      simp
    rw [agree_map_iff, hother, holdsInfinity_map_iff]
    simpa [hlength] using forall₂_congr hnear
  | record aggregate ih =>
    obtain ⟨other, hother, hname, hfields⟩ := agree_record_iff.mp hagree
    have hnear := forall₂_iff_of_related hfields fun field hfield part hpart =>
      (and_iff_right hpart.1).trans ((and_iff_right hpart.2.1).trans (ih field hfield hpart.2.2))
    rw [agree_record_iff, hother, holdsInfinity_record_iff]
    simpa [hname] using hnear

/-- With a negative zero as the tolerance, two samples agree whose numbers are zeros of different
signs, in a hidden field and behind a reference. -/
theorem agree_within_samples :
    let sample (number : Binary64) : Value := .record {
      name := "Sample", fields := [{ name := "raw", value := .float number, exported := false }] }
    let left : Value := .map [("low", sample (.zero true)), ("all", .ofItems #[.float .one, .nilRef])]
    let right : Value :=
      .ref (.map [("all", .ofItems #[.float .one, .null]), ("low", .ref (sample (.zero false)))])
    (Binary64.zero false).atMost (.zero true) = true ∧ plain.agree left right = true ∧
      left.identical right = false ∧ ¬left.HoldsInfinity ∧
      (within (.zero true)).agree left right = true := by
  intro sample left right
  have htolerance : (Binary64.zero false).atMost (.zero true) = true := by decide
  have hagree : plain.agree left right = true := by
    simp only [sample, left, right]
    cbv
  have hidentical : left.identical right = false := by
    simp only [sample, left, right]
    cbv
  have hfinite : ¬left.HoldsInfinity := by
    simp [left, sample, ofItems, Sequence.growable, holdsInfinity_map_iff, holdsInfinity_record_iff,
      holdsInfinity_list_iff, holdsInfinity_float_iff, Binary64.zero, Binary64.one,
      Binary64.isFinite, not_holdsInfinity_nilRef]
  exact ⟨htolerance, hagree, hidentical, hfinite, (agree_within_iff htolerance hagree).mpr hfinite⟩

/-- A list with an infinity in it agrees with itself, and does not within a distance of one. -/
theorem agree_within_loses_infinity :
    let value : Value := .ofItems #[.float (.infinite false)]
    (Binary64.zero false).atMost .one = true ∧ plain.agree value value = true ∧
      (within .one).agree value value = false := by
  intro value
  refine ⟨by decide, ?_, ?_⟩
  · simp only [value]
    cbv
  · simp only [value]
    cbv

end Comparison

end NestedData
