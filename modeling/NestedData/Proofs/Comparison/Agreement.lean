import Mathlib.Data.List.Forall2
import Mathlib.Data.List.Perm.Subperm
import NestedData.Comparison

/-!
# What agrees with a value

Without replaced rules, what agrees with a value is said by the value's outermost shape: something
that is, at the end of its references, of the same shape and agrees part by part.  Only between two
numbers does it matter whether there is a tolerance.  This module has one statement for every shape,
so that the laws of the comparison follow from these by induction on one side.

Main results:

- `Value.Occurs`, `Value.HasDistinctKeys`: what stands inside a value, and what its maps promise.
- `Comparison.KeepsRules`: what is asked of a comparison for this.
- `Comparison.agree_target_left`, `Comparison.agree_target_right`: references on both sides are
  followed.
- `Comparison.agree_list_iff`, `agree_map_iff`, `agree_record_iff`: what agrees with a container.
- `Comparison.agree_map_iff_of_nodup`: with distinct keys, maps agree if what they have under every
  key does.
-/

namespace NestedData

/-! ## Values inside values -/

namespace Value

/-- A value stands somewhere inside another or is that value, hidden fields and what references
refer to included. -/
inductive Occurs (part : Value) : Value → Prop
  /-- It is the value. -/
  | self : Occurs part part
  /-- It stands inside an element. -/
  | item {sequence : Sequence Value} {item : Value} (hitem : item ∈ sequence.items)
      (hinside : Occurs part item) : Occurs part (.list sequence)
  /-- It stands inside an entry. -/
  | entry {entries : Entries Value} {entry : String × Value} (hentry : entry ∈ entries)
      (hinside : Occurs part entry.2) : Occurs part (.map entries)
  /-- It stands inside a field, hidden or not. -/
  | field {aggregate : Record Value} {field : Field Value} (hfield : field ∈ aggregate.fields)
      (hinside : Occurs part field.value) : Occurs part (.record aggregate)
  /-- It stands inside what a reference refers to. -/
  | referent {referent : Value} (hinside : Occurs part referent) : Occurs part (.ref referent)

/-- Every map inside a value has distinct keys. -/
def HasDistinctKeys (value : Value) : Prop :=
  ∀ entries : Entries Value, Occurs (.map entries) value → (Entries.keys entries).Nodup

@[simp]
theorem hasDistinctKeys_list_iff {sequence : Sequence Value} :
    (Value.list sequence).HasDistinctKeys ↔ ∀ item ∈ sequence.items, item.HasDistinctKeys := by
  constructor
  · exact fun hkeys item hitem entries hinside => hkeys entries (.item hitem hinside)
  · rintro hitems entries (_ | ⟨hitem, hinside⟩)
    exact hitems _ hitem entries hinside

/-- The maps in a map are the map and those in its entries. -/
@[simp]
theorem hasDistinctKeys_map_iff {entries : Entries Value} :
    (Value.map entries).HasDistinctKeys ↔
      (Entries.keys entries).Nodup ∧ ∀ entry ∈ entries, entry.2.HasDistinctKeys := by
  constructor
  · exact fun hkeys => ⟨hkeys entries .self,
      fun entry hentry others hinside => hkeys others (.entry hentry hinside)⟩
  · rintro ⟨hkeys, hvalues⟩ others (_ | _ | ⟨hentry, hinside⟩)
    · exact hkeys
    · exact hvalues _ hentry others hinside

@[simp]
theorem hasDistinctKeys_record_iff {aggregate : Record Value} :
    (Value.record aggregate).HasDistinctKeys ↔
      ∀ field ∈ aggregate.fields, field.value.HasDistinctKeys := by
  constructor
  · exact fun hkeys field hfield entries hinside => hkeys entries (.field hfield hinside)
  · rintro hvalues entries (_ | _ | _ | ⟨hfield, hinside⟩)
    exact hvalues _ hfield entries hinside

@[simp]
theorem hasDistinctKeys_ref_iff {referent : Value} :
    (Value.ref referent).HasDistinctKeys ↔ referent.HasDistinctKeys := by
  constructor
  · exact fun hkeys entries hinside => hkeys entries (.referent hinside)
  · rintro hkeys entries (_ | _ | _ | _ | hinside)
    exact hkeys entries hinside

theorem HasDistinctKeys.target {value : Value} (hvalue : value.HasDistinctKeys) :
    value.target.HasDistinctKeys := by
  induction value using induct with
  | ref referent ih => exact ih (hasDistinctKeys_ref_iff.mp hvalue)
  | _ => exact hvalue

end Value

namespace Comparison

open Value

/-- A comparison that replaces no rule: whether two values agree depends on their shapes alone. -/
class KeepsRules (comparison : Comparison) : Prop where
  /-- No other rule decides about two values. -/
  ruleFor?_eq_none : ∀ left right, comparison.ruleFor? left right = none

attribute [simp] KeepsRules.ruleFor?_eq_none

variable {comparison : Comparison} {left right : Value}

/-! ## References and options -/

@[simp]
theorem agree_ref_right (comparison : Comparison) (left right : Value) :
    comparison.agree left (.ref right) = comparison.agree left right := by
  induction left using Value.induct with
  | ref referent ih => rw [agree_ref_left, agree_ref_left, ih]
  | _ =>
    rw [agree]
    simp

/-- The end of references on the right decides. -/
theorem agree_target_right (comparison : Comparison) (left right : Value) :
    comparison.agree left right.target = comparison.agree left right := by
  induction right using Value.induct with
  | ref referent ih => rw [Value.target, ih, agree_ref_right]
  | _ => rfl

/-- The end of references on the left decides. -/
theorem agree_target_left (comparison : Comparison) (left right : Value) :
    comparison.agree left.target right = comparison.agree left right := by
  induction left using Value.induct with
  | ref referent ih => rw [Value.target, ih, agree_ref_left]
  | _ => rfl

/-- Without rules for kinds and for types of records, none is replaced. -/
theorem keepsRules_of_none (hkinds : ∀ kind, comparison.kindRule? kind = none)
    (hrecords : ∀ name, comparison.recordRule? name = none) : comparison.KeepsRules where
  ruleFor?_eq_none left right := by
    have hshared : comparison.sharedRecordRule? left right = none := by
      unfold sharedRecordRule?
      split <;> simp [hrecords]
    rw [ruleFor?, hshared]
    simp [hkinds]

instance : plain.KeepsRules :=
  keepsRules_of_none (fun _ => rfl) fun _ => rfl

section Shapes

variable [comparison.KeepsRules]

/-! ## Scalars and nothing -/

/-- Absent values agree with absent values. -/
theorem agree_of_isAbsent (habsent : left.isAbsent = true) :
    comparison.agree left right = right.target.isAbsent := by
  rw [← agree_target_right]
  cases left with
  | null | nilRef =>
    cases h : right.target with
    | ref referent => exact absurd h (Value.target_ne_ref _ _)
    | _ => rw [agree] <;> simp [Value.isAbsent]
  | _ => cases habsent

/-- A truth value agrees with itself. -/
theorem agree_bool_iff {truth : Bool} :
    comparison.agree (.bool truth) right = true ↔ right.target = .bool truth := by
  rw [← agree_target_right]
  cases h : right.target with
  | ref referent => exact absurd h (Value.target_ne_ref _ _)
  | bool other =>
    rw [agree]
    simp only [KeepsRules.ruleFor?_eq_none, beq_iff_eq, Value.bool.injEq]
    exact eq_comm
  | _ => rw [agree] <;> simp [Value.isAbsent]

/-- An integer agrees with itself. -/
theorem agree_int_iff {number : Int64} :
    comparison.agree (.int number) right = true ↔ right.target = .int number := by
  rw [← agree_target_right]
  cases h : right.target with
  | ref referent => exact absurd h (Value.target_ne_ref _ _)
  | int other =>
    rw [agree]
    simp only [KeepsRules.ruleFor?_eq_none, beq_iff_eq, Value.int.injEq]
    exact eq_comm
  | _ => rw [agree] <;> simp [Value.isAbsent]

/-- A text agrees with itself. -/
theorem agree_text_iff {content : String} :
    comparison.agree (.text content) right = true ↔ right.target = .text content := by
  rw [← agree_target_right]
  cases h : right.target with
  | ref referent => exact absurd h (Value.target_ne_ref _ _)
  | text other =>
    rw [agree]
    simp only [KeepsRules.ruleFor?_eq_none, beq_iff_eq, Value.text.injEq]
    exact eq_comm
  | _ => rw [agree] <;> simp [Value.isAbsent]

/-- A number agrees with numbers that are near enough. -/
theorem agree_number_iff {number : Binary64} :
    comparison.agree (.float number) right = true ↔
      ∃ other, right.target = .float other ∧ comparison.numbersAgree number other = true := by
  rw [← agree_target_right]
  cases h : right.target with
  | ref referent => exact absurd h (Value.target_ne_ref _ _)
  | float other =>
    rw [agree]
    simp
  | _ => rw [agree] <;> simp [Value.isAbsent]

/-! ## Containers -/

/-- A list agrees with lists of its extent whose elements agree with its own. -/
theorem agree_list_iff {sequence : Sequence Value} :
    comparison.agree (.list sequence) right = true ↔
      ∃ other, right.target = .list other ∧ sequence.extent = other.extent ∧
        List.Forall₂ (fun item part => comparison.agree item part = true) sequence.items.toList
          other.items.toList := by
  rw [← agree_target_right]
  cases h : right.target with
  | ref referent => exact absurd h (Value.target_ne_ref _ _)
  | list other =>
    rw [agree]
    simp [List.forall₂_iff_zip, Sequence.size, and_assoc]
  | _ => rw [agree] <;> simp [Value.isAbsent]

/-- Two maps agree if they have equally many entries and each on the left agrees with what is found
on the right. -/
theorem agree_map (entries others : Entries Value) :
    comparison.agree (.map entries) (.map others) =
      (entries.length == others.length && entries.all fun entry =>
        (Entries.get? others entry.1).any (comparison.agree entry.2)) := by
  rw [agree]
  simp only [KeepsRules.ruleFor?_eq_none]
  refine congrArg (and _) (Value.all_attach entries fun entry => ?_)
  cases Entries.get? others entry.1.1 <;> rfl

/-- A map agrees with maps of as many entries that have something that agrees under each of its
keys. -/
theorem agree_map_iff {entries : Entries Value} :
    comparison.agree (.map entries) right = true ↔
      ∃ others : Entries Value, right.target = .map others ∧ entries.length = others.length ∧
        ∀ entry ∈ entries, ∃ other, Entries.get? others entry.1 = some other ∧
          comparison.agree entry.2 other = true := by
  rw [← agree_target_right]
  cases h : right.target with
  | ref referent => exact absurd h (Value.target_ne_ref _ _)
  | map others =>
    rw [agree_map]
    simp [Option.any_eq_true]
  | _ => rw [agree] <;> simp [Value.isAbsent]

/-- A record agrees with records of its type with the same declarations, mutability aside, whose
fields agree with its own. -/
theorem agree_record_iff {aggregate : Record Value} :
    comparison.agree (.record aggregate) right = true ↔
      ∃ other : Record Value, right.target = .record other ∧ aggregate.name = other.name ∧
        List.Forall₂ (fun field part => field.name = part.name ∧ field.exported = part.exported ∧
          comparison.agree field.value part.value = true) aggregate.fields other.fields := by
  rw [← agree_target_right]
  cases h : right.target with
  | ref referent => exact absurd h (Value.target_ne_ref _ _)
  | record other =>
    rw [agree]
    simp [List.forall₂_iff_zip, and_assoc]
  | _ => rw [agree] <;> simp [Value.isAbsent]

end Shapes

theorem agree_float_iff {number : Binary64} :
    plain.agree (.float number) right = true ↔
      ∃ other, right.target = .float other ∧ number.equals other = true :=
  agree_number_iff

/-- With distinct keys, maps agree if under every key they have the same: nothing, or what agrees.
A key of the second that the first lacks would make the second longer. -/
theorem agree_map_iff_of_nodup {entries : Entries Value} (hentries : (Entries.keys entries).Nodup)
    (hright : right.HasDistinctKeys) :
    plain.agree (.map entries) right = true ↔
      ∃ others : Entries Value, right.target = .map others ∧
        ∀ key, Option.Rel (fun value other => plain.agree value other = true)
          (Entries.get? entries key) (Entries.get? others key) := by
  have hothers {others : Entries Value} (htarget : right.target = .map others) :
      (Entries.keys others).Nodup := by
    have hdistinct := hright.target
    rw [htarget, hasDistinctKeys_map_iff] at hdistinct
    exact hdistinct.1
  rw [agree_map_iff]
  refine exists_congr fun others => and_congr_right fun htarget => ⟨?_, fun hrel => ⟨?_, ?_⟩⟩
  · rintro ⟨hlength, hall⟩ key
    have hsubset : Entries.keys entries ⊆ Entries.keys others := by
      intro name hname
      obtain ⟨entry, hentry, rfl⟩ := List.mem_map.mp hname
      obtain ⟨other, hother, _⟩ := hall entry hentry
      rw [← Entries.contains_iff_mem_keys, Entries.contains, hother]
      rfl
    have hperm : (Entries.keys entries).Perm (Entries.keys others) := by
      refine (List.subperm_of_subset hentries hsubset).perm_of_length_le ?_
      simp [Entries.keys, hlength]
    cases hvalue : Entries.get? entries key with
    | some value =>
      obtain ⟨other, hother, hagree⟩ := hall (key, value) (Entries.mem_of_get? hvalue)
      rw [hother]
      exact .some hagree
    | none =>
      have hmissing : key ∉ Entries.keys others := by
        rw [← hperm.mem_iff, ← Entries.contains_iff_mem_keys, Entries.contains, hvalue]
        exact Bool.false_ne_true
      rw [← Entries.contains_iff_mem_keys, Entries.contains, Option.not_isSome_iff_eq_none]
        at hmissing
      rw [hmissing]
      exact .none
  · have hsame (key : String) : key ∈ Entries.keys entries ↔ key ∈ Entries.keys others := by
      rw [← Entries.contains_iff_mem_keys, ← Entries.contains_iff_mem_keys, Entries.contains,
        Entries.contains]
      have hkey := hrel key
      cases hvalue : Entries.get? entries key <;> cases hother : Entries.get? others key <;>
        simp_all
    have hperm := (List.perm_ext_iff_of_nodup hentries (hothers htarget)).mpr hsame
    simpa [Entries.keys] using hperm.length_eq
  · intro entry hentry
    have hrel := hrel entry.1
    rw [Entries.get?_of_mem hentries hentry] at hrel
    cases hfound : Entries.get? others entry.1 with
    | none => simp [hfound] at hrel
    | some other =>
      rw [hfound, Option.rel_some_some] at hrel
      exact ⟨other, rfl, hrel⟩

end Comparison

end NestedData
