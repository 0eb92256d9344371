import Mathlib.Data.List.Permutation
import NestedData.Proofs.Comparison.Agreement
import NestedData.Proofs.Value.Congruence

/-!
# Laws of the structural comparison

Without a tolerance and without replaced rules, the comparison is symmetric and transitive, and a
value agrees with itself unless a not-a-number stands somewhere inside it.  It passes over
references, the two ways of being absent, the order of entries and the mutability of fields, at any
depth and on both sides.  On the left this is read off what a value of a shape agrees with; on the
right it follows by symmetry, which is where the keys of maps have to be distinct.

Main results:

- `Comparison.agree_comm`, `Comparison.agree_trans`: symmetry and transitivity.
- `Comparison.agree_self_iff`: what agrees with itself.
- `Comparison.agree_of_identical`: identical values agree.
- `Comparison.agree_congr`: what the comparison passes over.
- `Comparison.agree_laws`: all of these together.
-/

namespace NestedData

/-! ## Numbers and rows -/

theorem Binary64.equals_comm (first second : Binary64) :
    first.equals second = second.equals first := by
  cases first <;> cases second <;> first | rfl | exact Bool.beq_comm

theorem Binary64.equals_trans {first second third : Binary64} (hfirst : first.equals second = true)
    (hsecond : second.equals third = true) : first.equals third = true := by
  cases first <;> cases second <;> cases third <;> simp_all [equals]

section Rows

variable {α : Type} {related : α → α → Prop} {first second third : List α}

/-- Rows are related the other way round if their members are. -/
theorem forall₂_swap
    (hswap : ∀ one ∈ first, ∀ other ∈ second, related one other → related other one)
    (hall : List.Forall₂ related first second) : List.Forall₂ related second first := by
  induction hall with
  | nil => exact .nil
  | cons hhead _ ih =>
    refine .cons (hswap _ List.mem_cons_self _ List.mem_cons_self hhead) (ih ?_)
    exact fun one hone other hother =>
      hswap one (List.mem_cons_of_mem _ hone) other (List.mem_cons_of_mem _ hother)

/-- Rows are related in two stages if their members are. -/
theorem forall₂_trans (htrans : ∀ one ∈ first, ∀ {middle other},
      related one middle → related middle other → related one other)
    (hfirst : List.Forall₂ related first second) (hsecond : List.Forall₂ related second third) :
    List.Forall₂ related first third := by
  induction hfirst generalizing third with
  | nil => exact hsecond
  | cons hhead _ ih =>
    cases hsecond with
    | cons hnext hrest =>
      refine .cons (htrans _ List.mem_cons_self hhead hnext) (ih ?_ hrest)
      exact fun one hone => htrans one (List.mem_cons_of_mem _ hone)

/-- What a row is related to does not depend on a member that is replaced by one with the same
relations. -/
theorem forall₂_middle_congr {β : Type} {related : α → β → Prop} {old new : α}
    (hsame : ∀ part, related old part ↔ related new part) (before after : List α) (parts : List β) :
    List.Forall₂ related (before ++ old :: after) parts ↔
      List.Forall₂ related (before ++ new :: after) parts := by
  induction before generalizing parts with
  | nil => cases parts <;> simp [hsame]
  | cons head rest ih => cases parts <;> simp [ih]

end Rows

/-! ## What is passed over -/

namespace Value

/-- What the comparison passes over. -/
inductive Overlooked : Value → Value → Prop
  /-- A reference. -/
  | reference (value : Value) : Overlooked value (.ref value)
  /-- Which of the two ways of being absent it is. -/
  | nothing : Overlooked .null .nilRef
  /-- The order of entries. -/
  | entries {entries others : Entries Value} (hperm : List.Perm entries others) :
      Overlooked (.map entries) (.map others)
  /-- Whether a field may be written. -/
  | mutability (typeName : String) (before : List (Field Value)) (field : Field Value)
      (after : List (Field Value)) (mutable : Bool) :
      Overlooked (.record { name := typeName, fields := before ++ field :: after })
        (.record { name := typeName, fields := before ++ { field with mutable } :: after })

end Value

namespace Comparison

open Value

variable {first second third : Value}

/-! ## Symmetry and transitivity -/

/-- What agrees one way agrees the other way. -/
theorem agree_symm (hfirst : first.HasDistinctKeys) (hsecond : second.HasDistinctKeys)
    (hagree : plain.agree first second = true) : plain.agree second first = true := by
  have hdistinct := hsecond.target
  rw [← agree_target_left]
  induction first using Value.induct generalizing second with
  | null | nilRef =>
    rw [agree_of_isAbsent rfl] at hagree
    rw [agree_of_isAbsent hagree]
    rfl
  | bool truth =>
    rw [agree_bool_iff.mp hagree, agree_bool_iff]
    rfl
  | int number =>
    rw [agree_int_iff.mp hagree, agree_int_iff]
    rfl
  | text content =>
    rw [agree_text_iff.mp hagree, agree_text_iff]
    rfl
  | float number =>
    obtain ⟨other, htarget, hequal⟩ := agree_float_iff.mp hagree
    rw [htarget, agree_float_iff]
    exact ⟨number, rfl, by rwa [Binary64.equals_comm]⟩
  | ref referent ih =>
    rw [agree_ref_right]
    exact ih (hasDistinctKeys_ref_iff.mp hfirst) hsecond (by rwa [← agree_ref_left]) hdistinct
  | list sequence ih =>
    obtain ⟨other, htarget, hextent, hitems⟩ := agree_list_iff.mp hagree
    rw [htarget, hasDistinctKeys_list_iff] at hdistinct
    rw [htarget, agree_list_iff]
    refine ⟨sequence, rfl, hextent.symm,
      forall₂_swap (fun item hitem part hpart hmember => ?_) hitems⟩
    rw [Array.mem_toList_iff] at hitem hpart
    rw [← agree_target_left]
    exact ih item hitem (hasDistinctKeys_list_iff.mp hfirst item hitem) (hdistinct part hpart)
      hmember (hdistinct part hpart).target
  | map entries ih =>
    obtain ⟨hkeys, hvalues⟩ := hasDistinctKeys_map_iff.mp hfirst
    obtain ⟨others, htarget, hrel⟩ := (agree_map_iff_of_nodup hkeys hsecond).mp hagree
    rw [htarget, hasDistinctKeys_map_iff] at hdistinct
    rw [htarget, agree_map_iff_of_nodup hdistinct.1 hfirst]
    refine ⟨entries, rfl, fun key => ?_⟩
    have hkey := hrel key
    cases hvalue : Entries.get? entries key <;> cases hother : Entries.get? others key <;>
      rw [hvalue, hother] at hkey
    · exact .none
    · cases hkey
    · cases hkey
    · rename_i value other
      have hmem := Entries.mem_of_get? hvalue
      have hdistinctOther := hdistinct.2 _ (Entries.mem_of_get? hother)
      rw [Option.rel_some_some] at hkey ⊢
      rw [← agree_target_left]
      exact ih _ hmem (hvalues _ hmem) hdistinctOther hkey hdistinctOther.target
  | record aggregate ih =>
    obtain ⟨other, htarget, hname, hfields⟩ := agree_record_iff.mp hagree
    rw [htarget, hasDistinctKeys_record_iff] at hdistinct
    rw [htarget, agree_record_iff]
    refine ⟨aggregate, rfl, hname.symm,
      forall₂_swap (fun field hfield part hpart hmember => ?_) hfields⟩
    obtain ⟨hfieldName, hexported, hvalue⟩ := hmember
    refine ⟨hfieldName.symm, hexported.symm, ?_⟩
    rw [← agree_target_left]
    exact ih field hfield (hasDistinctKeys_record_iff.mp hfirst field hfield) (hdistinct part hpart)
      hvalue (hdistinct part hpart).target

/-- The sides of the comparison may change places. -/
theorem agree_comm (hfirst : first.HasDistinctKeys) (hsecond : second.HasDistinctKeys) :
    plain.agree first second = plain.agree second first :=
  Bool.eq_iff_iff.mpr ⟨agree_symm hfirst hsecond, agree_symm hsecond hfirst⟩

/-- What agrees with something that agrees with a third value agrees with the third. -/
theorem agree_trans (hfirst : plain.agree first second = true)
    (hsecond : plain.agree second third = true) : plain.agree first third = true := by
  rw [← agree_target_left] at hsecond
  induction first using Value.induct generalizing second third with
  | null | nilRef =>
    rw [agree_of_isAbsent rfl] at hfirst ⊢
    rwa [agree_of_isAbsent hfirst] at hsecond
  | bool truth => rwa [agree_bool_iff.mp hfirst] at hsecond
  | int number => rwa [agree_int_iff.mp hfirst] at hsecond
  | text content => rwa [agree_text_iff.mp hfirst] at hsecond
  | float number =>
    obtain ⟨middle, hmiddle, hequal⟩ := agree_float_iff.mp hfirst
    rw [hmiddle] at hsecond
    obtain ⟨other, hother, hnext⟩ := agree_float_iff.mp hsecond
    exact agree_float_iff.mpr ⟨other, hother, Binary64.equals_trans hequal hnext⟩
  | ref referent ih =>
    rw [agree_ref_left] at hfirst ⊢
    exact ih hfirst hsecond
  | list sequence ih =>
    obtain ⟨middle, hmiddle, hextent, hitems⟩ := agree_list_iff.mp hfirst
    rw [hmiddle] at hsecond
    obtain ⟨other, hother, hnextExtent, hnext⟩ := agree_list_iff.mp hsecond
    refine agree_list_iff.mpr ⟨other, hother, hextent.trans hnextExtent,
      forall₂_trans (fun item hitem middle other hone htwo => ?_) hitems hnext⟩
    rw [← agree_target_left] at htwo
    exact ih item (Array.mem_toList_iff.mp hitem) hone htwo
  | map entries ih =>
    obtain ⟨middles, hmiddle, hlength, hentries⟩ := agree_map_iff.mp hfirst
    rw [hmiddle] at hsecond
    obtain ⟨others, hother, hnextLength, hnext⟩ := agree_map_iff.mp hsecond
    refine agree_map_iff.mpr ⟨others, hother, hlength.trans hnextLength, fun entry hentry => ?_⟩
    obtain ⟨middle, hmember, hone⟩ := hentries entry hentry
    obtain ⟨other, hfound, htwo⟩ := hnext _ (Entries.mem_of_get? hmember)
    rw [← agree_target_left] at htwo
    exact ⟨other, hfound, ih entry hentry hone htwo⟩
  | record aggregate ih =>
    obtain ⟨middle, hmiddle, hname, hfields⟩ := agree_record_iff.mp hfirst
    rw [hmiddle] at hsecond
    obtain ⟨other, hother, hnextName, hnext⟩ := agree_record_iff.mp hsecond
    refine agree_record_iff.mpr ⟨other, hother, hname.trans hnextName,
      forall₂_trans (fun field hfield middle other hone htwo => ?_) hfields hnext⟩
    obtain ⟨hfieldName, hexported, hvalue⟩ := hone
    obtain ⟨hnextFieldName, hnextExported, hnextValue⟩ := htwo
    rw [← agree_target_left] at hnextValue
    exact ⟨hfieldName.trans hnextFieldName, hexported.trans hnextExported,
      ih field hfield hvalue hnextValue⟩

/-! ## A value and itself -/

/-- A value agrees with itself exactly if no not-a-number stands inside it. -/
theorem agree_self_iff (hfirst : first.HasDistinctKeys) :
    plain.agree first first = true ↔ ¬Occurs (.float .nan) first := by
  induction first using Value.induct with
  | null | nilRef =>
    rw [agree_of_isAbsent rfl]
    exact iff_of_true rfl nofun
  | bool truth => exact iff_of_true (agree_bool_iff.mpr rfl) nofun
  | int number => exact iff_of_true (agree_int_iff.mpr rfl) nofun
  | text content => exact iff_of_true (agree_text_iff.mpr rfl) nofun
  | float number =>
    have hequal : plain.agree (.float number) (.float number) = true ↔ number ≠ .nan := by
      rw [agree_float_iff, ← Binary64.equals_self_iff]
      simp [Value.target]
    rw [hequal]
    refine not_congr ⟨?_, ?_⟩
    · rintro rfl
      exact .self
    · rintro ⟨⟩
      rfl
  | ref referent ih =>
    rw [agree_ref_left, agree_ref_right, ih (hasDistinctKeys_ref_iff.mp hfirst)]
    refine not_congr ⟨.referent, ?_⟩
    rintro (_ | _ | _ | _ | hinside)
    exact hinside
  | list sequence ih =>
    have hself : plain.agree (.list sequence) (.list sequence) = true ↔
        ∀ item ∈ sequence.items, plain.agree item item = true := by
      rw [agree_list_iff]
      simp [Value.target, List.forall₂_same]
    have hitems := hasDistinctKeys_list_iff.mp hfirst
    rw [hself]
    constructor
    · rintro hall (_ | ⟨hitem, hinside⟩)
      exact (ih _ hitem (hitems _ hitem)).mp (hall _ hitem) hinside
    · exact fun hnone item hitem =>
        (ih item hitem (hitems item hitem)).mpr fun hinside => hnone (.item hitem hinside)
  | map entries ih =>
    obtain ⟨hkeys, hvalues⟩ := hasDistinctKeys_map_iff.mp hfirst
    have hself : plain.agree (.map entries) (.map entries) = true ↔
        ∀ entry ∈ entries, plain.agree entry.2 entry.2 = true := by
      rw [agree_map, beq_self_eq_true, Bool.true_and, List.all_eq_true]
      refine forall₂_congr fun entry hentry => ?_
      rw [Entries.get?_of_mem hkeys hentry, Option.any_some]
    rw [hself]
    constructor
    · rintro hall (_ | _ | ⟨hentry, hinside⟩)
      exact (ih _ hentry (hvalues _ hentry)).mp (hall _ hentry) hinside
    · exact fun hnone entry hentry =>
        (ih entry hentry (hvalues entry hentry)).mpr fun hinside => hnone (.entry hentry hinside)
  | record aggregate ih =>
    have hself : plain.agree (.record aggregate) (.record aggregate) = true ↔
        ∀ field ∈ aggregate.fields, plain.agree field.value field.value = true := by
      rw [agree_record_iff]
      simp [Value.target, List.forall₂_same]
    have hvalues := hasDistinctKeys_record_iff.mp hfirst
    rw [hself]
    constructor
    · rintro hall (_ | _ | _ | ⟨hfield, hinside⟩)
      exact (ih _ hfield (hvalues _ hfield)).mp (hall _ hfield) hinside
    · exact fun hnone field hfield =>
        (ih field hfield (hvalues field hfield)).mpr fun hinside => hnone (.field hfield hinside)

/-- Identical values agree. -/
theorem agree_of_identical (hidentical : first.identical second = true) :
    plain.agree first second = true := by
  induction first using Value.induct generalizing second with
  | null | nilRef =>
    cases second with
    | null | nilRef =>
      rw [agree_of_isAbsent rfl]
      rfl
    | _ => simp [identical] at hidentical
  | bool truth =>
    cases second <;> simp_all [identical, agree_bool_iff, Value.target]
  | int number =>
    cases second <;> simp_all [identical, agree_int_iff, Value.target]
  | text content =>
    cases second <;> simp_all [identical, agree_text_iff, Value.target]
  | float number =>
    cases second <;> simp_all [identical, agree_float_iff, Value.target]
  | ref referent ih =>
    cases second with
    | ref other =>
      rw [identical] at hidentical
      rw [agree_ref_left, agree_ref_right]
      exact ih hidentical
    | _ => simp [identical] at hidentical
  | list sequence ih =>
    cases second with
    | list other =>
      simp only [identical_list, Bool.and_eq_true, beq_iff_eq, List.all_eq_true] at hidentical
      obtain ⟨⟨hextent, hsize⟩, hitems⟩ := hidentical
      refine agree_list_iff.mpr ⟨other, rfl, hextent, List.forall₂_iff_zip.mpr ⟨hsize, ?_⟩⟩
      intro item part hpair
      exact ih item (Array.mem_toList_iff.mp (List.of_mem_zip hpair).1) (hitems (item, part) hpair)
    | _ => simp [identical] at hidentical
  | map entries ih =>
    cases second with
    | map others =>
      simp only [identical_map, Bool.and_eq_true, beq_iff_eq, List.all_eq_true] at hidentical
      obtain ⟨hlength, hentries⟩ := hidentical
      refine agree_map_iff.mpr ⟨others, rfl, hlength, fun entry hentry => ?_⟩
      have hentryIdentical := hentries entry hentry
      split at hentryIdentical
      · rename_i other hother
        exact ⟨other, hother, ih entry hentry hentryIdentical⟩
      · cases hentryIdentical
    | _ => simp [identical] at hidentical
  | record aggregate ih =>
    cases second with
    | record other =>
      simp only [identical_record, Bool.and_eq_true, beq_iff_eq, List.all_eq_true] at hidentical
      obtain ⟨⟨hname, hlength⟩, hfields⟩ := hidentical
      refine agree_record_iff.mpr ⟨other, rfl, hname, List.forall₂_iff_zip.mpr ⟨hlength, ?_⟩⟩
      intro field part hpair
      obtain ⟨⟨⟨hfieldName, hexported⟩, _⟩, hvalue⟩ := hfields (field, part) hpair
      exact ⟨hfieldName, hexported, ih field (List.of_mem_zip hpair).1 hvalue⟩
    | _ => simp [identical] at hidentical

/-! ## Congruent sides -/

/-- What is replaced on the left by something congruent, as far as the comparison sees, agrees with
what it agreed with. -/
theorem agree_congr_left {other : Value} (hsame : Congruent Overlooked first other)
    (second : Value) : plain.agree first second = plain.agree other second := by
  induction hsame generalizing second with
  | refl value => rfl
  | symm _ ih => exact (ih second).symm
  | trans _ _ ihFirst ihSecond => exact (ihFirst second).trans (ihSecond second)
  | referent _ ih => rw [agree_ref_left, agree_ref_left, ih]
  | rule hrule =>
    cases hrule with
    | reference value => rw [agree_ref_left]
    | nothing => rw [agree_of_isAbsent rfl, agree_of_isAbsent rfl]
    | entries hperm =>
      rw [Bool.eq_iff_iff, agree_map_iff, agree_map_iff]
      simp only [hperm.length_eq, hperm.mem_iff]
    | mutability typeName before field after mutable =>
      rw [Bool.eq_iff_iff, agree_record_iff, agree_record_iff]
      refine exists_congr fun other => and_congr_right fun _ => and_congr_right fun _ =>
        forall₂_middle_congr (fun part => ?_) before after other.fields
      exact Iff.rfl
  | @item sequence position old new _ ih =>
    rw [Bool.eq_iff_iff, agree_list_iff, agree_list_iff]
    refine exists_congr fun other => and_congr_right fun _ => and_congr_right fun _ => ?_
    simp only [Sequence.set, Array.toList_setIfInBounds, List.set_eq_take_append_cons_drop]
    split
    · exact forall₂_middle_congr (fun part => by rw [ih]) _ _ _
    · exact Iff.rfl
  | entry before name after _ ih =>
    rw [Bool.eq_iff_iff, agree_map_iff, agree_map_iff]
    simp only [List.forall_mem_append, List.forall_mem_cons, List.length_append, List.length_cons,
      ih]
  | field typeName before field after _ ih =>
    rw [Bool.eq_iff_iff, agree_record_iff, agree_record_iff]
    exact exists_congr fun other => and_congr_right fun _ => and_congr_right fun _ =>
      forall₂_middle_congr (fun part => by rw [ih]) before after other.fields

/-- What is congruent to a value whose maps have distinct keys, as far as the comparison sees, is
such a value. -/
theorem hasDistinctKeys_congr {other : Value} (hsame : Congruent Overlooked first other) :
    first.HasDistinctKeys ↔ other.HasDistinctKeys := by
  induction hsame with
  | refl value => exact Iff.rfl
  | symm _ ih => exact ih.symm
  | trans _ _ ihFirst ihSecond => exact ihFirst.trans ihSecond
  | referent _ ih => rw [hasDistinctKeys_ref_iff, hasDistinctKeys_ref_iff, ih]
  | rule hrule =>
    cases hrule with
    | reference value => rw [hasDistinctKeys_ref_iff]
    | nothing => exact iff_of_true nofun nofun
    | entries hperm =>
      rw [hasDistinctKeys_map_iff, hasDistinctKeys_map_iff, Entries.keys, Entries.keys,
        (hperm.map Prod.fst).nodup_iff]
      simp only [hperm.mem_iff]
    | mutability typeName before field after mutable =>
      rw [hasDistinctKeys_record_iff, hasDistinctKeys_record_iff]
      simp only [List.forall_mem_append, List.forall_mem_cons]
  | @item sequence position old new _ ih =>
    rw [hasDistinctKeys_list_iff, hasDistinctKeys_list_iff]
    simp only [← Array.mem_toList_iff, Sequence.set, Array.toList_setIfInBounds,
      List.set_eq_take_append_cons_drop]
    split
    · simp only [List.forall_mem_append, List.forall_mem_cons, ih]
    · exact Iff.rfl
  | entry before name after _ ih =>
    rw [hasDistinctKeys_map_iff, hasDistinctKeys_map_iff]
    simp only [Entries.keys, List.map_append, List.map_cons, List.forall_mem_append,
      List.forall_mem_cons, ih]
  | field typeName before field after _ ih =>
    rw [hasDistinctKeys_record_iff, hasDistinctKeys_record_iff]
    simp only [List.forall_mem_append, List.forall_mem_cons, ih]

/-- Congruent values, as far as the comparison sees, agree with congruent values. -/
theorem agree_congr {other another : Value} (hfirst : first.HasDistinctKeys)
    (hsecond : second.HasDistinctKeys) (hother : Congruent Overlooked first other)
    (hanother : Congruent Overlooked second another) :
    plain.agree first second = plain.agree other another := by
  have hkeys := (hasDistinctKeys_congr hother).mp hfirst
  have hmoreKeys := (hasDistinctKeys_congr hanother).mp hsecond
  calc plain.agree first second
    _ = plain.agree other second := agree_congr_left hother second
    _ = plain.agree second other := agree_comm hkeys hsecond
    _ = plain.agree another other := agree_congr_left hanother other
    _ = plain.agree other another := agree_comm hmoreKeys hkeys

/-! ## The laws together -/

/-- Without options, the comparison of values whose maps have distinct keys is symmetric and
transitive; a value agrees with itself exactly if no not-a-number stands anywhere inside it;
identical values agree; and whatever is done on either side, at any depth, to references, to the two
ways of being absent, to the order of entries and to the mutability of fields changes nothing. -/
theorem agree_laws (hfirst : first.HasDistinctKeys) (hsecond : second.HasDistinctKeys) :
    plain.agree first second = plain.agree second first ∧
      (plain.agree first second = true → plain.agree second third = true →
        plain.agree first third = true) ∧
      (plain.agree first first = true ↔ ¬Occurs (.float .nan) first) ∧
      (first.identical second = true → plain.agree first second = true) ∧
      ∀ other another, Congruent Overlooked first other → Congruent Overlooked second another →
        plain.agree first second = plain.agree other another :=
  ⟨agree_comm hfirst hsecond, agree_trans, agree_self_iff hfirst, agree_of_identical,
    fun _ _ => agree_congr hfirst hsecond⟩

/-- Two inventories agree whose entries stand in another order, whose numbers are zeros of another
sign and whose tags are absent in another way; so they do with a reference around one of them. -/
theorem agree_laws_inventories :
    let tag (value : Value) (mutable : Bool) : Value :=
      .record { name := "Tag", fields := [{ name := "id", value, exported := false, mutable }] }
    let first : Value := .map [("zero", .float (.zero true)), ("tag", tag .null true)]
    let second : Value :=
      .map [("tag", .ref (tag .nilRef false)), ("zero", .ref (.float (.zero false)))]
    let other : Value := .ref (.map [("tag", tag .null true), ("zero", .float (.zero true))])
    first.HasDistinctKeys ∧ second.HasDistinctKeys ∧ plain.agree first second = true ∧
      first.identical second = false ∧ plain.agree second first = true ∧
      ¬Occurs (.float .nan) first ∧ plain.agree other second = true := by
  intro tag first second other
  have hnull : Value.null.HasDistinctKeys := nofun
  have hnilRef : Value.nilRef.HasDistinctKeys := nofun
  have hzero (negative : Bool) : (Value.float (.zero negative)).HasDistinctKeys := nofun
  have hfirst : first.HasDistinctKeys := by
    simp [first, tag, Entries.keys, hnull, hzero]
  have hsecond : second.HasDistinctKeys := by
    simp [second, tag, Entries.keys, hnilRef, hzero]
  have hagree : plain.agree first second = true := by
    simp only [tag, first, second]
    cbv
  have hidentical : first.identical second = false := by
    simp only [tag, first, second]
    cbv
  have hitself : plain.agree first first = true := by
    simp only [tag, first]
    cbv
  have hother : Congruent Overlooked first other :=
    (Congruent.rule (.entries (.swap _ _ _))).trans (.rule (.reference _))
  obtain ⟨hcomm, _, hself, _, hcongr⟩ := @agree_laws first second second hfirst hsecond
  exact ⟨hfirst, hsecond, hagree, hidentical, hcomm ▸ hagree, hself.mp hitself,
    hcongr other second hother (.refl second) ▸ hagree⟩

end Comparison

end NestedData
