import NestedData.Location
import NestedData.Proofs.Value.Places

/-!
# Congruences of values

Two values that are the same but for what a rule passes over at any depth are congruent:
the rule may be applied any number of times, in either direction, to the value itself, to
an element, an entry or a field, hidden or not, and behind references.  This module gives
the least such relation for a rule and carries it through the operations that replace
something inside a value.

Main results:

- `Value.Congruent`: the least congruence that holds where a rule does.
- `Value.Reordered`: the rule that passes over the order of entries.
- `Value.Congruent.mapTarget` and `Value.Congruent.setChild`: congruent values in the same
  place leave congruent wholes.
-/

namespace NestedData

/-- A value inserted under a key that is present stands where the old one did. -/
theorem Entries.exists_insert_eq {α : Type} {entries : Entries α} {name : String}
    (hpresent : Entries.contains entries name = true) :
    ∃ before after, ∀ value,
      Entries.insert entries name value = before ++ (name, value) :: after := by
  induction entries with
  | nil => cases hpresent
  | cons entry rest ih =>
    obtain ⟨key, old⟩ := entry
    by_cases hsame : key = name
    · subst hsame
      exact ⟨[], rest, fun value => by simp [insert]⟩
    · have hrest : Entries.contains rest name = true := by
        simpa [contains, get?, hsame] using hpresent
      obtain ⟨before, after, hinsert⟩ := ih hrest
      exact ⟨(key, old) :: before, after, fun value => by simp [insert, hsame, hinsert]⟩

/-- A value assigned to a field stands where the old one did, or there is no such field. -/
theorem Record.exists_setValue_eq {α : Type} (record : Record α) (name : String) :
    (∀ value, record.setValue name value = record) ∨
      ∃ (before : List (Field α)) (field : Field α) (after : List (Field α)), ∀ value,
        record.setValue name value =
          { record with fields := before ++ { field with value } :: after } := by
  obtain ⟨typeName, fields⟩ := record
  simp only [setValue, modifyField, Record.mk.injEq, true_and]
  induction fields with
  | nil => exact .inl fun _ => rfl
  | cons field rest ih =>
    by_cases hsame : field.name = name
    · exact .inr ⟨[], field, rest, fun value => by simp [modifyField.go, hsame]⟩
    · rcases ih with hnone | ⟨before, changed, after, hset⟩
      · exact .inl fun value => by simp [modifyField.go, hsame, hnone]
      · exact .inr ⟨field :: before, changed, after,
          fun value => by simp [modifyField.go, hsame, hset]⟩

namespace Value

/-- The least congruence of values that holds where a rule does. -/
inductive Congruent (rule : Value → Value → Prop) : Value → Value → Prop
  /-- The rule holds. -/
  | rule {value other : Value} (hrule : rule value other) : Congruent rule value other
  /-- Every value is congruent to itself. -/
  | refl (value : Value) : Congruent rule value value
  /-- The order of two values does not matter. -/
  | symm {value other : Value} (hsame : Congruent rule value other) : Congruent rule other value
  /-- Congruences go one after the other. -/
  | trans {value middle other : Value} (hfirst : Congruent rule value middle)
      (hsecond : Congruent rule middle other) : Congruent rule value other
  /-- An element may be replaced by a congruent one. -/
  | item (sequence : Sequence Value) (position : Nat) {old new : Value}
      (hsame : Congruent rule old new) :
      Congruent rule (.list (sequence.set position old)) (.list (sequence.set position new))
  /-- The value of an entry may. -/
  | entry (before : Entries Value) (name : String) (after : Entries Value) {old new : Value}
      (hsame : Congruent rule old new) :
      Congruent rule (.map (before ++ (name, old) :: after)) (.map (before ++ (name, new) :: after))
  /-- The value of a field may, hidden or not. -/
  | field (typeName : String) (before : List (Field Value)) (field : Field Value)
      (after : List (Field Value)) {old new : Value} (hsame : Congruent rule old new) :
      Congruent rule
        (.record { name := typeName, fields := before ++ { field with value := old } :: after })
        (.record { name := typeName, fields := before ++ { field with value := new } :: after })
  /-- What a reference refers to may. -/
  | referent {old new : Value} (hsame : Congruent rule old new) :
      Congruent rule (.ref old) (.ref new)

/-- The rule that passes over the order of the entries of a map. -/
inductive Reordered : Value → Value → Prop
  /-- The entries stand in another order. -/
  | entries {entries others : Entries Value} (hperm : List.Perm entries others) :
      Reordered (.map entries) (.map others)

namespace Congruent

variable {rule : Value → Value → Prop} {old new : Value}

/-- Congruent changes at the end of references leave congruent values. -/
theorem mapTarget {f g : Value → Value} (value : Value)
    (hsame : Congruent rule (f value.target) (g value.target)) :
    Congruent rule (value.mapTarget f) (value.mapTarget g) := by
  induction value using induct with
  | ref referent ih => exact .referent (ih hsame)
  | _ => exact hsame

/-- A child may be replaced by a congruent value. -/
theorem setChild (hsame : Congruent rule old new) (container : Value) (step : Step) :
    Congruent rule (container.setChild step old) (container.setChild step new) := by
  cases container with
  | map entries =>
    cases step with
    | index position => exact .refl _
    | key name =>
      rw [Value.setChild, Value.setChild]
      split
      · rename_i hpresent
        obtain ⟨before, after, hinsert⟩ := Entries.exists_insert_eq hpresent
        rw [hinsert, hinsert]
        exact .entry before name after hsame
      · exact .refl _
  | record aggregate =>
    cases step with
    | index position => exact .refl _
    | key name =>
      rw [Value.setChild, Value.setChild]
      rcases aggregate.exists_setValue_eq name with hnone | ⟨before, field, after, hset⟩
      · rw [hnone, hnone]
        exact .refl _
      · rw [hset, hset]
        exact .field aggregate.name before field after hsame
  | list sequence =>
    cases step with
    | key name => exact .refl _
    | index position => exact .item sequence position hsame
  | _ => exact .refl _

end Congruent

end Value

end NestedData
