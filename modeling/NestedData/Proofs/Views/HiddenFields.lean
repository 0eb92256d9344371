import NestedData.Proofs.Views.Editing
import NestedData.Proofs.Views.Validation

/-!
# Hidden fields cannot be observed

Two values that differ in nothing but the values of hidden fields, at any depth, cannot be told apart:
whatever path is followed into them and whatever is done there, the outcomes agree down to the messages,
and what comes out or is left behind again differs in nothing but hidden fields.  Nor do a schema that
checks by the rules for the shapes and a document show a difference.

Main results:

- `Value.hiddenFields_unobservable`: no operation depends on the values of hidden fields.
-/

namespace NestedData.Value

open Outcome

/-- Along every path, reading, visiting, assigning and deleting depend on hidden fields only for what
they leave in hidden fields, and neither validation nor a document depends on them. -/
theorem hiddenFields_unobservable {root other : Value}
    (hsame : View.ofExported.seen root = View.ofExported.seen other) (path : Path) (new : Value)
    (shaping : Shaping) :
    let view := View.ofExported
    let faults (error fault : AccessError) : Prop :=
      error.Alike view fault ∧ error.message = fault.message
    Agree faults (fun found next => view.seen found = view.seen next)
        (root.getAt path) (other.getAt path) ∧
      (Agree faults Eq (root.visits path).outcome (other.visits path).outcome ∧
        List.Forall₂ view.SameAt (root.visits path).collected (other.visits path).collected) ∧
      (Agree faults Eq (root.setAt path new shaping).2 (other.setAt path new shaping).2 ∧
        view.seen (root.setAt path new shaping).1 = view.seen (other.setAt path new shaping).1) ∧
      (Agree faults Eq (root.eraseAt path).2 (other.eraseAt path).2 ∧
        view.seen (root.eraseAt path).1 = view.seen (other.eraseAt path).1) ∧
      (∀ schema : Schema, schema.WithoutValidators → ∀ location,
        Agree (fun error fault => error.path = fault.path ∧ error.message = fault.message) Eq
          (schema.validate location root) (schema.validate location other)) ∧
      ∀ library : Json.Library, root.toJson library = other.toJson library := by
  intro view faults
  have hworded {α β : Type} {results : α → β → Prop} {outcome : Except AccessError α}
      {next : Except AccessError β} (hagree : Agree (AccessError.Alike view) results outcome next) :
      Agree faults results outcome next :=
    hagree.imp (fun _ _ halike => ⟨halike, halike.message rfl⟩) fun _ _ hresults => hresults
  have hvisits := visits_alike hsame path
  have hassign : (Action.assign shaping new).Alike view (.assign shaping new) :=
    Action.assign_alike rfl shaping
  have hset := Action.run_alike hassign path (.inl rfl) hsame
  have herase := Action.run_alike (Action.erase_alike rfl) path (.inl rfl) hsame
  refine ⟨hworded (getAt_alike hsame path), ⟨hworded hvisits.outcome, hvisits.collected⟩,
    ⟨hworded hset.2, hset.1⟩, ⟨hworded herase.2, herase.1⟩, ?_, ?_⟩
  · intro schema hschema location
    exact Schema.validate_alike rfl hschema hsame location
  · intro library
    have htree : root.toTree = other.toTree := by
      rw [← View.toTree_seen view root, hsame, View.toTree_seen]
    rw [toJson, toJson, htree]

/-- An assignment to a hidden field that is named fails with the same message whatever the field
holds. -/
theorem hiddenFields_unobservable_pin :
    let account (pin : Value) : Value := .record { name := "Account", fields := [
      { name := "owner", value := .text "Ada" }, { name := "pin", value := pin, exported := false }] }
    let root : Value := .map [("one", .ref (account (.int 1234)))]
    let other : Value := .map [("one", .ref (account (.text "none")))]
    let path : Path := { first := [.root, .wildcard, .key "pin"] }
    let error : AccessError :=
      { operation := .set, path := { first := [.root, .key "one"] }, value := account (.int 1234),
        obstacle := .misfit (.key "pin") (.hiddenField "pin" "Account") }
    View.ofExported.seen root = View.ofExported.seen other ∧
      (root.setAt path .null .plain).2 = .error error ∧
      ∃ fault, (other.setAt path .null .plain).2 = .error fault ∧ error.message = fault.message := by
  intro account root other path error
  have hsame : View.ofExported.seen root = View.ofExported.seen other := by
    simp [root, other, account, View.seen, View.ofExported, Entries.mapValues, View.record, View.field]
  have hroot : (root.setAt path .null .plain).2 = .error error := by
    simp only [root, account, path, error]
    cbv
  refine ⟨hsame, hroot, ?_⟩
  obtain ⟨-, -, ⟨hset, -⟩, -⟩ := hiddenFields_unobservable hsame path .null .plain
  rw [hroot] at hset
  generalize (other.setAt path .null .plain).2 = outcome at hset ⊢
  cases hset with
  | error hfault => exact ⟨_, rfl, hfault.2⟩

end NestedData.Value
