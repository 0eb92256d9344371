/-!
# Truth values as words

This module writes truth values as words and reads the two words back.  The words are read as they are
written, in lowercase and without blanks around them.

Main results:

- `readBool?_eq_some_iff`: a text reads as a truth value exactly when it is the word for it.
-/

namespace NestedData.Text

/-- A truth value as a word. -/
def ofBool (truth : Bool) : String :=
  if truth then "true" else "false"

/-- The truth value that a word stands for. -/
def readBool? (text : List Char) : Option Bool :=
  if text = (ofBool true).toList then some true
  else if text = (ofBool false).toList then some false
  else none

/-- A text reads as a truth value exactly when it is the word for it. -/
theorem readBool?_eq_some_iff {text : List Char} {truth : Bool} :
    readBool? text = some truth ↔ text = (ofBool truth).toList := by
  have differ : (ofBool true).toList ≠ (ofBool false).toList := by decide
  unfold readBool?
  cases truth with
  | true =>
    by_cases affirmed : text = (ofBool true).toList
    · simp [affirmed]
    · by_cases denied : text = (ofBool false).toList <;> simp [affirmed, denied, differ.symm]
  | false =>
    by_cases affirmed : text = (ofBool true).toList
    · simp [affirmed, differ]
    · by_cases denied : text = (ofBool false).toList <;> simp [affirmed, denied, differ.symm]

end NestedData.Text
