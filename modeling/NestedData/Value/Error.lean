import NestedData.Kind
import NestedData.Text.Integer

/-!
# Faults of single values

This module lists what can go wrong with one value by itself and words the messages about it.
-/

namespace NestedData

/-- What can go wrong with one value by itself. -/
inductive ValueError
  /-- A value of one kind was asked for and something of another type was found. -/
  | typeMismatch (expected : Kind) (found : String)
  /-- A sequence of fixed length was asked to change its length. -/
  | fixedLength (length : Nat)
  /-- A text is not a document. -/
  | undecodable (detail : String)
deriving DecidableEq, Repr

namespace ValueError

/-- The message about the fault. -/
def message : ValueError → String
  | .typeMismatch expected found =>
    "Value type mismatch: expected " ++ expected.name ++ ", found " ++ found
  | .fixedLength length =>
    "Fixed-length list of " ++ Text.ofNat length ++ " elements cannot change length"
  | .undecodable detail => "Failed to decode value from JSON: " ++ detail

/-- Whether the fault is a mismatch of kinds. -/
def isTypeError : ValueError → Bool
  | .typeMismatch .. => true
  | _ => false

/-- Whether the fault lies in a text that was to be decoded. -/
def isDecodingError : ValueError → Bool
  | .undecodable _ => true
  | _ => false

end ValueError

end NestedData
