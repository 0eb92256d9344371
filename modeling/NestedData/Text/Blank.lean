/-!
# Blank characters

This module decides which characters are blank and removes blanks from the ends of a text.  A
character is blank when it has Unicode's property `White_Space`, which holds of twenty-five code
points.

Main results:

- `trim_eq_self`: a text that neither starts nor ends with a blank is its own trimmed form.
-/

namespace NestedData.Text

/-- Whether `c` is a blank character of some script. -/
def isBlank (c : Char) : Bool :=
  let code := c.toNat
  (9 ≤ code && code ≤ 13) || code == 0x20 || code == 0x85 || code == 0xA0 || code == 0x1680 ||
    (0x2000 ≤ code && code ≤ 0x200A) || code == 0x2028 || code == 0x2029 || code == 0x202F ||
    code == 0x205F || code == 0x3000

/-- The text without the blanks at its end. -/
def trimEnd (text : List Char) : List Char :=
  (text.reverse.dropWhile isBlank).reverse

/-- The text without the blanks at its two ends. -/
def trim (text : List Char) : List Char :=
  trimEnd (text.dropWhile isBlank)

/-- Trimming leaves a text alone that neither starts nor ends with a blank. -/
theorem trim_eq_self {text : List Char} (first : ∀ c ∈ text.head?, isBlank c = false)
    (last : ∀ c ∈ text.getLast?, isBlank c = false) : trim text = text := by
  have front : text.dropWhile isBlank = text := by
    cases text with
    | nil => rfl
    | cons c rest => simp [first c (by simp)]
  have back : text.reverse.dropWhile isBlank = text.reverse := by
    cases reversed : text.reverse with
    | nil => rfl
    | cons c rest =>
      have : c ∈ text.getLast? := by simp [← List.head?_reverse, reversed]
      simp [last c this]
  rw [trim, front, trimEnd, back, List.reverse_reverse]

end NestedData.Text
