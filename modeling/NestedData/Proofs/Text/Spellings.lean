import NestedData.Proofs.Decimal.ReadBack
import NestedData.Schema.Validation

/-!
# Spellings of scalars

This module relates the two ways in which a text is taken for a scalar.  A key is read as it stands;
where a scalar of some kind is expected, blanks around a text are dropped first.  A text that reads
as it stands holds no blanks, so the two agree on it.

Main results:

- `Text.not_blank_of_readInt64?`, `Binary64.not_blank_of_read?`: what reads as a number holds no
  blanks.
- `Kind.coerce?_readKey`: a key is coerced to what it reads as.
- `Kind.readKey_keyText`: the text that a scalar key is kept as reads back as the scalar.
-/

namespace NestedData

/-! ## Characters that are not blank -/

namespace Text

/-- A character that becomes a lowercase letter without being one is a letter, and not blank. -/
theorem not_blank_of_toLower {c : Char} (hlower : isBlank c.toLower = false) :
    isBlank c = false := by
  rw [Bool.eq_false_iff]
  intro hblank
  have hupper : ¬ (c.val ≥ 'A'.val ∧ c.val ≤ 'Z'.val) := by
    rintro ⟨hlow, hhigh⟩
    have hlow : 65 ≤ c.toNat := UInt32.le_iff_toNat_le.mp hlow
    have hhigh : c.toNat ≤ 90 := UInt32.le_iff_toNat_le.mp hhigh
    simp only [isBlank, Bool.or_eq_true, Bool.and_eq_true, decide_eq_true_eq, beq_iff_eq] at hblank
    omega
  have hsame : c.toLower = c := dif_neg hupper
  rw [hsame, hblank] at hlower
  cases hlower

theorem trim_of_not_blank {text : List Char} (hblank : ∀ c ∈ text, isBlank c = false) :
    trim text = text :=
  trim_eq_self (fun c hmem => hblank c (List.mem_of_mem_head? hmem))
    fun c hmem => hblank c (List.mem_of_mem_getLast? hmem)

/-! ## Numbers hold no blanks -/

theorem not_blank_of_readDigits? {text : List Char} {n : Nat} (hread : readDigits? text = some n) :
    ∀ c ∈ text, isBlank c = false := by
  unfold readDigits? at hread
  split at hread
  · rename_i hdigits
    exact fun c hmem => not_blank_of_isDigit (List.all_eq_true.mp hdigits.2 c hmem)
  · cases hread

/-- What reads as an integer holds no blanks. -/
theorem not_blank_of_readInt? {text : List Char} {n : Int} (hread : readInt? text = some n) :
    ∀ c ∈ text, isBlank c = false := by
  unfold readInt? at hread
  split at hread
  · obtain ⟨_, hdigits, _⟩ := Option.map_eq_some_iff.mp hread
    exact List.forall_mem_cons.mpr ⟨by decide, not_blank_of_readDigits? hdigits⟩
  · obtain ⟨_, hdigits, _⟩ := Option.map_eq_some_iff.mp hread
    exact List.forall_mem_cons.mpr ⟨by decide, not_blank_of_readDigits? hdigits⟩
  · obtain ⟨_, hdigits, _⟩ := Option.map_eq_some_iff.mp hread
    exact not_blank_of_readDigits? hdigits

/-- What reads as an integer of the signed range holds no blanks. -/
theorem not_blank_of_readInt64? {text : List Char} {word : Int64}
    (hread : readInt64? text = some word) : ∀ c ∈ text, isBlank c = false := by
  obtain ⟨_, hnumber, _⟩ := Option.bind_eq_some_iff.mp hread
  exact not_blank_of_readInt? hnumber

end Text

namespace Numeral

theorem not_blank_of_takeSign {text : List Char}
    (hrest : ∀ c ∈ (takeSign text).2, Text.isBlank c = false) :
    ∀ c ∈ text, Text.isBlank c = false := by
  unfold takeSign at hrest
  split at hrest
  · exact List.forall_mem_cons.mpr ⟨by decide, hrest⟩
  · exact List.forall_mem_cons.mpr ⟨by decide, hrest⟩
  · exact hrest

/-- A text holds blanks only if what follows its leading digits does. -/
theorem not_blank_of_takeDigits {text : List Char}
    (hrest : ∀ c ∈ (takeDigits text).2, Text.isBlank c = false) :
    ∀ c ∈ text, Text.isBlank c = false := by
  rw [← takeDigits_append text]
  intro c hmem
  rcases List.mem_append.mp hmem with hdigit | hlater
  · exact Text.not_blank_of_isDigit (List.all_eq_true.mp List.all_takeWhile c hdigit)
  · exact hrest c hlater

theorem not_blank_of_takeFraction {text : List Char}
    (hrest : ∀ c ∈ (takeFraction text).2, Text.isBlank c = false) :
    ∀ c ∈ text, Text.isBlank c = false := by
  unfold takeFraction at hrest
  split at hrest
  · exact List.forall_mem_cons.mpr ⟨by decide, not_blank_of_takeDigits hrest⟩
  · exact hrest

/-- What reads as an exponent holds no blanks. -/
theorem not_blank_of_readExponent? {text : List Char} {exponent : Option Int}
    (hread : readExponent? text = some exponent) : ∀ c ∈ text, Text.isBlank c = false := by
  unfold readExponent? at hread
  split at hread
  · simp
  · rename_i mark rest
    split at hread
    · rename_i hmark
      obtain ⟨_, hnumber, _⟩ := Option.map_eq_some_iff.mp hread
      refine List.forall_mem_cons.mpr ⟨?_, Text.not_blank_of_readInt? hnumber⟩
      rcases hmark with rfl | rfl <;> decide
    · cases hread

theorem not_blank_of_scan? {text : List Char} {numeral : Numeral}
    (hscan : scan? text = some numeral) : ∀ c ∈ text, Text.isBlank c = false := by
  obtain ⟨_, hexponent, _⟩ := Option.map_eq_some_iff.mp hscan
  exact not_blank_of_takeSign <| not_blank_of_takeDigits <| not_blank_of_takeFraction <|
    not_blank_of_readExponent? hexponent

end Numeral

namespace Binary64

/-- What reads as a double precision number holds no blanks. -/
theorem not_blank_of_read? {text : List Char} {number : Binary64}
    (hread : read? text = some number) : ∀ c ∈ text, Text.isBlank c = false := by
  -- One of the words is the rest of the text in lowercase.
  have hword {word : List Char} (hplain : ∀ c ∈ word, Text.isBlank c = false)
      (hsame : (Numeral.takeSign text).2.map Char.toLower = word) :
      ∀ c ∈ text, Text.isBlank c = false := by
    refine Numeral.not_blank_of_takeSign fun c hmem => Text.not_blank_of_toLower ?_
    exact hplain _ (hsame ▸ List.mem_map_of_mem hmem)
  unfold read? at hread
  simp only at hread
  split at hread
  · rename_i hinfinite
    rcases hinfinite with hshort | hlong
    · exact hword (by simp [Text.isBlank]) hshort
    · exact hword (by simp [Text.isBlank]) hlong
  · split at hread
    · rename_i hnan
      exact hword (by simp [Text.isBlank]) hnan
    · split at hread
      · rename_i hscan
        exact Numeral.not_blank_of_scan? hscan
      · cases hread

end Binary64

/-! ## Keys -/

theorem Text.trim_ofBool (truth : Bool) : trim (ofBool truth).toList = (ofBool truth).toList := by
  cases truth <;> decide

/-- What a key is read as: itself, or the scalar of the kind that it reads as. -/
theorem Kind.readKey_cases (kind : Kind) (key : String) :
    kind.readKey key = .text key ∨
      (∃ number, Text.readInt64? key.toList = some number ∧ kind.readKey key = .int number) ∨
      (∃ number, Binary64.read? key.toList = some number ∧ kind.readKey key = .float number) ∨
      ∃ truth, Text.readBool? key.toList = some truth ∧ kind.readKey key = .bool truth := by
  cases kind with
  | int => cases hread : Text.readInt64? key.toList <;> simp [readKey, hread]
  | float => cases hread : Binary64.read? key.toList <;> simp [readKey, hread]
  | bool => cases hread : Text.readBool? key.toList <;> simp [readKey, hread]
  | _ => exact .inl rfl

theorem Kind.isScalar_readKey (kind : Kind) (key : String) :
    (kind.readKey key).kind.isScalar = true := by
  rcases kind.readKey_cases key with hvalue | ⟨_, _, hvalue⟩ | ⟨_, _, hvalue⟩ | ⟨_, _, hvalue⟩ <;>
    simp [hvalue, Value.kind, Kind.isScalar]

/-- A key is coerced to what it reads as. -/
theorem Kind.coerce?_readKey (kind : Kind) (key : String) :
    (Value.text key).coerce? (kind.readKey key).kind = some (kind.readKey key) := by
  rcases kind.readKey_cases key with htext | ⟨number, hread, hvalue⟩ | ⟨number, hread, hvalue⟩ |
    ⟨truth, hread, hvalue⟩
  · rw [htext]
    rfl
  · have htrim := Text.trim_of_not_blank (Text.not_blank_of_readInt64? hread)
    simp [hvalue, Value.kind, Value.coerce?, Value.coerceInt?, htrim, hread]
  · have htrim := Text.trim_of_not_blank (Binary64.not_blank_of_read? hread)
    simp [hvalue, Value.kind, Value.coerce?, Value.coerceFloat?, htrim, hread]
  · have hword := Text.readBool?_eq_some_iff.mp hread
    have htrim := Text.trim_ofBool truth
    rw [← hword] at htrim
    simp [hvalue, Value.kind, Value.coerce?, Value.coerceBool?, htrim, hread]

/-- The text that a map keeps a converted key as. -/
def Value.keyText : Value → String
  | .text content => content
  | value => value.display

/-- The text that a scalar is kept as reads back as the scalar. -/
theorem Kind.readKey_keyText {value : Value} (hscalar : value.kind.isScalar = true) :
    value.kind.readKey value.keyText = value := by
  cases value with
  | bool truth =>
    have hread : Text.readBool? (Text.ofBool truth).toList = some truth :=
      Text.readBool?_eq_some_iff.mpr rfl
    simp [Value.kind, readKey, Value.keyText, Value.display, hread]
  | int number =>
    have hread := Text.readInt64?_showInt number
    simp [Value.kind, readKey, Value.keyText, Value.display, Text.ofInt, hread]
  | float number =>
    have hread := Binary64.read?_display number
    simp [Value.kind, readKey, Value.keyText, Value.display, hread]
  | text content => rfl
  | list sequence =>
    rcases sequence with ⟨extent, items⟩
    cases extent <;> simp [Value.kind, isScalar] at hscalar
  | _ => simp [Value.kind, isScalar] at hscalar

end NestedData
