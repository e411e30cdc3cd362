/-!
# Machine words

The integers of trees and paths are words of 64 bits with a sign.  `word?` finds the word of an
integer, and an integer beyond the range of words has none.
-/

set_option autoImplicit false

namespace TreePath

/-- The word of an integer, if it has one. -/
def word? (i : Int) : Option Int64 :=
  if Int64.minValue.toInt ≤ i ∧ i ≤ Int64.maxValue.toInt then some (Int64.ofInt i) else none

/-- A word that was found has the value of its integer. -/
theorem toInt_of_word? {i : Int} {w : Int64} (h : word? i = some w) : w.toInt = i := by
  simp only [word?, Int64.toInt_minValue, Int64.toInt_maxValue] at h
  split at h
  next hrange =>
    cases h
    exact Int64.toInt_ofInt_of_le hrange.1 (by omega)
  next => cases h

/-- An integer in the range of words has a word. -/
theorem word?_eq_some {i : Int} (hlow : Int64.minValue.toInt ≤ i)
    (hhigh : i ≤ Int64.maxValue.toInt) : word? i = some (Int64.ofInt i) :=
  if_pos ⟨hlow, hhigh⟩

/-- Every word is the word of its value. -/
theorem word?_toInt (w : Int64) : word? w.toInt = some w := by
  rw [word?_eq_some w.minValue_le_toInt w.toInt_le, Int64.ofInt_toInt]

/-- A count that is the value of a word. -/
def FitsWord (n : Nat) : Prop := (n : Int) ≤ Int64.maxValue.toInt

/-- A length fits a word when it is not beyond the greatest one, written out as a numeral so that
`omega` and `decide` can use it. -/
@[simp] theorem fitsWord_iff {n : Nat} : FitsWord n ↔ n ≤ 9223372036854775807 := by
  rw [FitsWord, Int64.toInt_maxValue]
  omega

/-- A count that fits is the value of its word. -/
theorem FitsWord.toInt_ofNat {n : Nat} (h : FitsWord n) : (Int64.ofNat n).toInt = n := by
  rw [fitsWord_iff] at h
  exact Int64.toInt_ofNat_of_lt (by omega)

end TreePath
