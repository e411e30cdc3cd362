import TreePath.Json.Number
import TreePath.Proofs.Decimal.Integer

/-!
# Integers are read back

The text of a word is read as the integer that it stands for, up to the first character that could
not go on a number (`readNumber_integerChars`).  The digits of a word do not begin with a zero, unless
they are a zero alone, and its magnitude fits the significand, also that of the smallest word, which
has no positive counterpart.
-/

set_option autoImplicit false

namespace TreePath

namespace Json

/-- The input cannot go on a number that stands in front of it. -/
def EndsNumber (rest : List Char) : Prop :=
  ∀ c ∈ rest.head?, ¬ c.isDigit ∧ c ≠ '.' ∧ c ≠ 'e' ∧ c ≠ 'E'

/-- The end of a text ends a number. -/
theorem endsNumber_nil : EndsNumber [] := by
  intro c hc
  cases hc

/-- A character ends a number when none could go on with it. -/
theorem endsNumber_cons {c : Char} {rest : List Char} :
    EndsNumber (c :: rest) ↔ ¬ c.isDigit ∧ c ≠ '.' ∧ c ≠ 'e' ∧ c ≠ 'E' := by
  simp [EndsNumber]

variable {n : Nat} {rest : List Char}

/-! ## Digits -/

/-- All digits are read. -/
theorem readDigits_digitChars (n : Nat) (h : EndsNumber rest) :
    readDigits (Decimal.digitChars n ++ rest) = some (Decimal.digitChars n, rest) := by
  have hdigits : ∀ c ∈ Decimal.digitChars n, c.isDigit :=
    fun c hc => Decimal.isDigit_of_mem_digitChars hc
  have hends : rest.takeWhile Char.isDigit = [] ∧ rest.dropWhile Char.isDigit = rest := by
    cases rest with
    | nil => exact ⟨rfl, rfl⟩
    | cons c more =>
      have hc := (endsNumber_cons.mp h).1
      exact ⟨List.takeWhile_cons_of_neg hc, List.dropWhile_cons_of_neg hc⟩
  have htake : (Decimal.digitChars n ++ rest).takeWhile Char.isDigit = Decimal.digitChars n := by
    rw [List.takeWhile_append_of_pos hdigits, hends.1, List.append_nil]
  have hdrop : (Decimal.digitChars n ++ rest).dropWhile Char.isDigit = rest := by
    rw [List.dropWhile_append_of_pos hdigits, hends.2]
  have hempty : (Decimal.digitChars n).isEmpty = false := by
    simpa using Decimal.digitChars_ne_nil n
  simp only [readDigits, htake, hdrop, hempty]
  rfl

/-- The digits of a number are an integer part. -/
theorem readWhole_digitChars (n : Nat) (h : EndsNumber rest) :
    readWhole (Decimal.digitChars n ++ rest) = some (Decimal.digitChars n, rest) := by
  have hzero : ¬ ((Decimal.digitChars n).head? = some '0' ∧ 1 < (Decimal.digitChars n).length) := by
    rintro ⟨hhead, hlength⟩
    by_cases hn : n = 0
    · subst hn
      exact absurd hlength (by decide)
    · exact Decimal.head?_digitChars (Nat.pos_of_ne_zero hn) hhead
  rw [readWhole, readDigits_digitChars n h]
  show (if _ then _ else _) = _
  rw [if_neg hzero]
  rfl

/-- Behind an end there is no fraction. -/
theorem readFraction_of_endsNumber (h : EndsNumber rest) : readFraction rest = some (none, rest) := by
  cases rest with
  | nil => rfl
  | cons c more =>
    rw [readFraction]
    intro other heq
    cases heq
    exact (endsNumber_cons.mp h).2.1 rfl

/-- Behind an end there is no exponent. -/
theorem readExponent_of_endsNumber (h : EndsNumber rest) : readExponent rest = some (none, rest) := by
  cases rest with
  | nil => rfl
  | cons c more =>
    obtain ⟨-, -, hlower, hupper⟩ := endsNumber_cons.mp h
    exact if_neg (not_or.mpr ⟨hlower, hupper⟩)

/-- Digits alone are a number without fraction and exponent. -/
theorem readUnsigned_digitChars (negative : Bool) (n : Nat) (h : EndsNumber rest) :
    readUnsigned negative (Decimal.digitChars n ++ rest) =
      some (⟨negative, Decimal.digitChars n, none, none⟩, rest) := by
  rw [readUnsigned, readWhole_digitChars n h]
  show (readFraction rest).bind _ = _
  rw [readFraction_of_endsNumber h]
  show (readExponent rest).bind _ = _
  rw [readExponent_of_endsNumber h]
  rfl

/-! ## The significand -/

/-- Digits behind others do not make the number smaller. -/
theorem le_foldl_digits (digits : List Char) (significand : Nat) :
    significand ≤ digits.foldl (fun n c => n * 10 + Decimal.digitValue c) significand := by
  induction digits generalizing significand with
  | nil => exact Nat.le_refl _
  | cons c digits ih =>
    have hstep := ih (significand * 10 + Decimal.digitValue c)
    rw [List.foldl_cons]
    omega

/-- Digits whose number fits the significand are all absorbed. -/
theorem absorbDigits_of_lt {digits : List Char} {significand : Nat}
    (h : digits.foldl (fun n c => n * 10 + Decimal.digitValue c) significand < significandLimit) :
    absorbDigits significand digits =
      (digits.foldl (fun n c => n * 10 + Decimal.digitValue c) significand, []) := by
  induction digits generalizing significand with
  | nil => rfl
  | cons c digits ih =>
    rw [List.foldl_cons] at h ⊢
    -- The first digits stand for no more than all of them.
    have hle := le_foldl_digits digits (significand * 10 + Decimal.digitValue c)
    rw [absorbDigits, if_pos (by omega), ih h]

/-- The digits of a number below the limit are all taken in, and none is left for the exponent. -/
theorem absorbDigits_digitChars (h : n < significandLimit) :
    absorbDigits 0 (Decimal.digitChars n) = (n, []) := by
  have hvalue : Decimal.ofDigits 10 (Decimal.digitChars n) = n := by
    rw [Decimal.ofDigits_ten fun c => Decimal.isDigit_of_mem_digitChars]
    exact Nat.ofDigitChars_ten_toDigits
  rw [Decimal.ofDigits] at hvalue
  rw [absorbDigits_of_lt (by rwa [hvalue]), hvalue]

/-- The digits of a number below the limit have it as their value. -/
theorem value?_digitChars (h : n < significandLimit) :
    NumberText.value? ⟨false, Decimal.digitChars n, none, none⟩ = some (.integer n) := by
  simp [NumberText.value?, absorbDigits_digitChars h]

/-- Digits behind a minus are the text of the negative number, unless they are a zero. -/
theorem value?_negative (hpos : 0 < n) (h : Int64.minValue.toInt ≤ -(n : Int)) :
    NumberText.value? ⟨true, Decimal.digitChars n, none, none⟩ = some (.integer (-n)) := by
  have hlimit : n < significandLimit := by
    rw [Int64.toInt_minValue] at h
    have hsize : significandLimit = 18446744073709551616 := rfl
    omega
  have hrange : 1 ≤ n ∧ Int64.minValue.toInt ≤ -(n : Int) := ⟨hpos, h⟩
  rw [NumberText.value?, absorbDigits_digitChars hlimit]
  exact if_pos hrange

/-! ## Words -/

/-- **Every word reads back from its text.** -/
theorem readNumber_integerChars (i : Int64) (h : EndsNumber rest) :
    readNumber (Decimal.integerChars i.toInt ++ rest) = some (.integer i.toInt, rest) := by
  have hlow := i.minValue_le_toInt
  have hhigh := i.toInt_lt
  rw [Decimal.integerChars]
  split
  next hneg =>
    have habs : (-(i.toInt.natAbs : Int)) = i.toInt := by omega
    rw [List.cons_append, readNumber, readUnsigned_digitChars true _ h]
    show (NumberText.value? _).bind _ = _
    rw [value?_negative (by omega) (by rw [habs]; exact hlow), habs]
    rfl
  next hnonneg =>
    have habs : (i.toInt.natAbs : Int) = i.toInt := by omega
    have hlimit : i.toInt.natAbs < significandLimit := by
      have hsize : significandLimit = 18446744073709551616 := rfl
      omega
    -- Without a minus in front, the digits are read as they stand.
    have hminus : ∀ more, Decimal.digitChars i.toInt.natAbs ++ rest ≠ '-' :: more := by
      intro more heq
      obtain ⟨c, digits, hdigits, hfirst⟩ := Decimal.digitChars_eq_cons i.toInt.natAbs
      rw [hdigits] at heq
      cases heq
      cases hfirst
    rw [readNumber, readUnsigned_digitChars false _ h]
    · show (NumberText.value? _).bind _ = _
      rw [value?_digitChars hlimit, habs]
      rfl
    · exact hminus

end Json

end TreePath
