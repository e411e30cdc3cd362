import Mathlib.Data.List.Basic
import TreePath.Decimal.Integer

/-!
# Written integers are read back

The digits of a natural number are digits of ASCII that stand for the number (`readNat_digitChars`),
and the text of an integer is one or more of them behind a minus where it is negative.  Every machine
word reads back from its text (`readInt64_integerChars`), the smallest one included.

What is read as an integer at all is said by `Denotes`: digits with an optional sign, of either kind,
and any number of leading zeros (`readInteger_eq_some_iff`).
-/

set_option autoImplicit false

namespace TreePath

namespace Decimal

variable {c : Char} {n : Nat}

/-- The value of a decimal digit is how far it stands behind the digit zero. -/
theorem digitValue_of_isDigit (h : c.isDigit) : digitValue c = c.toNat - '0'.toNat := by
  have hrange : '0' ≤ c ∧ c ≤ '9' := by
    simpa [Char.isDigit, Char.le_def] using h
  rw [digitValue, if_pos hrange]

/-- A decimal digit is a digit in base ten. -/
theorem isDigitOf_ten (h : c.isDigit) : isDigitOf 10 c := by
  have hrange : '0'.val ≤ c.val ∧ c.val ≤ '9'.val := by simpa [Char.isDigit] using h
  have hupper : c.toNat ≤ 57 := UInt32.le_iff_toNat_le.mp hrange.2
  rw [isDigitOf, digitValue_of_isDigit h, decide_eq_true_eq]
  have hzero : '0'.toNat = 48 := rfl
  omega

/-- No letter is a decimal digit. -/
theorem isDigit_of_isDigitOf_ten (h : isDigitOf 10 c) : c.isDigit := by
  rw [isDigitOf, decide_eq_true_eq, digitValue] at h
  split at h
  next hrange => simpa [Char.isDigit, Char.le_def] using hrange
  next =>
    split at h
    next => omega
    next => split at h <;> omega

/-- A natural number is written in decimal digits. -/
theorem isDigit_of_mem_digitChars (h : c ∈ digitChars n) : c.isDigit :=
  Nat.isDigit_of_mem_toDigits (by decide) (by decide) h

/-- A natural number has at least one digit. -/
theorem digitChars_ne_nil (n : Nat) : digitChars n ≠ [] := Nat.toDigits_ne_nil

/-- The digits of a number begin with a digit. -/
theorem digitChars_eq_cons (n : Nat) : ∃ c digits, digitChars n = c :: digits ∧ c.isDigit := by
  obtain ⟨c, digits, hdigits⟩ := List.exists_cons_of_ne_nil (digitChars_ne_nil n)
  have hmem : c ∈ digitChars n := hdigits ▸ List.mem_cons_self
  exact ⟨c, digits, hdigits, isDigit_of_mem_digitChars hmem⟩

/-- The digits of a positive number do not begin with a zero. -/
theorem head?_digitChars {n : Nat} (h : 0 < n) : (digitChars n).head? ≠ some '0' := by
  induction n using Nat.strongRecOn with
  | ind n ih =>
    rw [digitChars, Nat.toDigits_eq_if (by decide)]
    split
    next hlt =>
      have hdigit : ∀ m < 10, 0 < m → m.digitChar ≠ '0' := by decide
      rw [List.head?_cons, Ne, Option.some.injEq]
      exact hdigit n hlt h
    next hge =>
      -- All digits but the last are those of the tenth part.
      have htenth := ih (n / 10) (by omega) (by omega)
      rw [List.head?_append_of_ne_nil _ Nat.toDigits_ne_nil]
      exact htenth

/-- The text of an integer begins with a digit or a minus. -/
theorem integerChars_eq_cons (i : Int) :
    ∃ c more, integerChars i = c :: more ∧ (c.isDigit ∨ c = '-') := by
  rw [integerChars]
  split
  next => exact ⟨'-', _, rfl, .inr rfl⟩
  next =>
    obtain ⟨c, digits, hdigits, hfirst⟩ := digitChars_eq_cons i.natAbs
    exact ⟨c, digits, hdigits, .inl hfirst⟩

/-- The text of an integer is not empty. -/
theorem integerChars_ne_nil (i : Int) : integerChars i ≠ [] := by
  obtain ⟨c, more, hchars, -⟩ := integerChars_eq_cons i
  rw [hchars]
  exact List.cons_ne_nil c more

/-- The value of digits in base ten is that of the library. -/
theorem ofDigits_ten {digits : List Char} (h : ∀ c ∈ digits, c.isDigit) :
    ofDigits 10 digits = Nat.ofDigitChars 10 digits 0 := by
  rw [ofDigits, Nat.ofDigitChars_eq_foldl]
  refine List.foldl_ext _ _ 0 fun sum c hc => ?_
  rw [digitValue_of_isDigit (h c hc), Nat.mul_comm]

/-- A natural number is read from one or more digits as their value, and from nothing else. -/
theorem readNat_eq_some_iff {text : List Char} :
    readNat 10 text = some n ↔
      text ≠ [] ∧ (∀ c ∈ text, c.isDigit) ∧ Nat.ofDigitChars 10 text 0 = n := by
  have hdigits : text.all (isDigitOf 10) ↔ ∀ c ∈ text, c.isDigit := by
    rw [List.all_eq_true]
    exact forall₂_congr fun c _ => ⟨isDigit_of_isDigitOf_ten, isDigitOf_ten⟩
  have hread : (!text.isEmpty && text.all (isDigitOf 10)) = true ↔
      text ≠ [] ∧ ∀ c ∈ text, c.isDigit := by
    rw [Bool.and_eq_true, hdigits]
    simp
  rw [readNat]
  split
  next h =>
    obtain ⟨hne, hall⟩ := hread.mp h
    rw [ofDigits_ten hall, Option.some.injEq]
    exact ⟨fun hvalue => ⟨hne, hall, hvalue⟩, fun hvalue => hvalue.2.2⟩
  next h =>
    constructor
    · intro hnone
      cases hnone
    · rintro ⟨hne, hall, -⟩
      exact absurd (hread.mpr ⟨hne, hall⟩) h

/-- A text is read as a natural number when it consists of digits and is not empty, however many they
are. -/
theorem isSome_readNat_iff {text : List Char} :
    (readNat 10 text).isSome ↔ text ≠ [] ∧ ∀ c ∈ text, c.isDigit := by
  simp [Option.isSome_iff_exists, readNat_eq_some_iff]

/-- The digits of a number are read as the number. -/
theorem readNat_digitChars (n : Nat) : readNat 10 (digitChars n) = some n :=
  readNat_eq_some_iff.mpr
    ⟨digitChars_ne_nil n, fun _ => isDigit_of_mem_digitChars, Nat.ofDigitChars_ten_toDigits⟩

/-- Digits without a sign are read as a natural number. -/
theorem readInteger_digitChars (n : Nat) : readInteger (digitChars n) = some (n : Int) := by
  obtain ⟨first, digits, hdigits, hfirst⟩ := digitChars_eq_cons n
  have hminus : first ≠ '-' := by
    rintro rfl
    cases hfirst
  have hplus : first ≠ '+' := by
    rintro rfl
    cases hfirst
  rw [hdigits, readInteger, ← hdigits, readNat_digitChars]
  · rfl
  · simp [hminus]
  · simp [hplus]

/-- The text of an integer is read as the integer. -/
theorem readInteger_integerChars (i : Int) : readInteger (integerChars i) = some i := by
  rw [integerChars]
  split
  next hnegative =>
    rw [readInteger, readNat_digitChars]
    show some (-(i.natAbs : Int)) = some i
    congr 1
    omega
  next hnonnegative =>
    rw [readInteger_digitChars]
    congr 1
    omega

/-! ## What is read as an integer -/

/-- One or more digits, with an optional sign in front, stand for an integer. -/
inductive Denotes : List Char → Int → Prop
  | unsigned {digits : List Char} : digits ≠ [] → (∀ c ∈ digits, c.isDigit) →
      Denotes digits (Nat.ofDigitChars 10 digits 0)
  | plus {digits : List Char} : digits ≠ [] → (∀ c ∈ digits, c.isDigit) →
      Denotes ('+' :: digits) (Nat.ofDigitChars 10 digits 0)
  | minus {digits : List Char} : digits ≠ [] → (∀ c ∈ digits, c.isDigit) →
      Denotes ('-' :: digits) (-(Nat.ofDigitChars 10 digits 0 : Int))

variable {text : List Char}

/-- What denotes an integer is not empty. -/
theorem Denotes.ne_nil {i : Int} (h : Denotes text i) : text ≠ [] := by
  cases h with
  | unsigned hne _ => exact hne
  | plus _ _ => exact List.cons_ne_nil _ _
  | minus _ _ => exact List.cons_ne_nil _ _

/-- What denotes an integer has only signs and digits in it. -/
theorem Denotes.char {i : Int} (h : Denotes text i) (hc : c ∈ text) :
    c = '+' ∨ c = '-' ∨ c.isDigit := by
  cases h with
  | unsigned _ hall => exact .inr (.inr (hall c hc))
  | plus _ hall => exact (List.mem_cons.mp hc).imp_right fun hmem => .inr (hall c hmem)
  | minus _ hall => exact .inr ((List.mem_cons.mp hc).imp_right fun hmem => hall c hmem)

/-- **An integer is read from digits with an optional sign, and from nothing else.** -/
theorem readInteger_eq_some_iff {i : Int} : readInteger text = some i ↔ Denotes text i := by
  -- Every way to read ends with the value of digits.
  have hvalue (rest : List Char) (f : Int → Int) :
      ((do let n ← readNat 10 rest; pure (n : Int)).map f) = some i ↔
        rest ≠ [] ∧ (∀ c ∈ rest, c.isDigit) ∧ f (Nat.ofDigitChars 10 rest 0) = i := by
    simp [Option.bind_eq_some_iff, readNat_eq_some_iff, and_assoc]
  have hsign (rest : List Char) (sign : Char) (hdigit : ¬ sign.isDigit) :
      ¬ ∀ c ∈ sign :: rest, c.isDigit := fun hall => hdigit (hall sign List.mem_cons_self)
  fun_cases readInteger text with
  | case1 rest =>
    rw [hvalue]
    constructor
    · rintro ⟨hne, hall, rfl⟩
      exact .minus hne hall
    · intro h
      cases h with
      | unsigned _ hall => exact absurd hall (hsign rest '-' (by decide))
      | minus hne hall => exact ⟨hne, hall, rfl⟩
  | case2 rest =>
    rw [hvalue]
    constructor
    · rintro ⟨hne, hall, rfl⟩
      exact .plus hne hall
    · intro h
      cases h with
      | unsigned _ hall => exact absurd hall (hsign rest '+' (by decide))
      | plus hne hall => exact ⟨hne, hall, rfl⟩
  | case3 _ hminus hplus =>
    rw [hvalue]
    constructor
    · rintro ⟨hne, hall, rfl⟩
      exact .unsigned hne hall
    · intro h
      cases h with
      | unsigned hne hall => exact ⟨hne, hall, rfl⟩
      | plus _ _ => exact absurd rfl (hplus _)
      | minus _ _ => exact absurd rfl (hminus _)

/-- A word is read from the texts of its value. -/
theorem readInt64_eq_some_iff {i : Int64} : readInt64 text = some i ↔ Denotes text i.toInt := by
  rw [readInt64, Option.bind_eq_some_iff, ← readInteger_eq_some_iff]
  constructor
  · rintro ⟨value, hread, hword⟩
    rw [hread, toInt_of_word? hword]
  · intro hread
    exact ⟨i.toInt, hread, word?_toInt i⟩

/-- **Every word reads back from its text.** -/
theorem readInt64_integerChars (i : Int64) : readInt64 (integerChars i.toInt) = some i := by
  rw [readInt64, readInteger_integerChars, Option.bind_some, word?_toInt]

end Decimal

end TreePath
