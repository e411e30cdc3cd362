import TreePath.Word

/-!
# Integers as text

Integers are written in decimal digits with a minus where they are negative.  They are read from
digits of any radix up to sixteen, with an optional sign where a format allows one.  Only the digits
and letters of ASCII count as digits.
-/

set_option autoImplicit false

namespace TreePath

namespace Decimal

/-- The decimal digits of a natural number. -/
def digitChars (n : Nat) : List Char := Nat.toDigits 10 n

/-- The decimal text of an integer. -/
def integerChars (i : Int) : List Char :=
  if i < 0 then '-' :: digitChars i.natAbs else digitChars i.natAbs

/-- The decimal text of an integer, as a string. -/
def integerText (i : Int) : String := String.ofList (integerChars i)

/-- The value of a character as a digit, letters in either case. -/
def digitValue (c : Char) : Nat :=
  if '0' ≤ c ∧ c ≤ '9' then c.toNat - '0'.toNat
  else if 'a' ≤ c ∧ c ≤ 'f' then c.toNat - 'a'.toNat + 10
  else if 'A' ≤ c ∧ c ≤ 'F' then c.toNat - 'A'.toNat + 10
  else 16

/-- True of the digits of a radix. -/
def isDigitOf (radix : Nat) (c : Char) : Bool := digitValue c < radix

/-- The number that a list of digits stands for, the most significant digit first. -/
def ofDigits (radix : Nat) (digits : List Char) : Nat :=
  digits.foldl (fun n c => n * radix + digitValue c) 0

/-- Reads one or more digits and nothing else. -/
def readNat (radix : Nat) (text : List Char) : Option Nat :=
  if !text.isEmpty && text.all (isDigitOf radix) then some (ofDigits radix text) else none

/-- Reads an optional sign and decimal digits. -/
def readInteger : List Char → Option Int
  | '-' :: digits => (readNat 10 digits).map fun n => -(n : Int)
  | '+' :: digits => (readNat 10 digits).map fun n => (n : Int)
  | digits => (readNat 10 digits).map fun n => (n : Int)

/-- Reads a machine integer. -/
def readInt64 (text : List Char) : Option Int64 := (readInteger text).bind word?

end Decimal

end TreePath
