import TreePath.Binary64
import TreePath.Decimal.Integer
import TreePath.Decimal.Shortest

/-!
# Floats read from decimal text

A decimal text is read as the float closest to its exact value, a tie going to the even significand.
The text needs a digit in front of the point or behind it; sign, point and exponent are optional.
-/

set_option autoImplicit false

namespace TreePath

namespace Decimal

/-- The float closest to a decimal.  Powers of ten far outside the range of floats are not computed:
their decimals are too large for any float, or vanish. -/
def nearest (negative : Bool) (d : Decimal) : Binary64 :=
  let top := (digitChars d.digits).length + d.exponent
  if d.digits = 0 ∨ top < -330 then Binary64.nearest negative 0 1
  else if 310 < top then Binary64.infinity negative
  else
    Binary64.nearest negative (d.digits * Nat.pow 10 d.exponent.toNat)
      (Nat.pow 10 (-d.exponent).toNat)

/-- Reads an exponent, zero when there is none. -/
def readExponent : List Char → Option Int
  | [] => some 0
  | c :: rest => if c = 'e' ∨ c = 'E' then readInteger rest else none

/-- Reads a decimal without a sign. -/
def readUnsigned (text : List Char) : Option Decimal :=
  let whole := text.takeWhile Char.isDigit
  let rest := text.dropWhile Char.isDigit
  let behindPoint := if rest.head? = some '.' then rest.drop 1 else []
  let fraction := behindPoint.takeWhile Char.isDigit
  let tail := if rest.head? = some '.' then behindPoint.dropWhile Char.isDigit else rest
  if whole.isEmpty && fraction.isEmpty then none
  else (readExponent tail).map fun e => ⟨ofDigits 10 (whole ++ fraction), e - fraction.length⟩

/-- Reads a decimal text as the closest float, infinity when it is too large. -/
def readFloat : List Char → Option Binary64
  | '-' :: rest => (readUnsigned rest).map (nearest true)
  | '+' :: rest => (readUnsigned rest).map (nearest false)
  | text => (readUnsigned text).map (nearest false)

end Decimal

end TreePath
