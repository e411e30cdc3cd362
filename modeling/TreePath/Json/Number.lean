import TreePath.Content
import TreePath.Decimal.Integer

/-!
# JSON numbers

A JSON number is an optional minus, an integer part without leading zeros, an optional fraction and
an optional exponent.  Its value is computed with a significand of 64 bits: digits that no longer fit
are counted in the integer part and dropped in the fraction.

A number without fraction and exponent whose digits all fit is an integer, except that minus zero,
and a negative number below the machine integers, are floats.  Every other number is the float
closest to its significand, multiplied by or divided by a float that is closest to a power of ten,
and rounded once more.  A number that is too large for a float is an error.
-/

set_option autoImplicit false

namespace TreePath

namespace Json

/-- The bound of the significand. -/
def significandLimit : Nat := UInt64.size

/-- Appends digits to a significand until one does not fit; gives the digits that are left. -/
def absorbDigits (significand : Nat) : List Char → Nat × List Char
  | [] => (significand, [])
  | c :: digits =>
    let next := significand * 10 + Decimal.digitValue c
    if next < significandLimit then absorbDigits next digits else (significand, c :: digits)

/-- The float closest to a power of ten. -/
def powerOfTen (exponent : Nat) : Binary64 := Binary64.nearest false (Nat.pow 10 exponent) 1

/-- Divides a float by a power of ten, in steps of at most 308.  The quotient of a long exponent
vanishes early. -/
def divideByPower (x : Binary64) (exponent : Nat) : Binary64 :=
  if exponent ≤ 308 then x.divMagnitudes (powerOfTen exponent)
  else if x.isZero then x
  else divideByPower (x.divMagnitudes (powerOfTen 308)) (exponent - 308)
termination_by exponent
decreasing_by omega

/-- The float for a significand and a power of ten, if there is one. -/
def scaleSignificand (significand : Nat) (exponent : Int) : Option Binary64 :=
  let x := Binary64.ofInt significand
  if exponent < 0 then some (divideByPower x exponent.natAbs)
  else if x.isZero then some x
  else if 308 < exponent then none
  else
    let product := x.mulMagnitudes (powerOfTen exponent.toNat)
    if product.isInfinite then none else some product

/-- The parts of a number as written. -/
structure NumberText where
  negative : Bool
  integer : List Char
  fraction : Option (List Char)
  exponent : Option Int

/-- The value of a number text. -/
def NumberText.value? (text : NumberText) : Option Numeral :=
  let (whole, dropped) := absorbDigits 0 text.integer
  if text.fraction.isNone && text.exponent.isNone && dropped.isEmpty then
    if !text.negative then some (.integer whole)
    else if 1 ≤ whole ∧ Int64.minValue.toInt ≤ -(whole : Int) then some (.integer (-whole))
    else some (.float (Binary64.ofInt whole).neg)
  else
    let fraction := text.fraction.getD []
    let (significand, unread) := absorbDigits whole fraction
    let places : Int := fraction.length - unread.length
    let exponent := dropped.length - places + text.exponent.getD 0
    (scaleSignificand significand exponent).map fun x => .float (if text.negative then x.neg else x)

/-- Reads one or more digits. -/
def readDigits (input : List Char) : Option (List Char × List Char) :=
  let digits := input.takeWhile Char.isDigit
  if digits.isEmpty then none else some (digits, input.dropWhile Char.isDigit)

/-- Reads an integer part: a zero alone, or digits that do not begin with one. -/
def readWhole (input : List Char) : Option (List Char × List Char) := do
  let (digits, rest) ← readDigits input
  if digits.head? = some '0' ∧ 1 < digits.length then none else return (digits, rest)

/-- Reads a fraction, if there is one. -/
def readFraction : List Char → Option (Option (List Char) × List Char)
  | '.' :: rest => (readDigits rest).map fun (digits, rest) => (some digits, rest)
  | rest => some (none, rest)

/-- Reads an exponent, if there is one. -/
def readExponent : List Char → Option (Option Int × List Char)
  | c :: rest =>
    if c = 'e' ∨ c = 'E' then
      match rest with
      | '-' :: rest => (readDigits rest).map fun (ds, rest) => (some (-(Decimal.ofDigits 10 ds : Int)), rest)
      | '+' :: rest => (readDigits rest).map fun (ds, rest) => (some (Decimal.ofDigits 10 ds : Int), rest)
      | rest => (readDigits rest).map fun (ds, rest) => (some (Decimal.ofDigits 10 ds : Int), rest)
    else some (none, c :: rest)
  | [] => some (none, [])

/-- Reads the text of a number behind its sign. -/
def readUnsigned (negative : Bool) (input : List Char) : Option (NumberText × List Char) := do
  let (whole, rest) ← readWhole input
  let (fraction, rest) ← readFraction rest
  let (exponent, rest) ← readExponent rest
  return (⟨negative, whole, fraction, exponent⟩, rest)

/-- Reads a number. -/
def readNumber (input : List Char) : Option (Numeral × List Char) := do
  let (text, rest) ← match input with
    | '-' :: rest => readUnsigned true rest
    | _ => readUnsigned false input
  return (← text.value?, rest)

end Json

end TreePath
