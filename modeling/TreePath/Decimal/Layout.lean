import TreePath.Decimal.Integer
import TreePath.Decimal.Shortest

/-!
# How floats are written

Which digits a float is written with is settled by `Decimal.shortest`.  What remains is layout: when
the number is written positionally, how an integral value and an exponent look, and what stands for
the values that are no number.  These decisions are one record, `Layout`, so that each text format
states its own in one place.
-/

set_option autoImplicit false

namespace TreePath

namespace Decimal

/-- The layout decisions of a format that writes floats. -/
structure Layout where
  /-- Exponents of the leading digit from here on are written positionally. -/
  plainFrom : Option Int
  /-- Exponents of the leading digit from here on are written with an exponent. -/
  plainBelow : Option Int
  /-- An integral value written positionally ends in a point and a zero. -/
  pointZero : Bool
  /-- A positive exponent has a sign. -/
  exponentPlus : Bool
  /-- Which of two equally close decimals is taken. -/
  tie : Tie
  /-- The text of a NaN. -/
  nan : String
  /-- The text of positive infinity; the negative one has a minus in front. -/
  infinity : String

/-- The digits with the point after the first `point` of them, zeros filling the gap on either side. -/
def positional (pointZero : Bool) (digits : List Char) (point : Int) : List Char :=
  if point ≤ 0 then
    '0' :: '.' :: List.replicate (-point).toNat '0' ++ digits
  else if (digits.length : Int) ≤ point then
    digits ++ List.replicate (point.toNat - digits.length) '0' ++ (if pointZero then ['.', '0'] else [])
  else
    digits.take point.toNat ++ '.' :: digits.drop point.toNat

/-- One digit in front of the point, then the exponent. -/
def scientific (exponentPlus : Bool) (digits : List Char) (exponent : Int) : List Char :=
  let fraction := digits.drop 1
  let sign := if exponent < 0 then ['-'] else if exponentPlus then ['+'] else []
  digits.take 1 ++ (if fraction.isEmpty then [] else '.' :: fraction) ++ 'e' :: sign ++
    digitChars exponent.natAbs

namespace Layout

/-- The text of a decimal without its sign. -/
def layout (l : Layout) (d : Decimal) : List Char :=
  let digits := digitChars d.digits
  let point := digits.length + d.exponent
  let leading := point - 1
  let plain := d.digits = 0 ∨ (l.plainFrom.all (· ≤ leading) ∧ l.plainBelow.all (leading < ·))
  if plain then positional l.pointZero digits (if d.digits = 0 then 1 else point)
  else scientific l.exponentPlus digits leading

/-- The text of a float. -/
def render (l : Layout) (x : Binary64) : String :=
  if x.isNaN then l.nan
  else
    let body := if x.isInfinite then l.infinity.toList else l.layout (shortest l.tie x)
    String.ofList (if x.isNegative then '-' :: body else body)

end Layout

/-- Floats as running text: positional at any size, integral values without a point. -/
def plainText : Layout where
  plainFrom := none
  plainBelow := none
  pointZero := false
  exponentPlus := false
  tie := .up
  nan := "NaN"
  infinity := "inf"

end Decimal

end TreePath
