/-!
# Binary floating point numbers of 64 bits

A float is its word: a sign, eleven exponent bits and fifty-two fraction bits.  Everything a tree
needs of floats is decided here on that word and in exact natural arithmetic, so no operation of
this file depends on how a machine happens to compute.

A finite magnitude is `significand * 2 ^ scale`.  `nearest` goes the other way: it rounds a quotient
of two natural numbers to the closest magnitude, a half going to the even significand, and to
infinity where the quotient is too large.
-/

set_option autoImplicit false

namespace TreePath

/-- A binary64 number, given by its word. -/
structure Binary64 where
  bits : UInt64
  deriving DecidableEq, Repr, Inhabited

namespace Binary64

/-- The word of positive infinity: all exponent bits set, no fraction bit. -/
def infinityWord : Nat := 0x7FF0000000000000

/-- The weight of the sign bit. -/
def signWeight : Nat := Nat.pow 2 63

/-- True for words with the sign bit set, zeros and NaN included. -/
def isNegative (x : Binary64) : Bool := decide (signWeight ≤ x.bits.toNat)

/-- The word without its sign bit. -/
def magnitudeWord (x : Binary64) : Nat := x.bits.toNat % signWeight

/-- Not a number: the exponent has all its bits, and the fraction is not zero. -/
def isNaN (x : Binary64) : Bool := decide (infinityWord < x.magnitudeWord)

/-- One of the two infinities: the exponent has all its bits, and the fraction is zero. -/
def isInfinite (x : Binary64) : Bool := decide (x.magnitudeWord = infinityWord)

/-- A number with a value, neither an infinity nor a NaN. -/
def isFinite (x : Binary64) : Bool := decide (x.magnitudeWord < infinityWord)

/-- One of the two zeros. -/
def isZero (x : Binary64) : Bool := decide (x.magnitudeWord = 0)

/-- The float with the given sign whose word is otherwise `word`. -/
def ofMagnitude (negative : Bool) (word : Nat) : Binary64 :=
  ⟨UInt64.ofNat (if negative then signWeight + word else word)⟩

/-- Positive zero. -/
def zero : Binary64 := ofMagnitude false 0

/-- The infinity of the given sign. -/
def infinity (negative : Bool) : Binary64 := ofMagnitude negative infinityWord

/-- The quiet NaN with a clear sign. -/
def nan : Binary64 := ofMagnitude false 0x7FF8000000000000

/-- The same magnitude with the other sign. -/
def neg (x : Binary64) : Binary64 := ofMagnitude (!x.isNegative) x.magnitudeWord

/-- Numeric equality: the two zeros are equal and a NaN equals nothing, itself included. -/
def equal (x y : Binary64) : Bool :=
  !x.isNaN && !y.isNaN && (decide (x = y) || (x.isZero && y.isZero))

/-! ## Magnitudes -/

/-- The integer part of a finite magnitude, the leading bit of normal numbers included. -/
def significand (x : Binary64) : Nat :=
  let fraction := x.magnitudeWord % Nat.pow 2 52
  if x.magnitudeWord < Nat.pow 2 52 then fraction else Nat.pow 2 52 + fraction

/-- The power of two that scales the significand of a finite magnitude. -/
def scale (x : Binary64) : Int :=
  if x.magnitudeWord < Nat.pow 2 52 then -1074 else (x.magnitudeWord / Nat.pow 2 52 : Nat) - 1075

/-- True when the gap below the magnitude is half the gap above it, as at the powers of two. -/
def narrowBelow (x : Binary64) : Bool :=
  decide (x.magnitudeWord % Nat.pow 2 52 = 0) && decide (Nat.pow 2 53 ≤ x.magnitudeWord)

/-! ## Rounding -/

/-- The quotient rounded to the closest natural number, a half to the even one. -/
def divideToEven (numerator denominator : Nat) : Nat :=
  let quotient := numerator / denominator
  let twice := 2 * (numerator % denominator)
  if twice < denominator then quotient
  else if denominator < twice then quotient + 1
  else quotient + quotient % 2

/-- The greatest `e` with `2 ^ e ≤ numerator / denominator`, for positive arguments. -/
def binaryExponent (numerator denominator : Nat) : Int :=
  let e : Int := (numerator.log2 : Int) - denominator.log2
  if numerator * Nat.pow 2 (-e).toNat < denominator * Nat.pow 2 e.toNat then e - 1 else e

/-- The word of the magnitude closest to a quotient.  A significand that rounding carries to
`2 ^ 53` needs no case of its own, because it runs over into the exponent bits. -/
def nearestWord (numerator denominator : Nat) : Nat :=
  if numerator = 0 then 0
  else
    let e := max (binaryExponent numerator denominator - 52) (-1074)
    let rounded := divideToEven (numerator * Nat.pow 2 (-e).toNat) (denominator * Nat.pow 2 e.toNat)
    min ((e + 1074).toNat * Nat.pow 2 52 + rounded) infinityWord

/-- The float of the given sign closest to a quotient. -/
def nearest (negative : Bool) (numerator denominator : Nat) : Binary64 :=
  ofMagnitude negative (nearestWord numerator denominator)

/-- The float closest to an integer. -/
def ofInt (i : Int) : Binary64 := nearest (decide (i < 0)) i.natAbs 1

/-- The closest float to the product of two finite magnitudes. -/
def mulMagnitudes (x y : Binary64) : Binary64 :=
  let e := x.scale + y.scale
  nearest false (x.significand * y.significand * Nat.pow 2 e.toNat) (Nat.pow 2 (-e).toNat)

/-- The closest float to the quotient of two finite magnitudes, the second not zero. -/
def divMagnitudes (x y : Binary64) : Binary64 :=
  let e := x.scale - y.scale
  nearest false (x.significand * Nat.pow 2 e.toNat) (y.significand * Nat.pow 2 (-e).toNat)

end Binary64

end TreePath
