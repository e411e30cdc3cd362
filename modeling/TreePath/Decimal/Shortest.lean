import TreePath.Binary64

/-!
# The fewest decimal digits that identify a float

The decimals that read back as a finite float form an interval around it: from half way to the
neighbour below to half way to the neighbour above, both ends included exactly when the significand
is even.  `shortest` tries one, two, … seventeen digits; on each of these grids it tests the two
neighbours of the value, and the first grid with a hit wins.  Of two hits the closer one is taken,
and a tie is settled by the caller's rule.
-/

set_option autoImplicit false

namespace TreePath

/-- The number `digits * 10 ^ exponent`. -/
structure Decimal where
  digits : Nat
  exponent : Int
  deriving DecidableEq, Repr

namespace Decimal

/-- What to do when two decimals of the same length are equally close. -/
inductive Tie where
  | toEven
  | up
  deriving DecidableEq, Repr

/-- Compares `digits * 10 ^ exponent` with `n * 2 ^ j`, exactly. -/
def compareScaled (d : Decimal) (n : Nat) (j : Int) : Ordering :=
  compare (d.digits * Nat.pow 10 d.exponent.toNat * Nat.pow 2 (-j).toNat)
    (n * Nat.pow 2 j.toNat * Nat.pow 10 (-d.exponent).toNat)

/-- The decimal lies among the reals that round to the finite magnitude of `x`. -/
def readsBack (x : Binary64) (d : Decimal) : Bool :=
  let below := 4 * x.significand - (if x.narrowBelow then 1 else 2)
  let above := 4 * x.significand + 2
  let closed := x.significand % 2 == 0
  let toBelow := d.compareScaled below (x.scale - 2)
  let toAbove := d.compareScaled above (x.scale - 2)
  (toBelow == .gt || (closed && toBelow == .eq)) && (toAbove == .lt || (closed && toAbove == .eq))

/-- Moves factors of ten from the digits into the exponent, at most `fuel` of them. -/
def stripZeros (d : Decimal) : Nat → Decimal
  | 0 => d
  | fuel + 1 =>
    if d.digits ≠ 0 ∧ d.digits % 10 = 0 then stripZeros ⟨d.digits / 10, d.exponent + 1⟩ fuel else d

/-- The least `k` with `x < 10 ^ k`, for a magnitude that is not zero.  The binary logarithm gives a
start that is at most a step too low or too high. -/
def decimalScale (x : Binary64) : Int :=
  let top : Int := x.significand.log2 + x.scale
  let guess := top * 30103 / 100000
  let exceeds (k : Int) : Bool := compareScaled ⟨1, k⟩ x.significand x.scale == .gt
  if exceeds (guess - 1) then guess - 1
  else if exceeds guess then guess
  else if exceeds (guess + 1) then guess + 1
  else guess + 2

/-- The candidate with `count` digits closest to the value, if one of that length reads back. -/
def ofLength (tie : Tie) (x : Binary64) (k : Int) (count : Nat) : Option Decimal :=
  let grid := k - count
  let top := x.significand * Nat.pow 2 x.scale.toNat * Nat.pow 10 (-grid).toNat
  let bottom := Nat.pow 2 (-x.scale).toNat * Nat.pow 10 grid.toNat
  let low := top / bottom
  let fits (n : Nat) : Bool := readsBack x ⟨n, grid⟩
  match fits low, fits (low + 1) with
  | true, true =>
    let takeLow := match compare (2 * top) ((2 * low + 1) * bottom), tie with
      | .lt, _ => true
      | .gt, _ => false
      | .eq, .toEven => low % 2 == 0
      | .eq, .up => false
    some ⟨if takeLow then low else low + 1, grid⟩
  | true, false => some ⟨low, grid⟩
  | false, true => some ⟨low + 1, grid⟩
  | false, false => none

/-- The value itself, written out in full. -/
def exact (x : Binary64) : Decimal :=
  ⟨x.significand * Nat.pow 2 x.scale.toNat * Nat.pow 5 (-x.scale).toNat, min x.scale 0⟩

/-- The shortest decimal that reads back as the magnitude of a finite `x`, the closest of its length,
without trailing zeros. -/
def shortest (tie : Tie) (x : Binary64) : Decimal :=
  if x.isZero then ⟨0, 0⟩
  else
    let k := decimalScale x
    let found := (List.range' 1 17).findSome? (ofLength tie x k)
    stripZeros (found.getD (exact x)) 800

end Decimal

end TreePath
