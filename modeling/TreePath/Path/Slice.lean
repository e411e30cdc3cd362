import TreePath.Word

/-!
# Slices

A slice selects positions of a container by a start, a stop and a step, each a machine integer, the
bounds optional.  Negative bounds count from the end, and bounds beyond the container are moved to
its edge.  Positions are listed in selection order, so a negative step lists them backwards.

The arithmetic is that of 64-bit words.  A step that would leave their range ends the selection: no
position beyond it can lie inside a container.
-/

set_option autoImplicit false

namespace TreePath

/-- The sum of two words when it is a word again. -/
def checkedAdd (a b : Int64) : Option Int64 := word? (a.toInt + b.toInt)

/-- A checked sum that there is has the value of the sum in integers of any size. -/
theorem toInt_of_checkedAdd {a b c : Int64} (h : checkedAdd a b = some c) :
    c.toInt = a.toInt + b.toInt := toInt_of_word? h

/-- A range of positions; a bound that is missing is the edge where the step starts or ends. -/
structure Slice where
  start : Option Int64
  stop : Option Int64
  step : Int64
  deriving DecidableEq, Repr

namespace Slice

/-- A bound moved into the range from `lower` to `upper` of a container of `size` items. -/
def clamp (size lower upper : Int64) (bound : Int64) : Int64 :=
  if bound < 0 then max (bound + size) lower else min bound upper

/-- The start and the stop of the slice in a container of `length` items.  A step that is not
positive runs downwards, from the last position to in front of the first. -/
def bounds (slice : Slice) (length : Nat) : Int64 × Int64 :=
  let size := Int64.ofNat length
  let lower := if 0 < slice.step then 0 else -1
  let upper := if 0 < slice.step then size else size - 1
  let first := if 0 < slice.step then lower else upper
  let last := if 0 < slice.step then upper else lower
  ((slice.start.map (clamp size lower upper)).getD first,
    (slice.stop.map (clamp size lower upper)).getD last)

/-- The positions from `position` on, in steps, strictly before `stop` in the direction of the
step. -/
def positionsFrom (stop step position : Int64) : List Nat :=
  if (0 < step ∧ position < stop) ∨ (step < 0 ∧ stop < position) then
    position.toInt.toNat ::
      match _h : checkedAdd position step with
      | some next => positionsFrom stop step next
      | none => []
  else []
termination_by
  (if 0 < step then stop.toInt - position.toInt else position.toInt - stop.toInt).toNat
decreasing_by
  have hnext := toInt_of_checkedAdd _h
  rename_i hrange
  simp only [Int64.lt_iff_toInt_lt] at hrange ⊢
  simp only [Int64.toInt_zero] at hrange ⊢
  split <;> omega

/-- The selected positions of a container of `length` items, in selection order. -/
def positions (slice : Slice) (length : Nat) : List Nat :=
  if slice.step = 0 then []
  else
    let (start, stop) := slice.bounds length
    positionsFrom stop slice.step start

end Slice

/-! ## Picking out positions of a list -/

/-- The items at the given positions, in the order of the positions. -/
def pick {α : Type} (items : List α) (positions : List Nat) : List α :=
  let table := items.toArray
  positions.filterMap (table[·]?)

/-- Puts each value at its position, one after another, and keeps what stood there, in the order of
the positions. -/
def exchange {α : Type} (items : List α) : List (Nat × α) → List α × List α
  | [] => ([], items)
  | (position, value) :: rest =>
    let (old, new) := exchange (items.set position value) rest
    (items[position]?.toList ++ old, new)

/-- Marks the given positions of a list of `length` items. -/
def marks (length : Nat) (positions : List Nat) : List Bool :=
  positions.foldl (fun marks position => marks.set position true) (List.replicate length false)

/-- The items without a mark, in their own order. -/
def unmarked {α : Type} (items : List α) (marks : List Bool) : List α :=
  (items.zip marks).filterMap fun (item, mark) => if mark then none else some item

end TreePath
