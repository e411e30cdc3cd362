import TreePath.Navigation.Read
import TreePath.Proofs.Checked.Operation

/-!
# Positions, with everything checked

The arithmetic of indices and slices in operations that can stop: how an index and the bounds of a
slice are counted from the end of a container, and how the positions of a slice are listed.  In a
container whose length is the value of a word nothing stops any of it, whatever words the index, the
bounds and the step are (`resolveIndex_eq_ok`, `bounds_eq_ok`, `positions_eq_ok`).
-/

set_option autoImplicit false

namespace TreePath.Checked

/-! ## Definitions -/

/-- An index with the negative ones counted from the end. -/
def fromEnd (index : Int64) (length : Nat) : Checked Int64 :=
  if index < 0 then do
    let size ← size length
    add index size
  else .ok index

/-- The position that an index stands for. -/
def resolveIndex (index : Int64) (length : Nat) (found : Kind) : Checked (Except PathError Nat) := do
  let resolved ← fromEnd index length
  if resolved < 0 then return .error (.indexOutOfRange index length found)
  let position ← toPosition resolved
  return if position < length then .ok position else .error (.indexOutOfRange index length found)

/-- A bound moved into the range from `lower` to `upper`, or the default for a missing one. -/
def clamp (size lower upper default : Int64) : Option Int64 → Checked Int64
  | none => .ok default
  | some bound =>
    if bound < 0 then do
      let sum ← add bound size
      return max sum lower
    else .ok (min bound upper)

/-- The start and the stop of a slice in a container. -/
def bounds (slice : Slice) (length : Nat) : Checked (Int64 × Int64) := do
  let size ← size length
  if 0 < slice.step then
    let start ← clamp size 0 size 0 slice.start
    let stop ← clamp size 0 size size slice.stop
    return (start, stop)
  else
    let last ← sub size 1
    let start ← clamp size (-1) last last slice.start
    let stop ← clamp size (-1) last (-1) slice.stop
    return (start, stop)

/-- The positions from a word on, in steps, strictly before `stop` in the direction of the step. -/
def positionsFrom (stop step word : Int64) : Checked (List Nat) :=
  if (0 < step ∧ word < stop) ∨ (step < 0 ∧ stop < word) then do
    let position ← toPosition word
    match _h : checkedAdd word step with
    | some next => return position :: (← positionsFrom stop step next)
    | none => return [position]
  else return []
termination_by
  (if 0 < step then stop.toInt - word.toInt else word.toInt - stop.toInt).toNat
decreasing_by
  have hnext := toInt_of_checkedAdd _h
  rename_i hrange
  simp only [Int64.lt_iff_toInt_lt] at hrange ⊢
  simp only [Int64.toInt_zero] at hrange ⊢
  split <;> omega

/-- The selected positions of a container, in selection order. -/
def positions (slice : Slice) (length : Nat) : Checked (List Nat) :=
  if slice.step = 0 then .ok []
  else do
    let (start, stop) ← bounds slice length
    positionsFrom stop slice.step start

/-! ## Nothing stops them -/

variable {length : Nat}

/-- A negative word and a length have a sum. -/
theorem add_size_eq_ok {word : Int64} (h : word < 0) (hlength : FitsWord length) :
    add word (Int64.ofNat length) = .ok (word + Int64.ofNat length) := by
  have hsize := hlength.toInt_ofNat
  have hhigh := fitsWord_iff.mp hlength
  have hlow := word.le_toInt
  rw [Int64.lt_iff_toInt_lt, Int64.toInt_zero] at h
  apply add_eq_ok
  · rw [Int64.toInt_minValue, hsize]
    omega
  · rw [Int64.toInt_maxValue, hsize]
    omega

/-- Every index is counted from the end. -/
theorem fromEnd_eq_ok (index : Int64) (hlength : FitsWord length) :
    fromEnd index length = .ok (if index < 0 then index + Int64.ofNat length else index) := by
  rw [fromEnd]
  split
  next hneg =>
    rw [size_eq_ok hlength]
    exact add_size_eq_ok hneg hlength
  next => rfl

/-- Every index is resolved, to a position or to an error. -/
theorem resolveIndex_eq_ok (index : Int64) (hlength : FitsWord length) (found : Kind) :
    resolveIndex index length found = .ok (TreePath.resolveIndex index length found) := by
  rw [resolveIndex, TreePath.resolveIndex, fromEnd_eq_ok index hlength]
  generalize (if index < 0 then index + Int64.ofNat length else index) = resolved
  simp only [bind, Except.bind, pure, Except.pure]
  by_cases hneg : resolved < 0
  · have hnot : ¬ (0 ≤ resolved) := Int64.not_le.mpr hneg
    simp [hneg, hnot]
  · have hle : 0 ≤ resolved := Int64.not_lt.mp hneg
    have hnonneg : 0 ≤ resolved.toInt := by rwa [Int64.le_iff_toInt_le, Int64.toInt_zero] at hle
    simp [hneg, hle, toPosition_eq_ok hnonneg]

/-- Every bound is moved into its range. -/
theorem clamp_eq_ok (hlength : FitsWord length) (lower upper default : Int64)
    (bound : Option Int64) :
    clamp (Int64.ofNat length) lower upper default bound =
      .ok ((bound.map (Slice.clamp (Int64.ofNat length) lower upper)).getD default) := by
  cases bound with
  | none => rfl
  | some bound =>
    rw [Option.map_some, Option.getD_some, clamp, Slice.clamp]
    split
    next hneg =>
      rw [add_size_eq_ok hneg hlength]
      rfl
    next => rfl

/-- The last position of a container, minus one for an empty one, is a word. -/
theorem sub_size_eq_ok (hlength : FitsWord length) :
    sub (Int64.ofNat length) 1 = .ok (Int64.ofNat length - 1) := by
  have hsize := hlength.toInt_ofNat
  have hhigh := fitsWord_iff.mp hlength
  apply sub_eq_ok
  · rw [Int64.toInt_minValue, hsize, Int64.toInt_one]
    omega
  · rw [Int64.toInt_maxValue, hsize, Int64.toInt_one]
    omega

/-- Every slice has bounds. -/
theorem bounds_eq_ok (slice : Slice) (hlength : FitsWord length) :
    bounds slice length = .ok (slice.bounds length) := by
  rw [bounds, size_eq_ok hlength, Slice.bounds]
  simp only [bind, Except.bind]
  by_cases hstep : 0 < slice.step
  · simp only [if_pos hstep, clamp_eq_ok hlength]
    rfl
  · simp only [if_neg hstep, sub_size_eq_ok hlength, clamp_eq_ok hlength]
    rfl

section Run

variable {stop step word next : Int64}
  (hrange : (0 < step ∧ word < stop) ∨ (step < 0 ∧ stop < word)) (hword : 0 ≤ word.toInt)

include hrange hword

/-- Where a further step fits, the positions are the first one and those from the next word. -/
theorem positionsFrom_next (hnext : checkedAdd word step = some next) :
    positionsFrom stop step word = do
      let rest ← positionsFrom stop step next
      return word.toInt.toNat :: rest := by
  rw [positionsFrom, if_pos hrange, toPosition_eq_ok hword]
  show (match _h : checkedAdd word step with
    | some next => do return word.toInt.toNat :: (← positionsFrom stop step next)
    | none => pure [word.toInt.toNat]) = _
  split
  next other hother =>
    obtain rfl : next = other := Option.some.inj (hnext.symm.trans hother)
    rfl
  next hnone =>
    rw [hnext] at hnone
    cases hnone

/-- Where a further step does not fit a word, the first position is the last one, too. -/
theorem positionsFrom_last (hnext : checkedAdd word step = none) :
    positionsFrom stop step word = .ok [word.toInt.toNat] := by
  rw [positionsFrom, if_pos hrange, toPosition_eq_ok hword]
  show (match _h : checkedAdd word step with
    | some next => do return word.toInt.toNat :: (← positionsFrom stop step next)
    | none => pure [word.toInt.toNat]) = _
  split
  next other hother =>
    rw [hnext] at hother
    cases hother
  next => rfl

end Run

/-- A run of positions is listed when it starts within the container and runs upwards, or runs
downwards and stops in front of the container at the latest. -/
theorem positionsFrom_eq_ok {stop step word : Int64} (hup : 0 < step → 0 ≤ word.toInt)
    (hdown : step < 0 → -1 ≤ stop.toInt) :
    positionsFrom stop step word = .ok (Slice.positionsFrom stop step word) := by
  induction word using Slice.positionsFrom.induct stop step with
  | case1 word hrange ih =>
    have hword : 0 ≤ word.toInt := by
      rcases hrange with ⟨hpos, -⟩ | ⟨hneg, hlt⟩
      · exact hup hpos
      · have hstop := hdown hneg
        rw [Int64.lt_iff_toInt_lt] at hlt
        omega
    cases hnext : checkedAdd word step with
    | none =>
      rw [positionsFrom_last hrange hword hnext, Slice.positionsFrom_last hrange hnext]
    | some next =>
      have hsum := toInt_of_checkedAdd hnext
      have hup' : 0 < step → 0 ≤ next.toInt := by
        intro hpos
        have hstart := hup hpos
        rw [Int64.lt_iff_toInt_lt, Int64.toInt_zero] at hpos
        omega
      rw [positionsFrom_next hrange hword hnext, ih next hnext hup',
        Slice.positionsFrom_next hrange hnext]
      rfl
  | case2 word hrange =>
    rw [positionsFrom, Slice.positionsFrom, if_neg hrange, if_neg hrange]
    rfl

/-- The positions of every slice are listed. -/
theorem positions_eq_ok (slice : Slice) (hlength : FitsWord length) :
    positions slice length = .ok (slice.positions length) := by
  by_cases hzero : slice.step = 0
  · rw [positions, Slice.positions, if_pos hzero, if_pos hzero]
  · rw [positions, if_neg hzero, bounds_eq_ok slice hlength,
      Slice.positions_of_step_ne_zero hzero]
    apply positionsFrom_eq_ok
    · intro hpos
      exact (Slice.bounds_upward hlength hpos).1.1
    · intro hneg
      have hnot : ¬ (0 < slice.step) := fun hpos => by
        rw [Int64.lt_iff_toInt_lt] at hneg hpos
        omega
      exact (Slice.bounds_downward hlength hnot).2.1

end TreePath.Checked
