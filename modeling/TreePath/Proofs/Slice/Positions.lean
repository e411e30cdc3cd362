import TreePath.Path.Slice

/-!
# The positions of a slice

What the word arithmetic of slices says about a container whose length a machine word counts.
Negative bounds are counted from the end without overflow and bounds beyond the container are moved
to its edge (`toInt_clamp`), so both bounds are those of integers of any size (`toInt_bounds`) and
lie within the container or at its edges (`bounds_upward`, `bounds_downward`).  A run of positions is
strictly monotone in the direction of its step.  Hence every selected position is a position of the
container (`lt_of_mem_positions`), no position is selected twice (`nodup_positions`), and a slice of
step one selects all positions between its bounds (`positions_of_step_one`).
-/

set_option autoImplicit false

namespace TreePath

/-- A sum that fits a word is found by the checked addition. -/
theorem checkedAdd_eq_some {a b : Int64} (hlow : Int64.minValue.toInt ≤ a.toInt + b.toInt)
    (hhigh : a.toInt + b.toInt ≤ Int64.maxValue.toInt) : ∃ c, checkedAdd a b = some c :=
  ⟨Int64.ofInt (a.toInt + b.toInt), word?_eq_some hlow hhigh⟩

namespace Slice

/-! ## Bounds -/

/-- The larger of two words, as an integer. -/
theorem toInt_max (a b : Int64) : (max a b).toInt = max a.toInt b.toInt := by
  show (if a ≤ b then b else a).toInt = _
  split
  next h =>
    rw [Int64.le_iff_toInt_le] at h
    omega
  next h =>
    rw [Int64.le_iff_toInt_le] at h
    omega

/-- The smaller of two words, as an integer. -/
theorem toInt_min (a b : Int64) : (min a b).toInt = min a.toInt b.toInt := by
  show (if a ≤ b then a else b).toInt = _
  split
  next h =>
    rw [Int64.le_iff_toInt_le] at h
    omega
  next h =>
    rw [Int64.le_iff_toInt_le] at h
    omega

/-- A negative bound is counted from the end without overflow, and a bound beyond the container is
moved to its edge. -/
theorem toInt_clamp {length : Nat} (hlength : FitsWord length) (lower upper bound : Int64) :
    (clamp (Int64.ofNat length) lower upper bound).toInt =
      if bound.toInt < 0 then max (bound.toInt + length) lower.toInt
      else min bound.toInt upper.toInt := by
  have hsize : (Int64.ofNat length).toInt = length := hlength.toInt_ofNat
  have hlow := bound.le_toInt
  have hhigh := fitsWord_iff.mp hlength
  have hlt : bound < 0 ↔ bound.toInt < 0 := by
    rw [Int64.lt_iff_toInt_lt, Int64.toInt_zero]
  rw [clamp]
  by_cases h : bound.toInt < 0
  · have hsum : (bound.toInt + (length : Int)).bmod (2 ^ 64) = bound.toInt + length := by
      apply Int.bmod_eq_of_le <;> omega
    rw [if_pos (hlt.mpr h), if_pos h, toInt_max, Int64.toInt_add, hsize, hsum]
  · rw [if_neg (fun hneg => h (hlt.mp hneg)), if_neg h, toInt_min]

variable {slice : Slice} {length : Nat}

/-- A bound in integers of any size: a negative one is counted from the end, and one beyond the
container is moved to its edge. -/
def exactBound (length : Nat) (step bound : Int) : Int :=
  let place := if bound < 0 then bound + length else bound
  if 0 < step then max 0 (min place length) else max (-1) (min place (length - 1))

/-- The start of a slice in integers of any size. -/
def exactStart (slice : Slice) (length : Nat) : Int :=
  match slice.start with
  | some bound => exactBound length slice.step.toInt bound.toInt
  | none => if 0 < slice.step.toInt then 0 else length - 1

/-- The stop of a slice in integers of any size. -/
def exactStop (slice : Slice) (length : Nat) : Int :=
  match slice.stop with
  | some bound => exactBound length slice.step.toInt bound.toInt
  | none => if 0 < slice.step.toInt then length else -1

/-- **The word arithmetic of the bounds is exact.** -/
theorem toInt_bounds (hlength : FitsWord length) (slice : Slice) :
    (slice.bounds length).1.toInt = slice.exactStart length ∧
      (slice.bounds length).2.toInt = slice.exactStop length := by
  have hsize : (Int64.ofNat length).toInt = length := hlength.toInt_ofNat
  have hsign : 0 < slice.step ↔ 0 < slice.step.toInt := by
    rw [Int64.lt_iff_toInt_lt, Int64.toInt_zero]
  simp only [bounds, exactStart, exactStop, hsign]
  by_cases hstep : 0 < slice.step.toInt
  · have hclamp (bound : Int64) : (clamp (Int64.ofNat length) 0 (Int64.ofNat length) bound).toInt =
        exactBound length slice.step.toInt bound.toInt := by
      rw [toInt_clamp hlength, hsize, Int64.toInt_zero]
      simp only [exactBound, if_pos hstep]
      split <;> omega
    simp only [if_pos hstep]
    constructor
    · cases slice.start with
      | none => exact Int64.toInt_zero
      | some bound => exact hclamp bound
    · cases slice.stop with
      | none => exact hsize
      | some bound => exact hclamp bound
  · have hone : (-1 : Int64).toInt = -1 := rfl
    have hupper : (Int64.ofNat length - 1).toInt = length - 1 := by
      have hhigh := fitsWord_iff.mp hlength
      rw [Int64.toInt_sub, hsize, Int64.toInt_one]
      apply Int.bmod_eq_of_le <;> omega
    have hclamp (bound : Int64) :
        (clamp (Int64.ofNat length) (-1) (Int64.ofNat length - 1) bound).toInt =
          exactBound length slice.step.toInt bound.toInt := by
      rw [toInt_clamp hlength, hupper, hone]
      simp only [exactBound, if_neg hstep]
      split <;> omega
    simp only [if_neg hstep]
    constructor
    · cases slice.start with
      | none => exact hupper
      | some bound => exact hclamp bound
    · cases slice.stop with
      | none => exact hone
      | some bound => exact hclamp bound

/-- The bounds of a slice that runs upwards lie between zero and the length. -/
theorem bounds_upward (hlength : FitsWord length) (hstep : 0 < slice.step) :
    (0 ≤ (slice.bounds length).1.toInt ∧ (slice.bounds length).1.toInt ≤ length) ∧
      0 ≤ (slice.bounds length).2.toInt ∧ (slice.bounds length).2.toInt ≤ length := by
  obtain ⟨hstart, hstop⟩ := toInt_bounds hlength slice
  rw [Int64.lt_iff_toInt_lt, Int64.toInt_zero] at hstep
  have hbound (bound : Int) : 0 ≤ exactBound length slice.step.toInt bound ∧
      exactBound length slice.step.toInt bound ≤ length := by
    simp only [exactBound, if_pos hstep]
    omega
  rw [hstart, hstop, exactStart, exactStop, if_pos hstep, if_pos hstep]
  constructor
  · cases slice.start with
    | none => simp
    | some bound => exact hbound bound.toInt
  · cases slice.stop with
    | none => simp
    | some bound => exact hbound bound.toInt

/-- The bounds of a slice that runs downwards lie between minus one and the last position. -/
theorem bounds_downward (hlength : FitsWord length) (hstep : ¬ 0 < slice.step) :
    (-1 ≤ (slice.bounds length).1.toInt ∧ (slice.bounds length).1.toInt ≤ length - 1) ∧
      -1 ≤ (slice.bounds length).2.toInt ∧ (slice.bounds length).2.toInt ≤ length - 1 := by
  obtain ⟨hstart, hstop⟩ := toInt_bounds hlength slice
  rw [Int64.lt_iff_toInt_lt, Int64.toInt_zero] at hstep
  have hbound (bound : Int) : -1 ≤ exactBound length slice.step.toInt bound ∧
      exactBound length slice.step.toInt bound ≤ length - 1 := by
    simp only [exactBound, if_neg hstep]
    omega
  rw [hstart, hstop, exactStart, exactStop, if_neg hstep, if_neg hstep]
  constructor
  · cases slice.start with
    | none =>
      dsimp only
      omega
    | some bound => exact hbound bound.toInt
  · cases slice.stop with
    | none =>
      dsimp only
      omega
    | some bound => exact hbound bound.toInt

/-! ## Positions -/

section Run

variable {stop step position next : Int64}
  (hrange : (0 < step ∧ position < stop) ∨ (step < 0 ∧ stop < position))

include hrange

/-- A run goes on with the next word. -/
theorem positionsFrom_next (hnext : checkedAdd position step = some next) :
    positionsFrom stop step position = position.toInt.toNat :: positionsFrom stop step next := by
  rw [positionsFrom, if_pos hrange]
  congr 1
  split
  next other hother =>
    obtain rfl : next = other := Option.some.inj (hnext.symm.trans hother)
    rfl
  next hnone =>
    rw [hnext] at hnone
    cases hnone

/-- A run ends where there is no next word. -/
theorem positionsFrom_last (hnext : checkedAdd position step = none) :
    positionsFrom stop step position = [position.toInt.toNat] := by
  rw [positionsFrom, if_pos hrange]
  congr 1
  split
  next other hother =>
    rw [hnext] at hother
    cases hother
  next => rfl

end Run

/-- An upward run from a position that is not negative stays between that position and the stop. -/
theorem mem_positionsFrom_upward {stop step position : Int64} (hstep : 0 < step)
    (hposition : 0 ≤ position.toInt) {p : Nat} (h : p ∈ positionsFrom stop step position) :
    position.toInt ≤ p ∧ (p : Int) < stop.toInt := by
  have hpos : 0 < step.toInt := by simpa [Int64.lt_iff_toInt_lt] using hstep
  fun_induction positionsFrom stop step position with
  | case1 position hrange ih =>
    have hlt : position.toInt < stop.toInt := by
      simp only [Int64.lt_iff_toInt_lt, Int64.toInt_zero] at hrange
      omega
    rcases List.mem_cons.mp h with rfl | hmem
    · omega
    · split at hmem
      next next hnext =>
        have hsum := toInt_of_checkedAdd hnext
        have htail := ih next hnext (by omega) hmem
        omega
      next => simp at hmem
  | case2 position hrange => simp at h

/-- A downward run to a stop that is not below minus one stays between the stop and its first
position. -/
theorem mem_positionsFrom_downward {stop step position : Int64} (hstep : step < 0)
    (hstop : -1 ≤ stop.toInt) {p : Nat} (h : p ∈ positionsFrom stop step position) :
    stop.toInt < p ∧ (p : Int) ≤ position.toInt := by
  have hneg : step.toInt < 0 := by simpa [Int64.lt_iff_toInt_lt] using hstep
  fun_induction positionsFrom stop step position with
  | case1 position hrange ih =>
    have hlt : stop.toInt < position.toInt := by
      simp only [Int64.lt_iff_toInt_lt, Int64.toInt_zero] at hrange
      omega
    rcases List.mem_cons.mp h with rfl | hmem
    · omega
    · split at hmem
      next next hnext =>
        have hsum := toInt_of_checkedAdd hnext
        have htail := ih next hnext hmem
        omega
      next => simp at hmem
  | case2 position hrange => simp at h

/-- An upward run lists its positions in increasing order. -/
theorem pairwise_positionsFrom_upward {stop step position : Int64} (hstep : 0 < step)
    (hposition : 0 ≤ position.toInt) :
    (positionsFrom stop step position).Pairwise (· < ·) := by
  have hpos : 0 < step.toInt := by simpa [Int64.lt_iff_toInt_lt] using hstep
  fun_induction positionsFrom stop step position with
  | case1 position hrange ih =>
    rw [List.pairwise_cons]
    split
    next next hnext =>
      have hsum := toInt_of_checkedAdd hnext
      refine ⟨?_, ih next hnext (by omega)⟩
      intro p hmem
      have hp := mem_positionsFrom_upward hstep (by omega) hmem
      omega
    next => exact ⟨by simp, List.Pairwise.nil⟩
  | case2 position hrange => exact List.Pairwise.nil

/-- A downward run to a stop that is not below minus one lists its positions in decreasing order. -/
theorem pairwise_positionsFrom_downward {stop step position : Int64} (hstep : step < 0)
    (hstop : -1 ≤ stop.toInt) : (positionsFrom stop step position).Pairwise (· > ·) := by
  have hneg : step.toInt < 0 := by simpa [Int64.lt_iff_toInt_lt] using hstep
  fun_induction positionsFrom stop step position with
  | case1 position hrange ih =>
    have hlt : stop.toInt < position.toInt := by
      simp only [Int64.lt_iff_toInt_lt, Int64.toInt_zero] at hrange
      omega
    rw [List.pairwise_cons]
    split
    next next hnext =>
      have hsum := toInt_of_checkedAdd hnext
      refine ⟨?_, ih next hnext⟩
      intro p hmem
      have hp := mem_positionsFrom_downward hstep hstop hmem
      omega
    next => exact ⟨by simp, List.Pairwise.nil⟩
  | case2 position hrange => exact List.Pairwise.nil

/-- Steps of one run through all positions in front of the stop. -/
theorem positionsFrom_one {stop position : Int64} (hposition : 0 ≤ position.toInt) :
    positionsFrom stop 1 position =
      List.range' position.toInt.toNat (stop.toInt - position.toInt).toNat := by
  induction position using positionsFrom.induct stop 1 with
  | case1 position hrange ih =>
    have hlt : position.toInt < stop.toInt := by
      simpa [Int64.lt_iff_toInt_lt] using hrange
    -- In front of the stop there is always a next word.
    have hhigh := stop.toInt_lt
    obtain ⟨next, hnext⟩ := checkedAdd_eq_some (a := position) (b := 1)
      (by rw [Int64.toInt_one, Int64.toInt_minValue]; omega)
      (by rw [Int64.toInt_one, Int64.toInt_maxValue]; omega)
    have hsum := toInt_of_checkedAdd hnext
    rw [Int64.toInt_one] at hsum
    have hcount : (stop.toInt - position.toInt).toNat =
        (stop.toInt - next.toInt).toNat + 1 := by omega
    have hfirst : position.toInt.toNat + 1 = next.toInt.toNat := by omega
    rw [positionsFrom_next hrange hnext, ih next hnext (by omega), hcount, List.range'_succ, hfirst]
  | case2 position hrange =>
    have hge : stop.toInt ≤ position.toInt := by
      simpa [Int64.lt_iff_toInt_lt] using hrange
    have hcount : (stop.toInt - position.toInt).toNat = 0 := by omega
    rw [positionsFrom, if_neg hrange, hcount, List.range'_zero]

/-- A step other than zero lists the positions from the start to the stop of the bounds. -/
theorem positions_of_step_ne_zero {slice : Slice} (hstep : slice.step ≠ 0) (length : Nat) :
    slice.positions length =
      positionsFrom (slice.bounds length).2 slice.step (slice.bounds length).1 := by
  rw [positions, if_neg hstep]

/-- A step that is neither zero nor positive is negative. -/
theorem step_neg {slice : Slice} (hzero : slice.step ≠ 0) (hstep : ¬ 0 < slice.step) :
    slice.step < 0 := by
  have hne : slice.step.toInt ≠ 0 := fun heq => hzero (Int64.toInt_inj.mp heq)
  rw [Int64.lt_iff_toInt_lt, Int64.toInt_zero] at hstep ⊢
  omega

/-- Every selected position is a position of the container. -/
theorem lt_of_mem_positions {slice : Slice} {length p : Nat} (hlength : FitsWord length)
    (h : p ∈ slice.positions length) : p < length := by
  by_cases hzero : slice.step = 0
  · simp [positions, hzero] at h
  rw [positions_of_step_ne_zero hzero] at h
  by_cases hstep : 0 < slice.step
  · obtain ⟨hstart, hstop⟩ := bounds_upward hlength hstep
    have hp := mem_positionsFrom_upward hstep hstart.1 h
    omega
  · obtain ⟨hstart, hstop⟩ := bounds_downward hlength hstep
    have hp := mem_positionsFrom_downward (step_neg hzero hstep) hstop.1 h
    omega

/-- No position is selected twice. -/
theorem nodup_positions {slice : Slice} {length : Nat} (hlength : FitsWord length) :
    (slice.positions length).Nodup := by
  by_cases hzero : slice.step = 0
  · simp [positions, hzero]
  rw [positions_of_step_ne_zero hzero]
  by_cases hstep : 0 < slice.step
  · obtain ⟨hstart, hstop⟩ := bounds_upward hlength hstep
    exact (pairwise_positionsFrom_upward hstep hstart.1).imp Nat.ne_of_lt
  · obtain ⟨hstart, hstop⟩ := bounds_downward hlength hstep
    exact (pairwise_positionsFrom_downward (step_neg hzero hstep) hstop.1).imp Nat.ne_of_gt

/-- A slice of step one selects the run of positions from its start to its stop. -/
theorem positions_of_step_one {slice : Slice} {length : Nat} (hlength : FitsWord length)
    (hstep : slice.step = 1) :
    slice.positions length =
      List.range' (slice.bounds length).1.toInt.toNat
        ((slice.bounds length).2.toInt.toNat - (slice.bounds length).1.toInt.toNat) := by
  have hpos : 0 < slice.step := by rw [hstep]; decide
  obtain ⟨hstart, hstop⟩ := bounds_upward hlength hpos
  rw [positions_of_step_ne_zero (by rw [hstep]; decide), hstep, positionsFrom_one hstart.1]
  congr 1
  omega

end Slice

end TreePath
