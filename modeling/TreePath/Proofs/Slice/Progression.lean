import Mathlib.Data.Rat.Floor
import TreePath.Proofs.Checked.Positions

/-!
# The positions of a slice as a progression

In integers of any size, a slice selects the terms of an arithmetic progression that come in front of
its stop.  The word arithmetic lists the same positions.  A run of positions has the k-th term at its
k-th place as long as this term precedes the stop (`getElem?_positionsFrom`).  It also ends where a
step leaves the range of words, but the terms from there on are behind every stop.  The number of
positions is then the number of steps that fit between start and stop, rounded up
(`length_positions`).
-/

set_option autoImplicit false

namespace TreePath.Slice

variable {slice : Slice} {length : Nat}

/-- The position comes in front of the stop, in the direction of the step. -/
def Precedes (step position stop : Int) : Prop :=
  (0 < step ∧ position < stop) ∨ (step < 0 ∧ stop < position)

/-- Whether a position is in front of a stop is decided by comparing integers. -/
instance (step position stop : Int) : Decidable (Precedes step position stop) :=
  inferInstanceAs (Decidable (_ ∨ _))

/-- The k-th term of the progression that a slice runs through, in integers of any size. -/
def term (slice : Slice) (length k : Nat) : Int := slice.exactStart length + k * slice.step.toInt

/-- The order along a step is the one that the words of the program are compared in. -/
theorem precedes_iff {step position stop : Int64} :
    Precedes step.toInt position.toInt stop.toInt ↔
      (0 < step ∧ position < stop) ∨ (step < 0 ∧ stop < position) := by
  simp only [Precedes, Int64.lt_iff_toInt_lt, Int64.toInt_zero]

/-- Steps go on in one direction, so a term that precedes the stop has only such terms in front of
it. -/
theorem Precedes.of_add {step position stop : Int} {k : Nat}
    (h : Precedes step (position + k * step) stop) : Precedes step position stop := by
  rcases h with ⟨hpos, hlt⟩ | ⟨hneg, hlt⟩
  · have hsteps : 0 ≤ k * step := Int.mul_nonneg (Int.natCast_nonneg k) (by omega)
    exact .inl ⟨hpos, by omega⟩
  · have hsteps : k * step ≤ 0 :=
      Int.mul_nonpos_of_nonneg_of_nonpos (Int.natCast_nonneg k) (by omega)
    exact .inr ⟨hneg, by omega⟩

/-- The term after `k + 1` steps is the one after `k` steps from the next position. -/
theorem add_succ_mul (position step : Int) (k : Nat) :
    position + (k + 1 : Nat) * step = position + step + k * step := by
  push_cast
  ring

/-- A sum without a word is behind every stop. -/
theorem not_precedes_of_checkedAdd {step position stop : Int64}
    (h : checkedAdd position step = none) :
    ¬ Precedes step.toInt (position.toInt + step.toInt) stop.toInt := by
  intro hprecedes
  have hword : ∃ next, checkedAdd position step = some next := by
    have hlow := position.minValue_le_toInt
    have hhigh := position.toInt_le
    have hstopLow := stop.minValue_le_toInt
    have hstopHigh := stop.toInt_le
    rcases hprecedes with ⟨hpos, hlt⟩ | ⟨hneg, hlt⟩
    · exact checkedAdd_eq_some (by omega) (by omega)
    · exact checkedAdd_eq_some (by omega) (by omega)
  obtain ⟨next, hnext⟩ := hword
  rw [h] at hnext
  cases hnext

/-- **A run has the k-th term at its k-th place**, as long as this term precedes the stop, and ends
there. -/
theorem getElem?_positionsFrom (stop step position : Int64) (k : Nat) :
    (positionsFrom stop step position)[k]? =
      if Precedes step.toInt (position.toInt + k * step.toInt) stop.toInt then
        some (position.toInt + k * step.toInt).toNat
      else none := by
  induction position using positionsFrom.induct stop step generalizing k with
  | case1 position hrange ih =>
    cases k with
    | zero =>
      have hfirst : Precedes step.toInt (position.toInt + (0 : Nat) * step.toInt) stop.toInt := by
        simpa using precedes_iff.mpr hrange
      rw [if_pos hfirst, positionsFrom, if_pos hrange]
      simp
    | succ k =>
      rw [add_succ_mul]
      cases hnext : checkedAdd position step with
      | some next =>
        have hsum := toInt_of_checkedAdd hnext
        rw [positionsFrom_next hrange hnext, List.getElem?_cons_succ, ih next hnext, hsum]
      | none =>
        have hbehind : ¬ Precedes step.toInt (position.toInt + step.toInt + k * step.toInt)
            stop.toInt := fun h => not_precedes_of_checkedAdd hnext h.of_add
        rw [positionsFrom_last hrange hnext, if_neg hbehind, List.getElem?_cons_succ,
          List.getElem?_nil]
  | case2 position hrange =>
    have hbehind : ¬ Precedes step.toInt (position.toInt + k * step.toInt) stop.toInt :=
      fun h => hrange (precedes_iff.mp h.of_add)
    rw [positionsFrom, if_neg hrange, if_neg hbehind, List.getElem?_nil]

/-- Each position of the selection is the term with its number, as long as the terms are in front of
the stop. -/
theorem getElem?_positions (hlength : FitsWord length) (hstep : slice.step ≠ 0) (k : Nat) :
    (slice.positions length)[k]? =
      if Precedes slice.step.toInt (slice.term length k) (slice.exactStop length) then
        some (slice.term length k).toNat
      else none := by
  obtain ⟨hstart, hstop⟩ := toInt_bounds hlength slice
  rw [positions_of_step_ne_zero hstep, getElem?_positionsFrom, hstart, hstop, term]

/-- The selection is longer than `k` when the term with this number is in front of the stop. -/
theorem lt_length_positions (hlength : FitsWord length) (hstep : slice.step ≠ 0) (k : Nat) :
    k < (slice.positions length).length ↔
      Precedes slice.step.toInt (slice.term length k) (slice.exactStop length) := by
  rw [← not_iff_not, Nat.not_lt, ← List.getElem?_eq_none_iff, getElem?_positions hlength hstep]
  split <;> simp_all

/-- A term in front of the stop is a position of the container. -/
theorem term_of_precedes (hlength : FitsWord length) {k : Nat}
    (h : Precedes slice.step.toInt (slice.term length k) (slice.exactStop length)) :
    0 ≤ slice.term length k ∧ slice.term length k < length := by
  obtain ⟨hstart, hstop⟩ := toInt_bounds hlength slice
  rw [term] at h ⊢
  rcases h with ⟨hpos, hlt⟩ | ⟨hneg, hlt⟩
  · have hup : 0 < slice.step := by rwa [Int64.lt_iff_toInt_lt, Int64.toInt_zero]
    obtain ⟨hfirst, hlast⟩ := bounds_upward hlength hup
    have hsteps : 0 ≤ k * slice.step.toInt := Int.mul_nonneg (Int.natCast_nonneg k) (by omega)
    omega
  · have hdown : ¬ 0 < slice.step := by
      rw [Int64.lt_iff_toInt_lt, Int64.toInt_zero]
      omega
    obtain ⟨hfirst, hlast⟩ := bounds_downward hlength hdown
    have hsteps : k * slice.step.toInt ≤ 0 :=
      Int.mul_nonpos_of_nonneg_of_nonpos (Int.natCast_nonneg k) (by omega)
    omega

/-- **There are as many positions as steps fit between the start and the stop**, rounded up. -/
theorem length_positions (hlength : FitsWord length) (hstep : slice.step ≠ 0) :
    ((slice.positions length).length : Int) =
      max 0 ⌈((slice.exactStop length - slice.exactStart length : Int) : ℚ) / slice.step.toInt⌉ := by
  have hcount : (slice.positions length).length =
      ⌈((slice.exactStop length - slice.exactStart length : Int) : ℚ) / slice.step.toInt⌉.toNat := by
    apply eq_of_forall_lt_iff
    intro k
    rw [lt_length_positions hlength hstep, Int.lt_toNat, Int.lt_ceil, term, Precedes]
    rcases Int.lt_trichotomy slice.step.toInt 0 with hneg | hzero | hpos
    · have hdiv : ((k : Int) : ℚ) <
          ((slice.exactStop length - slice.exactStart length : Int) : ℚ) / slice.step.toInt ↔
            slice.exactStop length - slice.exactStart length < k * slice.step.toInt := by
        rw [lt_div_iff_of_neg (by exact_mod_cast hneg)]
        norm_cast
      rw [hdiv]
      omega
    · exact absurd (Int64.toInt_inj.mp hzero) hstep
    · have hdiv : ((k : Int) : ℚ) <
          ((slice.exactStop length - slice.exactStart length : Int) : ℚ) / slice.step.toInt ↔
            k * slice.step.toInt < slice.exactStop length - slice.exactStart length := by
        rw [lt_div_iff₀ (by exact_mod_cast hpos)]
        norm_cast
      rw [hdiv]
      omega
  rw [hcount, Int.toNat_eq_max, max_comm]

/-- **The word arithmetic of slices is exact.**  In a container whose length a word counts, the bounds
of a slice are those of integers of any size.  With a step other than zero, the selected positions are
the terms `start + k * step` in front of the stop, one after another and none left out; they are
positions of the container, run strictly in the direction of the step, and are as many as steps fit
between start and stop, rounded up.  No operation on the way leaves the range of words or is without
a result. -/
theorem positions_exact (hlength : FitsWord length) (hstep : slice.step ≠ 0) :
    ((slice.bounds length).1.toInt = slice.exactStart length ∧
      (slice.bounds length).2.toInt = slice.exactStop length) ∧
    (∀ k : Nat, (slice.positions length)[k]?.map Int.ofNat =
      if Precedes slice.step.toInt (slice.term length k) (slice.exactStop length) then
        some (slice.term length k)
      else none) ∧
    (∀ p ∈ slice.positions length, p < length) ∧
    (0 < slice.step → (slice.positions length).Pairwise (· < ·)) ∧
    (slice.step < 0 → (slice.positions length).Pairwise (· > ·)) ∧
    ((slice.positions length).length : Int) =
      max 0 ⌈((slice.exactStop length - slice.exactStart length : Int) : ℚ) / slice.step.toInt⌉ ∧
    Checked.bounds slice length = .ok (slice.bounds length) ∧
    Checked.positions slice length = .ok (slice.positions length) := by
  refine ⟨toInt_bounds hlength slice, ?_, fun p => lt_of_mem_positions hlength, ?_, ?_,
    length_positions hlength hstep, Checked.bounds_eq_ok slice hlength,
    Checked.positions_eq_ok slice hlength⟩
  · intro k
    rw [getElem?_positions hlength hstep]
    split
    next hprecedes =>
      have hnonneg := (term_of_precedes hlength hprecedes).1
      rw [Option.map_some, Int.ofNat_eq_natCast, Int.toNat_of_nonneg hnonneg]
    next => rfl
  · intro hup
    rw [positions_of_step_ne_zero hstep]
    exact pairwise_positionsFrom_upward hup (bounds_upward hlength hup).1.1
  · intro hdown
    rw [positions_of_step_ne_zero hstep]
    have hnotUp : ¬ 0 < slice.step := by
      rw [Int64.lt_iff_toInt_lt] at hdown ⊢
      omega
    exact pairwise_positionsFrom_downward hdown (bounds_downward hlength hnotUp).2.1

/-- The least word as step takes the last item and no other. -/
theorem positions_exact_sample :
    FitsWord 3 ∧ (⟨none, none, Int64.minValue⟩ : Slice).step ≠ 0 ∧
      ((⟨none, none, Int64.minValue⟩ : Slice).positions 3)[0]?.map Int.ofNat = some 2 ∧
      ((⟨none, none, Int64.minValue⟩ : Slice).positions 3)[1]?.map Int.ofNat = none ∧
      Checked.positions ⟨none, none, Int64.minValue⟩ 3 = .ok [2] := by
  have hlength : FitsWord 3 := fitsWord_iff.mpr (by decide)
  have hstep : (⟨none, none, Int64.minValue⟩ : Slice).step ≠ 0 := by decide
  obtain ⟨-, hterms, -, -, -, -, -, hchecked⟩ := positions_exact hlength hstep
  have hfirst := hterms 0
  have hsecond := hterms 1
  rw [if_pos (by decide)] at hfirst
  rw [if_neg (by decide)] at hsecond
  refine ⟨hlength, hstep, hfirst, hsecond, ?_⟩
  rw [hchecked]
  decide +kernel

end TreePath.Slice
