import TreePath.Proofs.Navigation.Landing
import TreePath.Proofs.Slice.Changes

/-!
# What an assignment to a slice does

A sequence is changed through a slice in two ways.  With step one the part between the bounds is cut
out and the values are put in, however many there are; the cut is empty where the bounds are the
wrong way round.  With any other step the values take the places of the selected items one by one, and
there has to be one value for each of them.  An assignment that is refused leaves the sequence, and
one that succeeds is undone by assigning what it answered with (`write_slice`).
-/

set_option autoImplicit false

namespace TreePath

namespace Slice

variable {slice : Slice} {length : Nat}

/-- Where the cut of a slice of step one starts. -/
def cutStart (slice : Slice) (length : Nat) : Nat := (slice.exactStart length).toNat

/-- Where the cut of a slice of step one ends, which is not in front of its start. -/
def cutStop (slice : Slice) (length : Nat) : Nat :=
  max (slice.cutStart length) (slice.exactStop length).toNat

/-- The slice of step one between two places. -/
def span (start stop : Nat) : Slice := ⟨some (Int64.ofNat start), some (Int64.ofNat stop), 1⟩

/-- A span within a container cuts at its own places. -/
theorem cut_span {start stop : Nat} (hlength : FitsWord length) (horder : start ≤ stop)
    (hstop : stop ≤ length) :
    (span start stop).cutStart length = start ∧ (span start stop).cutStop length = stop := by
  have hword := fitsWord_iff.mp hlength
  have hplace (place : Nat) (h : place ≤ length) :
      exactBound length (1 : Int64).toInt (Int64.ofNat place).toInt = place := by
    have hfits : FitsWord place := fitsWord_iff.mpr (by omega)
    rw [hfits.toInt_ofNat, Int64.toInt_one]
    simp only [exactBound]
    omega
  have hstart : (span start stop).exactStart length = start := hplace start (by omega)
  have hend : (span start stop).exactStop length = stop := hplace stop hstop
  rw [cutStop, cutStart, hstart, hend]
  omega

end Slice

variable {items values : List Node} {range : Slice}

/-- With a step of one, the values take the place of the items from the start to the stop, however
many there are. -/
theorem assignSlice_of_step_one (hlength : FitsWord items.length) (hstep : range.step = 1)
    (values : List Node) :
    assignSlice items range (.sequence values) =
      .ok ((items.take (range.cutStop items.length)).drop (range.cutStart items.length),
        items.take (range.cutStart items.length) ++ values ++
          items.drop (range.cutStop items.length)) := by
  obtain ⟨hstart, hstop⟩ := Slice.toInt_bounds hlength range
  simp only [assignSlice, if_pos hstep, hstart, hstop]
  rw [Slice.cutStop, Nat.max_comm]
  rfl

/-- Cutting the values out again and putting in what they replaced brings the items back. -/
theorem assignSlice_span {start stop : Nat} (hstart : start ≤ items.length) (horder : start ≤ stop)
    (hnew : FitsWord (items.take start ++ values ++ items.drop stop).length) :
    assignSlice (items.take start ++ values ++ items.drop stop)
        (Slice.span start (start + values.length)) (.sequence ((items.take stop).drop start)) =
      .ok (values, items) := by
  have hfront : (items.take start).length = start := List.length_take_of_le hstart
  have hmiddle : (items.take start ++ values).length = start + values.length := by
    rw [List.length_append, hfront]
  have hwithin : start + values.length ≤
      (items.take start ++ values ++ items.drop stop).length := by
    rw [List.length_append, hmiddle]
    omega
  obtain ⟨hcutStart, hcutStop⟩ := Slice.cut_span hnew (Nat.le_add_right start values.length) hwithin
  have hbefore : (items.take start ++ values ++ items.drop stop).take start = items.take start := by
    rw [List.append_assoc, List.take_left' hfront]
  have hparts : items.take start ++ (items.take stop).drop start = items.take stop := by
    have htake : items.take start = (items.take stop).take start := by
      rw [List.take_take, Nat.min_eq_left horder]
    rw [htake, List.take_append_drop]
  rw [assignSlice_of_step_one hnew rfl, hcutStart, hcutStop, hbefore, List.take_left' hmiddle,
    List.drop_left' hmiddle, List.drop_left' hfront, hparts, List.take_append_drop]

/-- With another step, a value of another length than the selection is refused with both lengths. -/
theorem assignSlice_of_length_ne (hstep : range.step ≠ 1)
    (hcount : values.length ≠ (range.positions items.length).length) :
    assignSlice items range (.sequence values) =
      .error (.lengthMismatch values.length (range.positions items.length).length) := by
  simp only [assignSlice, if_neg hstep, if_neg (Ne.symm hcount)]

/-- With a step other than one the values replace the selected items, and what they replaced can be
assigned again. -/
theorem assignSlice_of_length_eq (hlength : FitsWord items.length) (hstep : range.step ≠ 1)
    (hcount : values.length = (range.positions items.length).length) :
    ∃ old new, Replaced items values (range.positions items.length) old new ∧
      assignSlice items range (.sequence values) = .ok (old, new) ∧
      assignSlice new range (.sequence old) = .ok (values, items) := by
  have hnodup : (range.positions items.length).Nodup := Slice.nodup_positions hlength
  have hwithin : ∀ p ∈ range.positions items.length, p < items.length :=
    fun p => Slice.lt_of_mem_positions hlength
  have hreplaced := replaced_exchange hnodup hwithin hcount.symm
  refine ⟨_, _, hreplaced, ?_, ?_⟩
  · simp only [assignSlice, if_neg hstep, if_pos hcount.symm]
  · simp only [assignSlice, if_neg hstep, hreplaced.new_length, if_pos hreplaced.old_length.symm]
    rw [hreplaced.exchange_back hnodup hwithin]

namespace Node

/-- A write to a slice of a sequence that the assignment accepts answers with the old items and leaves
the new ones. -/
theorem write_items_ok {value : Node} {old new : List Node}
    (h : assignSlice items range value = .ok (old, new)) :
    write value (sequence items) [.slice range] = .done (sequence old) (sequence new) := by
  rw [write, mutate, mutateLast, writeLast_items_ok h]
  rfl

/-- A write to a slice of a sequence that the assignment refuses leaves the sequence as it was. -/
theorem write_items_error {value : Node} {fault : AssignmentFault}
    (h : assignSlice items range value = .error fault) :
    write value (sequence items) [.slice range] =
      .failed (.invalidAssignment (.slice range) fault) (sequence items) := by
  rw [write, mutate, mutateLast, writeLast_items_error h]
  rfl

/-- **An assignment to a slice replaces what the slice selects, or nothing, and can be undone.**  A
value that is not a sequence is refused.  With step one the part of the items from the start to the
stop is replaced, or nothing in front of the start where the stop does not come after it.  With any
other step the k-th value replaces the item at the k-th selected position, all other positions keep
their items, and reading the slice gives the values; a different number of values is refused.  What is
refused leaves the sequence.  Writing back what the assignment answered with, for step one to the
span of the new values, restores the sequence. -/
theorem write_slice (hlength : FitsWord items.length) (range : Slice) :
    (∀ value : Node, value.items? = none →
      write value (sequence items) [.slice range] =
        .failed (.invalidAssignment (.slice range) (.notASequence value.kind)) (sequence items)) ∧
    ∀ values : List Node,
      (range.step = 1 →
        let start := range.cutStart items.length
        let stop := range.cutStop items.length
        let cut := (items.take stop).drop start
        let new := items.take start ++ values ++ items.drop stop
        write (sequence values) (sequence items) [.slice range] =
          .done (sequence cut) (sequence new) ∧
        (FitsWord new.length →
          write (sequence cut) (sequence new) [.slice (Slice.span start (start + values.length))] =
            .done (sequence values) (sequence items))) ∧
      (range.step ≠ 1 → values.length ≠ (range.positions items.length).length →
        write (sequence values) (sequence items) [.slice range] =
          .failed (.invalidAssignment (.slice range)
            (.lengthMismatch values.length (range.positions items.length).length))
            (sequence items)) ∧
      (range.step ≠ 1 → values.length = (range.positions items.length).length →
        ∃ old new, Replaced items values (range.positions items.length) old new ∧
          write (sequence values) (sequence items) [.slice range] =
            .done (sequence old) (sequence new) ∧
          read (sequence new) [.slice range] = .ok (some (sequence values)) ∧
          write (sequence old) (sequence new) [.slice range] =
            .done (sequence values) (sequence items)) := by
  constructor
  · intro value hvalue
    apply write_items_error
    cases value with
    | mapping entries => rfl
    | sequence values => cases hvalue
    | scalar leaf => rfl
  intro values
  refine ⟨?_, ?_, ?_⟩
  · intro hstep
    refine ⟨write_items_ok (assignSlice_of_step_one hlength hstep values), ?_⟩
    intro hnew
    have hstart : range.cutStart items.length ≤ items.length := by
      have hpos : 0 < range.step := by rw [hstep]; decide
      have hbound := (Slice.bounds_upward hlength hpos).1.2
      rw [(Slice.toInt_bounds hlength range).1] at hbound
      rw [Slice.cutStart]
      omega
    exact write_items_ok (assignSlice_span hstart (Nat.le_max_left _ _) hnew)
  · intro hstep hcount
    exact write_items_error (assignSlice_of_length_ne hstep hcount)
  · intro hstep hcount
    obtain ⟨old, new, hreplaced, hassign, hback⟩ := assignSlice_of_length_eq hlength hstep hcount
    refine ⟨old, new, hreplaced, write_items_ok hassign, ?_, write_items_ok hback⟩
    have hpick := hreplaced.pick_new fun p => Slice.lt_of_mem_positions hlength
    rw [read, readLast_items, hreplaced.new_length, hpick]

/-- Bounds the wrong way round insert in front of the start, and writing back nothing removes what was
inserted; backwards over both items one value is too few. -/
theorem write_slice_sample :
    FitsWord [null, emptyMapping].length ∧
      write (sequence [null]) (sequence [null, emptyMapping]) [.slice ⟨some 1, some 0, 1⟩] =
        .done (sequence []) (sequence [null, null, emptyMapping]) ∧
      write (sequence []) (sequence [null, null, emptyMapping]) [.slice (Slice.span 1 2)] =
        .done (sequence [null]) (sequence [null, emptyMapping]) ∧
      write (sequence [null]) (sequence [null, emptyMapping]) [.slice ⟨none, none, -1⟩] =
        .failed (.invalidAssignment (.slice ⟨none, none, -1⟩) (.lengthMismatch 1 2))
          (sequence [null, emptyMapping]) := by
  have hlength : FitsWord [null, emptyMapping].length := fitsWord_iff.mpr (by decide)
  have hstart : Slice.cutStart ⟨some 1, some 0, 1⟩ [null, emptyMapping].length = 1 := by decide
  have hstop : Slice.cutStop ⟨some 1, some 0, 1⟩ [null, emptyMapping].length = 1 := by decide
  have hcount : (Slice.positions ⟨none, none, -1⟩ [null, emptyMapping].length).length = 2 := by
    decide +kernel
  have hforward := ((write_slice hlength ⟨some 1, some 0, 1⟩).2 [null]).1 rfl
  have hbackward := ((write_slice hlength ⟨none, none, -1⟩).2 [null]).2.1 (by decide)
  rw [hstart, hstop] at hforward
  rw [hcount] at hbackward
  exact ⟨hlength, hforward.1, hforward.2 (fitsWord_iff.mpr (by decide)), hbackward (by decide)⟩

end Node

end TreePath
