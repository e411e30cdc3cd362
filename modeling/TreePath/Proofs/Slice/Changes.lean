import TreePath.Navigation.Mutation
import TreePath.Proofs.Entries
import TreePath.Proofs.Slice.Picking
import TreePath.Proofs.Slice.Positions

/-!
# Assigning to a slice and deleting it

How the changes of a slice go with reading it.  A successful assignment to a slice of a sequence
answers with the items that the slice selects (`assignSlice_old`), and assigning just these items
changes nothing (`assignSlice_pick`), for every step and also where the slice is empty or runs
backwards.  Removing the selected keys of a mapping one after another takes out the entries that the
slice selects, in the order of the selection (`removed_selected`).
-/

set_option autoImplicit false

namespace TreePath

variable {items old new : List Node} {range : Slice} {value : Node}

/-- A successful assignment answers with the items that the slice selects. -/
theorem assignSlice_old (hlength : FitsWord items.length)
    (h : assignSlice items range value = .ok (old, new)) :
    old = pick items (range.positions items.length) := by
  cases value with
  | mapping entries => simp [assignSlice] at h
  | scalar leaf => simp [assignSlice] at h
  | sequence values =>
    simp only [assignSlice] at h
    split at h
    next hstep =>
      simp only [Except.ok.injEq, Prod.mk.injEq] at h
      rw [← h.1, Slice.positions_of_step_one hlength hstep, pick_range', List.drop_take]
      congr 1
      omega
    next hstep =>
      split at h
      next hcount =>
        rw [Except.ok.injEq] at h
        have hold := exchange_fst (Slice.nodup_positions hlength) hcount items
        rw [← hold, h]
      next hcount => cases h

/-- Assigning what a slice selects changes nothing. -/
theorem assignSlice_pick (hlength : FitsWord items.length) (range : Slice) :
    assignSlice items range (.sequence (pick items (range.positions items.length))) =
      .ok (pick items (range.positions items.length), items) := by
  have hwithin : ∀ p ∈ range.positions items.length, p < items.length :=
    fun p hp => Slice.lt_of_mem_positions hlength hp
  simp only [assignSlice]
  by_cases hstep : range.step = 1
  · rw [if_pos hstep, Slice.positions_of_step_one hlength hstep, pick_range']
    -- Whatever the bounds are, the part between them is taken out and put back.
    generalize (range.bounds items.length).1.toInt.toNat = start
    generalize (range.bounds items.length).2.toInt.toNat = stop
    have hstop : max stop start = start + (stop - start) := by omega
    have hcount : start + (stop - start) - start = stop - start := by omega
    rw [hstop, List.drop_take, hcount, List.append_assoc, ← List.drop_drop,
      List.take_append_drop, List.take_append_drop]
  · rw [if_neg hstep, if_pos (length_pick hwithin).symm, exchange_pick hwithin]

/-- What a successful assignment gives and leaves are the items and the new values. -/
theorem mem_of_assignSlice (h : assignSlice items range value = .ok (old, new)) :
    ∃ values, value = .sequence values ∧
      ∀ item, item ∈ old ∨ item ∈ new → item ∈ items ∨ item ∈ values := by
  cases value with
  | mapping entries => cases h
  | scalar leaf => cases h
  | sequence values =>
    refine ⟨values, rfl, ?_⟩
    intro item hitem
    simp only [assignSlice] at h
    split at h
    next hstep =>
      rw [Except.ok.injEq, Prod.mk.injEq] at h
      obtain ⟨rfl, rfl⟩ := h
      simp only [List.mem_append] at hitem
      rcases hitem with hold | (hfront | hvalue) | hback
      · exact .inl (List.mem_of_mem_take (List.mem_of_mem_drop hold))
      · exact .inl (List.mem_of_mem_take hfront)
      · exact .inr hvalue
      · exact .inl (List.mem_of_mem_drop hback)
    next hstep =>
      split at h
      next hcount =>
        rw [Except.ok.injEq] at h
        obtain ⟨rfl, rfl⟩ := Prod.mk.inj h
        rcases mem_of_mem_exchange hitem with hthere | ⟨change, hchange, rfl⟩
        · exact .inl hthere
        · exact .inr (List.of_mem_zip hchange).2
      next hcount => cases h

/-- Removing the selected keys of a mapping takes out the selected entries. -/
theorem removed_selected {entries : Entries Node} (hlength : FitsWord entries.length)
    (hdistinct : Entries.Distinct entries) (range : Slice) :
    (Entries.eraseEach entries (Entries.keys (pick entries (range.positions entries.length)))).1 =
      pick entries (range.positions entries.length) := by
  apply Entries.removed_eraseEach hdistinct
  · -- The keys of the selected entries are distinct, because the positions are.
    rw [Entries.Distinct, Entries.keys, map_pick]
    exact nodup_pick hdistinct (Slice.nodup_positions hlength)
  · intro entry hentry
    exact mem_of_mem_pick hentry

end TreePath
