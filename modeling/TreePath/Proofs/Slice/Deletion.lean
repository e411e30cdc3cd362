import Mathlib.Data.List.Perm.Basic
import TreePath.Proofs.Slice.Assignment

/-!
# What the deletion of a slice does

A deletion parts a container into what it removes and what it keeps (`Parted`): the items at the
selected positions, in the order of the selection, and the items at all other positions, in the order
of the container.  Together they are the items of the container in another order, because no position
is selected twice (`Parted.perm`).

The two containers come to this by different ways.  A sequence marks the selected positions and keeps
the items without a mark (`unmarked_marks`).  A mapping removes the selected keys one after another,
while the positions of the others shift; what counts is that a key stands at one position only
(`filter_keys_pick`).  With step one the positions other than the selected are those in front of the
cut and behind it (`unselected_range'`), so an assignment of no values does the same
(`delete_slice`).
-/

set_option autoImplicit false

namespace TreePath

variable {α β : Type} {items removed kept : List α} {positions : List Nat}

/-! ## The other positions -/

/-- The positions of a list of `length` items that are not among the given ones, from the front. -/
def unselected (length : Nat) (positions : List Nat) : List Nat :=
  (List.range length).filter (· ∉ positions)

/-- Every position is selected once or is one of the others. -/
theorem append_unselected_perm {length : Nat} (hpositions : positions.Nodup)
    (hwithin : ∀ p ∈ positions, p < length) :
    (positions ++ unselected length positions).Perm (List.range length) := by
  have hothers : (unselected length positions).Nodup := List.nodup_range.filter _
  have hdisjoint : (positions ++ unselected length positions).Nodup := by
    refine List.nodup_append.mpr ⟨hpositions, hothers, ?_⟩
    intro p hp other hother heq
    subst heq
    simp [unselected, hp] at hother
  refine (List.perm_ext_iff_of_nodup hdisjoint List.nodup_range).mpr fun p => ?_
  by_cases hmem : p ∈ positions
  · simp [hmem, hwithin p hmem]
  · simp [unselected, hmem]

/-- The positions other than those of a run are in front of it and behind it. -/
theorem unselected_range' {start count rest : Nat} :
    unselected (start + count + rest) (List.range' start count) =
      List.range' 0 start ++ List.range' (start + count) rest := by
  have hsplit : List.range (start + count + rest) =
      List.range' 0 start ++ List.range' start count ++ List.range' (start + count) rest := by
    have hfront : List.range' 0 start ++ List.range' start count = List.range' 0 (start + count) := by
      simpa using List.range'_append_1 (s := 0) (m := start) (n := count)
    have hall : List.range' 0 (start + count) ++ List.range' (start + count) rest =
        List.range' 0 (start + count + rest) := by
      simpa using List.range'_append_1 (s := 0) (m := start + count) (n := rest)
    rw [List.range_eq_range', hfront, hall]
  have hbefore : (List.range' 0 start).filter (· ∉ List.range' start count) = List.range' 0 start := by
    refine List.filter_eq_self.mpr fun p hp => ?_
    simp only [List.mem_range'_1] at hp
    simp only [List.mem_range'_1, decide_eq_true_eq]
    omega
  have hwithin : (List.range' start count).filter (· ∉ List.range' start count) = [] := by
    refine List.filter_eq_nil_iff.mpr fun p hp => ?_
    simp [hp]
  have hbehind : (List.range' (start + count) rest).filter (· ∉ List.range' start count) =
      List.range' (start + count) rest := by
    refine List.filter_eq_self.mpr fun p hp => ?_
    simp only [List.mem_range'_1] at hp
    simp only [List.mem_range'_1, decide_eq_true_eq]
    omega
  rw [unselected, hsplit, List.filter_append, List.filter_append, hbefore, hwithin, hbehind,
    List.append_nil]

/-! ## Picking by position -/

/-- A list is picked by all of its positions. -/
theorem pick_range (items : List α) : pick items (List.range items.length) = items := by
  rw [List.range_eq_range', pick_range', List.drop_zero, List.take_length]

/-- Going through a list is going through its positions. -/
theorem filterMap_eq_range (f : α → Option β) (items : List α) :
    items.filterMap f = (List.range items.length).filterMap fun p => items[p]?.bind f := by
  conv_lhs => rw [← pick_range items, pick_eq_filterMap, List.filterMap_filterMap]

/-- The items at the chosen positions, looked up one after another. -/
theorem pick_filter_range (chosen : Nat → Bool) (items : List α) :
    pick items ((List.range items.length).filter chosen) =
      (List.range items.length).filterMap fun p => if chosen p then items[p]? else none := by
  rw [pick_eq_filterMap, List.filterMap_filter]

/-- One item is picked for each position within the list, and it is the one that is there. -/
theorem map_some_pick (h : ∀ p ∈ positions, p < items.length) :
    (pick items positions).map some = positions.map (items[·]?) := by
  induction positions with
  | nil => rfl
  | cons position rest ih =>
    have hlt : position < items.length := h position List.mem_cons_self
    have hitem : items[position]? = some items[position] := List.getElem?_eq_getElem hlt
    rw [pick_cons_of_some hitem, List.map_cons, List.map_cons, hitem,
      ih fun p hp => h p (List.mem_cons_of_mem _ hp)]

/-- The items at the positions other than those of a run are those in front of it and behind it. -/
theorem pick_unselected_range' {start count : Nat} (h : start + count ≤ items.length) :
    pick items (unselected items.length (List.range' start count)) =
      items.take start ++ items.drop (start + count) := by
  obtain ⟨rest, hrest⟩ := Nat.exists_eq_add_of_le h
  have hback : (items.drop (start + count)).length ≤ rest := by
    rw [List.length_drop]
    omega
  rw [hrest, unselected_range', pick_eq_filterMap, List.filterMap_append, ← pick_eq_filterMap,
    ← pick_eq_filterMap, pick_range', pick_range', List.drop_zero, List.take_of_length_le hback]

/-! ## Lists that are parted -/

/-- A list is parted into the items at some positions, in the order of the positions, and the items at
all other positions, in the order of the list. -/
structure Parted (items : List α) (positions : List Nat) (removed kept : List α) : Prop where
  /-- there is one removed item for each position, the one that stood there -/
  removed_at : removed.map some = positions.map (items[·]?)
  /-- there is one kept item for each other position, the one that stood there -/
  kept_at : kept.map some = (unselected items.length positions).map (items[·]?)

/-- Positions that lie within the items part them in what is picked and what is not. -/
theorem parted_pick (hwithin : ∀ p ∈ positions, p < items.length) :
    Parted items positions (pick items positions)
      (pick items (unselected items.length positions)) where
  removed_at := map_some_pick hwithin
  kept_at := by
    refine map_some_pick fun p hp => ?_
    exact List.mem_range.mp (List.mem_filter.mp hp).1

/-- The two parts are determined. -/
theorem Parted.eq_pick (h : Parted items positions removed kept) :
    removed = pick items positions ∧ kept = pick items (unselected items.length positions) := by
  have hsome (part : List α) : part = (part.map some).filterMap id := by simp
  constructor
  · rw [hsome removed, h.removed_at, List.filterMap_map, pick_eq_filterMap]
    rfl
  · rw [hsome kept, h.kept_at, List.filterMap_map, pick_eq_filterMap]
    rfl

/-- **Nothing is lost and nothing is doubled** when a list is parted at different positions. -/
theorem Parted.perm (h : Parted items positions removed kept) (hpositions : positions.Nodup)
    (hwithin : ∀ p ∈ positions, p < items.length) : (removed ++ kept).Perm items := by
  have hall : items.map some = (List.range items.length).map (items[·]?) := by
    rw [← map_some_pick fun p => List.mem_range.mp, pick_range]
  have hsome : ((removed ++ kept).map some).Perm (items.map some) := by
    rw [List.map_append, h.removed_at, h.kept_at, ← List.map_append, hall]
    exact (append_unselected_perm hpositions hwithin).map _
  exact (List.map_perm_map_iff (fun _ _ => Option.some.inj)).mp hsome

/-! ## Marks -/

/-- A mark is set when it was set before or its position is among the positions. -/
theorem getElem?_foldl_set (marks : List Bool) (p : Nat) :
    (positions.foldl (fun marks position => marks.set position true) marks)[p]? =
      marks[p]?.map (· || decide (p ∈ positions)) := by
  induction positions generalizing marks with
  | nil => simp
  | cons position rest ih =>
    rw [List.foldl_cons, ih, List.getElem?_set]
    by_cases h : position = p
    · subst h
      by_cases hlt : position < marks.length <;> simp [hlt]
    · have hne : p ≠ position := fun heq => h heq.symm
      simp [h, hne]

/-- The marks stand at the given positions. -/
theorem getElem?_marks {length p : Nat} (h : p < length) (positions : List Nat) :
    (marks length positions)[p]? = some (decide (p ∈ positions)) := by
  rw [marks, getElem?_foldl_set, List.getElem?_replicate_of_lt h]
  simp

/-- Without a mark are the items at the other positions. -/
theorem unmarked_marks (items : List α) (positions : List Nat) :
    unmarked items (marks items.length positions) =
      pick items (unselected items.length positions) := by
  have hlength : (items.zip (marks items.length positions)).length = items.length := by
    rw [List.length_zip, length_marks, Nat.min_self]
  rw [unmarked, filterMap_eq_range, hlength, unselected, pick_filter_range]
  refine List.filterMap_congr fun p hp => ?_
  have hlt : p < items.length := List.mem_range.mp hp
  have hitem : items[p]? = some items[p] := List.getElem?_eq_getElem hlt
  have hpair : (items.zip (marks items.length positions))[p]? =
      some (items[p], decide (p ∈ positions)) :=
    List.getElem?_zip_eq_some.mpr ⟨hitem, getElem?_marks hlt positions⟩
  rw [hpair, hitem]
  by_cases hmem : p ∈ positions <;> simp [hmem]

/-- Among distinct keys, the entries with other keys than the picked entries are those at the other
positions. -/
theorem filter_keys_pick {entries : Entries α} (hdistinct : Entries.Distinct entries) :
    entries.filter (·.1 ∉ Entries.keys (pick entries positions)) =
      pick entries (unselected entries.length positions) := by
  rw [← List.filterMap_eq_filter, filterMap_eq_range, unselected, pick_filter_range]
  refine List.filterMap_congr fun p hp => ?_
  have hlt : p < entries.length := List.mem_range.mp hp
  have hentry : entries[p]? = some entries[p] := List.getElem?_eq_getElem hlt
  -- A key stands at one position only, so it is picked exactly when its position is.
  have hkey : entries[p].1 ∈ Entries.keys (pick entries positions) ↔ p ∈ positions := by
    rw [Entries.keys, map_pick, pick_eq_filterMap, List.mem_filterMap]
    constructor
    · rintro ⟨other, hother, hsame⟩
      have hkeys : (Entries.keys entries)[p]? = some entries[p].1 := by
        rw [Entries.keys, List.getElem?_map, hentry]
        rfl
      have hwithin : p < (Entries.keys entries).length := by rwa [Entries.length_keys]
      have heq : p = other := (List.getElem?_inj hwithin hdistinct).mp (hkeys.trans hsame.symm)
      exact heq ▸ hother
    · intro hmem
      exact ⟨p, hmem, by rw [List.getElem?_map, hentry]; rfl⟩
  rw [hentry]
  by_cases hmem : p ∈ positions <;> simp [hkey, hmem]

namespace Slice

variable {range : Slice} {length : Nat}

/-- The cut of a slice of step one lies within the container. -/
theorem cut_within (hlength : FitsWord length) (hstep : range.step = 1) :
    range.cutStart length ≤ range.cutStop length ∧ range.cutStop length ≤ length := by
  have hpos : 0 < range.step := by rw [hstep]; decide
  obtain ⟨hstart, hstop⟩ := bounds_upward hlength hpos
  obtain ⟨hexactStart, hexactStop⟩ := toInt_bounds hlength range
  rw [hexactStart] at hstart
  rw [hexactStop] at hstop
  rw [cutStop, cutStart]
  omega

/-- A slice of step one selects the positions of its cut. -/
theorem positions_eq_cut (hlength : FitsWord length) (hstep : range.step = 1) :
    range.positions length =
      List.range' (range.cutStart length) (range.cutStop length - range.cutStart length) := by
  obtain ⟨hstart, hstop⟩ := toInt_bounds hlength range
  rw [positions_of_step_one hlength hstep, hstart, hstop, cutStop, cutStart]
  congr 1
  omega

end Slice

/-- **A slice of step one that is assigned no values is deleted.** -/
theorem assignSlice_nil {items : List Node} {range : Slice} (hlength : FitsWord items.length)
    (hstep : range.step = 1) :
    assignSlice items range (.sequence []) =
      .ok (pick items (range.positions items.length),
        pick items (unselected items.length (range.positions items.length))) := by
  obtain ⟨horder, hwithin⟩ := Slice.cut_within hlength hstep
  have hcut : range.cutStart items.length +
      (range.cutStop items.length - range.cutStart items.length) = range.cutStop items.length := by
    omega
  rw [assignSlice_of_step_one hlength hstep, Slice.positions_eq_cut hlength hstep, pick_range',
    pick_unselected_range' (by omega), hcut, List.drop_take, List.append_nil]

namespace Node

/-- A deletion of a slice answers with the selected items in selection order and keeps the others in
their order. -/
theorem delete_items (items : List Node) (range : Slice) :
    delete (sequence items) [.slice range] =
      .done (some (sequence (pick items (range.positions items.length))))
        (sequence (pick items (unselected items.length (range.positions items.length)))) := by
  rw [delete, mutate, mutateLast, ← unmarked_marks]
  rfl

/-- A deletion of a slice of a mapping answers with the selected entries in selection order and keeps
the others in their order. -/
theorem delete_entries {entries : Entries Node} (hlength : FitsWord entries.length)
    (hdistinct : Entries.Distinct entries) (range : Slice) :
    delete (mapping entries) [.slice range] =
      .done (some (mapping (pick entries (range.positions entries.length))))
        (mapping (pick entries (unselected entries.length (range.positions entries.length)))) := by
  have hremoved := removed_selected hlength hdistinct range
  have hpicked : Entries.Distinct (pick entries (range.positions entries.length)) :=
    hremoved ▸ Entries.distinct_removed hdistinct
  rw [delete, mutate, mutateLast]
  unfold deleteLast
  simp only [hremoved, Entries.ofList_of_distinct hpicked, Entries.kept_eraseEach hdistinct,
    filter_keys_pick hdistinct]

/-- **The deletion of a slice parts its container.**  It answers with the items of a sequence, or the
entries of a mapping, at the selected positions, in the order of the selection, and leaves those at all
other positions, in the order of the container; both together are the container in another order.
With step one a sequence is parted in the same way by assigning no values to the slice. -/
theorem delete_slice (range : Slice) :
    (∀ items : List Node, FitsWord items.length →
      ∃ removed kept, Parted items (range.positions items.length) removed kept ∧
        (removed ++ kept).Perm items ∧
        delete (sequence items) [.slice range] =
          .done (some (sequence removed)) (sequence kept) ∧
        (range.step = 1 → write (sequence []) (sequence items) [.slice range] =
          .done (sequence removed) (sequence kept))) ∧
    ∀ entries : Entries Node, FitsWord entries.length → Entries.Distinct entries →
      ∃ removed kept, Parted entries (range.positions entries.length) removed kept ∧
        (removed ++ kept).Perm entries ∧
        delete (mapping entries) [.slice range] =
          .done (some (mapping removed)) (mapping kept) := by
  constructor
  · intro items hlength
    have hwithin : ∀ p ∈ range.positions items.length, p < items.length :=
      fun p => Slice.lt_of_mem_positions hlength
    have hparted := parted_pick hwithin
    refine ⟨_, _, hparted, hparted.perm (Slice.nodup_positions hlength) hwithin,
      delete_items items range, ?_⟩
    intro hstep
    exact write_items_ok (assignSlice_nil hlength hstep)
  · intro entries hlength hdistinct
    have hwithin : ∀ p ∈ range.positions entries.length, p < entries.length :=
      fun p => Slice.lt_of_mem_positions hlength
    have hparted := parted_pick hwithin
    exact ⟨_, _, hparted, hparted.perm (Slice.nodup_positions hlength) hwithin,
      delete_entries hlength hdistinct range⟩

/-- From its end, every second entry of a mapping is removed; of a sequence the rest behind the first
item is deleted, or replaced by nothing. -/
theorem delete_slice_sample :
    FitsWord [("a", null), ("b", emptyMapping), ("c", null)].length ∧
      Entries.Distinct [("a", null), ("b", emptyMapping), ("c", null)] ∧
      delete (mapping [("a", null), ("b", emptyMapping), ("c", null)])
          [.slice ⟨none, none, -2⟩] =
        .done (some (mapping [("c", null), ("a", null)])) (mapping [("b", emptyMapping)]) ∧
      FitsWord [null, emptyMapping].length ∧ (⟨some 1, none, 1⟩ : Slice).step = 1 ∧
      delete (sequence [null, emptyMapping]) [.slice ⟨some 1, none, 1⟩] =
        .done (some (sequence [emptyMapping])) (sequence [null]) ∧
      write (sequence []) (sequence [null, emptyMapping]) [.slice ⟨some 1, none, 1⟩] =
        .done (sequence [emptyMapping]) (sequence [null]) := by
  have hthree : FitsWord [("a", null), ("b", emptyMapping), ("c", null)].length :=
    fitsWord_iff.mpr (by decide)
  have htwo : FitsWord [null, emptyMapping].length := fitsWord_iff.mpr (by decide)
  have hdistinct : Entries.Distinct [("a", null), ("b", emptyMapping), ("c", null)] := by
    simp [Entries.Distinct, Entries.keys]
  have hbackward : Slice.positions ⟨none, none, -2⟩ 3 = [2, 0] := by decide +kernel
  have hforward : Slice.positions ⟨some 1, none, 1⟩ 2 = [1] := by decide +kernel
  obtain ⟨removed, kept, hparted, -, hdelete⟩ :=
    (delete_slice ⟨none, none, -2⟩).2 _ hthree hdistinct
  obtain ⟨removed', kept', hparted', -, hdelete', hassign⟩ :=
    (delete_slice ⟨some 1, none, 1⟩).1 _ htwo
  have hentries := hparted.eq_pick
  have hitems := hparted'.eq_pick
  rw [List.length_cons, List.length_cons, List.length_singleton, hbackward] at hentries
  rw [List.length_cons, List.length_singleton, hforward] at hitems
  obtain ⟨rfl, rfl⟩ := hentries
  obtain ⟨rfl, rfl⟩ := hitems
  exact ⟨hthree, hdistinct, hdelete, htwo, rfl, hdelete', hassign rfl⟩

end Node

end TreePath
