import TreePath.Path.Slice

/-!
# Picking items out of a list

What reading, assigning and deleting do with the positions that a slice selects.  A run of positions
picks a part of the list (`pick_range'`), and different positions of a list without repetitions pick
different items (`nodup_pick`).  Exchanging items at different positions gives the items that are
picked there (`exchange_fst`), although each value is stored before the next item is taken, and
exchanging the picked items for themselves changes nothing (`exchange_pick`).  What an exchange at
different positions leaves is described place by place (`Replaced`, `replaced_exchange`), so that
exchanging what was taken brings the list back (`Replaced.exchange_back`).
-/

set_option autoImplicit false

namespace TreePath

variable {α : Type} {items : List α} {positions : List Nat}

/-! ## What is picked -/

/-- What is picked are the items at those of the positions that lie within the list. -/
theorem pick_eq_filterMap (items : List α) (positions : List Nat) :
    pick items positions = positions.filterMap (items[·]?) := by
  simp [pick]

/-- No position picks no item. -/
@[simp] theorem pick_nil (items : List α) : pick items [] = [] := rfl

/-- The item at the first position comes first, if there is one. -/
theorem pick_cons (items : List α) (position : Nat) (positions : List Nat) :
    pick items (position :: positions) = items[position]?.toList ++ pick items positions := by
  rw [pick_eq_filterMap, pick_eq_filterMap]
  cases h : items[position]? with
  | none => rw [List.filterMap_cons_none h, Option.toList_none, List.nil_append]
  | some item => rw [List.filterMap_cons_some h, Option.toList_some, List.singleton_append]

/-- A position within the list picks its item in front of what the other positions pick. -/
theorem pick_cons_of_some {position : Nat} {item : α} (h : items[position]? = some item)
    (positions : List Nat) : pick items (position :: positions) = item :: pick items positions := by
  rw [pick_cons, h, Option.toList_some, List.singleton_append]

/-- A run of positions picks a part of the list. -/
theorem pick_range' (items : List α) (start count : Nat) :
    pick items (List.range' start count) = (items.drop start).take count := by
  induction count generalizing start with
  | zero => simp
  | succ count ih =>
    rw [List.range'_succ, pick_cons, ih]
    cases h : items[start]? with
    | none =>
      have hlength : items.length ≤ start := List.getElem?_eq_none_iff.mp h
      have hdrop : items.drop start = [] := List.drop_eq_nil_of_le hlength
      have hdrop' : items.drop (start + 1) = [] := List.drop_eq_nil_of_le (by omega)
      rw [hdrop, hdrop', List.take_nil, List.take_nil, Option.toList_none, List.nil_append]
    | some item =>
      obtain ⟨hlt, hitem⟩ := List.getElem?_eq_some_iff.mp h
      rw [List.drop_eq_getElem_cons hlt, hitem, List.take_succ_cons, Option.toList_some,
        List.singleton_append]

/-- One item is picked for each position within the list. -/
theorem length_pick (h : ∀ p ∈ positions, p < items.length) :
    (pick items positions).length = positions.length := by
  induction positions with
  | nil => rfl
  | cons position rest ih =>
    have hlt : position < items.length := h position List.mem_cons_self
    rw [pick_cons_of_some (List.getElem?_eq_getElem hlt), List.length_cons, List.length_cons,
      ih fun p hp => h p (List.mem_cons_of_mem _ hp)]

/-- The k-th picked item is the one at the k-th position. -/
theorem getElem?_pick (h : ∀ p ∈ positions, p < items.length) (k : Nat) :
    (pick items positions)[k]? = positions[k]?.bind (items[·]?) := by
  induction positions generalizing k with
  | nil => rfl
  | cons position rest ih =>
    have hlt : position < items.length := h position List.mem_cons_self
    have hitem : items[position]? = some items[position] := List.getElem?_eq_getElem hlt
    rw [pick_cons_of_some hitem]
    cases k with
    | zero => exact hitem.symm
    | succ k => exact ih (fun p hp => h p (List.mem_cons_of_mem _ hp)) k

/-- A function of the picked items is picked out of the function of all items. -/
theorem map_pick {β : Type} (f : α → β) (items : List α) (positions : List Nat) :
    (pick items positions).map f = pick (items.map f) positions := by
  induction positions with
  | nil => rfl
  | cons position rest ih =>
    rw [pick_cons, pick_cons, List.map_append, ih, List.getElem?_map]
    cases items[position]? <;> rfl

/-- What is picked is one of the items. -/
theorem mem_of_mem_pick {item : α} (h : item ∈ pick items positions) : item ∈ items := by
  rw [pick_eq_filterMap, List.mem_filterMap] at h
  obtain ⟨position, -, hitem⟩ := h
  exact List.mem_of_getElem? hitem

/-- Different positions of a list without repetitions pick different items. -/
theorem nodup_pick (hitems : items.Nodup) (hpositions : positions.Nodup) :
    (pick items positions).Nodup := by
  induction positions with
  | nil => exact List.nodup_nil
  | cons position rest ih =>
    obtain ⟨hposition, hrest⟩ := List.nodup_cons.mp hpositions
    rw [pick_cons]
    cases h : items[position]? with
    | none => exact ih hrest
    | some item =>
      rw [Option.toList_some, List.singleton_append, List.nodup_cons]
      refine ⟨?_, ih hrest⟩
      intro hmem
      rw [pick_eq_filterMap, List.mem_filterMap] at hmem
      obtain ⟨other, hother, hitem⟩ := hmem
      have hlt : position < items.length := (List.getElem?_eq_some_iff.mp h).1
      have heq : position = other := (List.getElem?_inj hlt hitems).mp (h.trans hitem.symm)
      exact hposition (heq ▸ hother)

/-- A change at another position does not change what is picked. -/
theorem pick_set_of_not_mem {position : Nat} (h : position ∉ positions) (items : List α)
    (value : α) : pick (items.set position value) positions = pick items positions := by
  induction positions with
  | nil => rfl
  | cons other rest ih =>
    rw [List.mem_cons, not_or] at h
    rw [pick_cons, pick_cons, ih h.2, List.getElem?_set_ne h.1]

/-! ## Exchanging items -/

/-- A change at a position within the list gives the old item, and the other changes are made behind
it. -/
theorem exchange_cons {position : Nat} {item : α} (h : items[position]? = some item) (value : α)
    (changes : List (Nat × α)) :
    exchange items ((position, value) :: changes) =
      (item :: (exchange (items.set position value) changes).1,
        (exchange (items.set position value) changes).2) := by
  rw [exchange, h]
  rfl

/-- Exchanging items at different positions gives the items that are picked there. -/
theorem exchange_fst {values : List α} (hpositions : positions.Nodup)
    (hcount : positions.length = values.length) (items : List α) :
    (exchange items (positions.zip values)).1 = pick items positions := by
  induction positions generalizing items values with
  | nil => rfl
  | cons position rest ih =>
    obtain ⟨hposition, hrest⟩ := List.nodup_cons.mp hpositions
    cases values with
    | nil => cases hcount
    | cons value values =>
      -- The items at the other positions are still there after the first is exchanged.
      have htail := ih hrest (Nat.succ.inj hcount) (items.set position value)
      rw [pick_set_of_not_mem hposition] at htail
      rw [List.zip_cons_cons, exchange, pick_cons, ← htail]

/-- Exchanging the picked items for themselves gives them and changes nothing. -/
theorem exchange_pick (h : ∀ p ∈ positions, p < items.length) :
    exchange items (positions.zip (pick items positions)) = (pick items positions, items) := by
  induction positions with
  | nil => rfl
  | cons position rest ih =>
    have hlt : position < items.length := h position List.mem_cons_self
    have hitem : items[position]? = some items[position] := List.getElem?_eq_getElem hlt
    have htail := ih fun p hp => h p (List.mem_cons_of_mem _ hp)
    rw [pick_cons_of_some hitem, List.zip_cons_cons, exchange_cons hitem, List.set_getElem_self,
      htail]

/-- Values have taken the place of the items at some positions of a list. -/
structure Replaced (items values : List α) (positions : List Nat) (old new : List α) : Prop where
  /-- there is one value for each position -/
  values_length : values.length = positions.length
  /-- one item has been taken from each position -/
  old_length : old.length = positions.length
  /-- the list has kept its length -/
  new_length : new.length = items.length
  /-- the k-th value is at the k-th position, and the item from there is the k-th that was taken -/
  there : ∀ k p : Nat, positions[k]? = some p → new[p]? = values[k]? ∧ old[k]? = items[p]?
  /-- every other position keeps its item -/
  elsewhere : ∀ p : Nat, p ∉ positions → new[p]? = items[p]?

namespace Replaced

variable {values old old' new new' : List α}

/-- The items that were taken take the place of the values again. -/
theorem symm (h : Replaced items values positions old new) :
    Replaced new old positions values items where
  values_length := h.old_length
  old_length := h.values_length
  new_length := h.new_length.symm
  there k p hp := ⟨(h.there k p hp).2.symm, (h.there k p hp).1.symm⟩
  elsewhere p hp := (h.elsewhere p hp).symm

/-- What is taken and what is left are determined. -/
theorem unique (h : Replaced items values positions old new)
    (h' : Replaced items values positions old' new') : old = old' ∧ new = new' := by
  constructor
  · apply List.ext_getElem?
    intro k
    cases hp : positions[k]? with
    | none =>
      have hlength : positions.length ≤ k := List.getElem?_eq_none_iff.mp hp
      rw [List.getElem?_eq_none (Nat.le_trans (Nat.le_of_eq h.old_length) hlength),
        List.getElem?_eq_none (Nat.le_trans (Nat.le_of_eq h'.old_length) hlength)]
    | some p => rw [(h.there k p hp).2, (h'.there k p hp).2]
  · apply List.ext_getElem?
    intro p
    by_cases hmem : p ∈ positions
    · obtain ⟨k, hp⟩ := List.mem_iff_getElem?.mp hmem
      rw [(h.there k p hp).1, (h'.there k p hp).1]
    · rw [h.elsewhere p hmem, h'.elsewhere p hmem]

/-- The values are picked from their positions. -/
theorem pick_new (h : Replaced items values positions old new)
    (hwithin : ∀ p ∈ positions, p < items.length) : pick new positions = values := by
  rw [← h.new_length] at hwithin
  apply List.ext_getElem?
  intro k
  rw [getElem?_pick hwithin]
  cases hp : positions[k]? with
  | none =>
    have hlength : positions.length ≤ k := List.getElem?_eq_none_iff.mp hp
    rw [Option.bind_none,
      List.getElem?_eq_none (Nat.le_trans (Nat.le_of_eq h.values_length) hlength)]
  | some p => exact (h.there k p hp).1

end Replaced

/-- **Exchanging items at different positions replaces each of them.**  The positions have to be
different: of two values for one position the second would take out the first. -/
theorem replaced_exchange {values : List α} (hpositions : positions.Nodup)
    (hwithin : ∀ p ∈ positions, p < items.length) (hcount : positions.length = values.length) :
    Replaced items values positions (exchange items (positions.zip values)).1
      (exchange items (positions.zip values)).2 := by
  induction positions generalizing items values with
  | nil =>
    cases values with
    | nil => exact ⟨rfl, rfl, rfl, fun k p hp => (nomatch hp), fun p _ => rfl⟩
    | cons value values => cases hcount
  | cons position rest ih =>
    cases values with
    | nil => cases hcount
    | cons value values =>
      obtain ⟨hposition, hrest⟩ := List.nodup_cons.mp hpositions
      have hlt : position < items.length := hwithin position List.mem_cons_self
      have hitem : items[position]? = some items[position] := List.getElem?_eq_getElem hlt
      have hlater : ∀ p ∈ rest, p < (items.set position value).length := by
        intro p hp
        rw [List.length_set]
        exact hwithin p (List.mem_cons_of_mem _ hp)
      have htail := ih hrest hlater (Nat.succ.inj hcount)
      rw [List.zip_cons_cons, exchange_cons hitem]
      constructor
      case values_length => exact hcount.symm
      case old_length => rw [List.length_cons, List.length_cons, htail.old_length]
      case new_length => rw [htail.new_length, List.length_set]
      case there =>
        intro k p hp
        cases k with
        | zero =>
          obtain rfl : position = p := Option.some.inj hp
          -- The later values go to other positions.
          rw [htail.elsewhere position hposition, List.getElem?_set_self hlt]
          exact ⟨rfl, hitem.symm⟩
        | succ k =>
          obtain ⟨hnew, hold⟩ := htail.there k p hp
          have hne : position ≠ p := fun heq => hposition (heq ▸ List.mem_of_getElem? hp)
          rw [List.getElem?_set_ne hne] at hold
          exact ⟨hnew, hold⟩
      case elsewhere =>
        intro p hp
        rw [List.mem_cons, not_or] at hp
        rw [htail.elsewhere p hp.2, List.getElem?_set_ne (Ne.symm hp.1)]

/-- Exchanging what was taken brings the list back and gives the values. -/
theorem Replaced.exchange_back {values old new : List α} (h : Replaced items values positions old new)
    (hpositions : positions.Nodup) (hwithin : ∀ p ∈ positions, p < items.length) :
    exchange new (positions.zip old) = (values, items) := by
  have hback : Replaced new old positions _ _ :=
    replaced_exchange hpositions (by rwa [h.new_length]) h.old_length.symm
  obtain ⟨hvalues, hitems⟩ := hback.unique h.symm
  exact Prod.ext hvalues hitems

/-- What an exchange gives and leaves are the items and the new values. -/
theorem mem_of_mem_exchange {changes : List (Nat × α)} {item : α}
    (h : item ∈ (exchange items changes).1 ∨ item ∈ (exchange items changes).2) :
    item ∈ items ∨ ∃ change ∈ changes, item = change.2 := by
  induction changes generalizing items with
  | nil => exact .inl (h.resolve_left List.not_mem_nil)
  | cons change rest ih =>
    obtain ⟨position, value⟩ := change
    simp only [exchange, List.mem_append, or_assoc] at h
    rcases h with hfirst | hrest
    · exact .inl (List.mem_of_getElem? (Option.mem_toList.mp hfirst))
    · rcases ih hrest with hset | ⟨later, hlater, hvalue⟩
      · rcases List.mem_or_eq_of_mem_set hset with hitem | hvalue
        · exact .inl hitem
        · exact .inr ⟨_, List.mem_cons_self, hvalue⟩
      · exact .inr ⟨later, List.mem_cons_of_mem _ hlater, hvalue⟩

/-- There is a mark for each item. -/
theorem length_marks (length : Nat) (positions : List Nat) :
    (marks length positions).length = length := by
  have hfold : ∀ marks : List Bool, (positions.foldl
      (fun marks position => marks.set position true) marks).length = marks.length := by
    induction positions with
    | nil =>
      intro marks
      rfl
    | cons position rest ih =>
      intro marks
      rw [List.foldl_cons, ih, List.length_set]
  rw [marks, hfold, List.length_replicate]

/-- Items without a mark are items. -/
theorem mem_of_mem_unmarked {marks : List Bool} {item : α} (h : item ∈ unmarked items marks) :
    item ∈ items := by
  rw [unmarked, List.mem_filterMap] at h
  obtain ⟨⟨other, mark⟩, hpair, hitem⟩ := h
  cases mark with
  | true => cases hitem
  | false =>
    cases hitem
    exact (List.of_mem_zip hpair).1

end TreePath
