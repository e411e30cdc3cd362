import Mathlib.Data.List.Perm.Subperm
import TreePath.Proofs.WellFormed

/-!
# Equality of trees

Two trees are equal as values when their leaves compare equal where the shapes agree.  Sequences have
equal items at every position (`equal_sequence_iff`), and mappings have the same keys, in whatever
order, and equal values under each (`equal_mapping_iff`).  Both say that a place leads to equal
children in the two trees, the place being a position or a key, so that the laws of equality go
through one level at a time.

The only leaf that does not equal itself is a NaN.  Equality is symmetric and transitive
(`equal_symm`, `equal_trans`), and a tree equals itself when no NaN stands in it (`equal_self_iff`).
-/

set_option autoImplicit false

namespace TreePath

/-! ## Leaves -/

namespace Binary64

variable {x y z : Binary64}

/-- Two floats are equal when they are the same or both zero, and neither is a NaN. -/
theorem equal_iff :
    x.equal y ↔ x.isNaN = false ∧ y.isNaN = false ∧ (x = y ∨ x.isZero ∧ y.isZero) := by
  simp only [equal, Bool.and_eq_true, Bool.not_eq_true', Bool.or_eq_true, decide_eq_true_eq,
    and_assoc]

/-- A float is equal to itself unless it is a NaN. -/
theorem equal_self_iff : x.equal x ↔ x.isNaN = false := by
  simp [equal_iff]

/-- Equality of floats is symmetric. -/
theorem equal_symm (h : x.equal y) : y.equal x := by
  obtain ⟨hx, hy, hvalue⟩ := equal_iff.mp h
  exact equal_iff.mpr ⟨hy, hx, hvalue.imp Eq.symm And.symm⟩

/-- Equality of floats is transitive. -/
theorem equal_trans (hxy : x.equal y) (hyz : y.equal z) : x.equal z := by
  obtain ⟨hx, -, hleft⟩ := equal_iff.mp hxy
  obtain ⟨-, hz, hright⟩ := equal_iff.mp hyz
  refine equal_iff.mpr ⟨hx, hz, ?_⟩
  rcases hleft with rfl | ⟨hxzero, hyzero⟩
  · exact hright
  · rcases hright with rfl | ⟨-, hzzero⟩
    · exact .inr ⟨hxzero, hyzero⟩
    · exact .inr ⟨hxzero, hzzero⟩

end Binary64

namespace Scalar

variable {a b c : Scalar}

/-- A scalar is equal to itself unless it is a NaN. -/
theorem equal_self_iff : a.equal a ↔ ∀ x, a = .number (.float x) → x.isNaN = false := by
  rcases a with _ | value | (i | x) | s
  · simp [equal]
  · simp [equal]
  · simp [equal, Number.equal]
  · simpa [equal, Number.equal] using Binary64.equal_self_iff
  · simp [equal]

/-- Equality of scalars is symmetric. -/
theorem equal_symm (h : a.equal b) : b.equal a := by
  rcases a with _ | value | (i | x) | s <;> rcases b with _ | other | (j | y) | t <;>
    simp only [equal, Number.equal, beq_iff_eq, Bool.false_eq_true] at h ⊢
  · exact h.symm
  · exact h.symm
  · exact Binary64.equal_symm h
  · exact h.symm

/-- Equality of scalars is transitive. -/
theorem equal_trans (hab : a.equal b) (hbc : b.equal c) : a.equal c := by
  rcases a with _ | value | (i | x) | s <;> rcases b with _ | other | (j | y) | t <;>
    simp only [equal, Number.equal, beq_iff_eq, Bool.false_eq_true] at hab
  · exact hbc
  · exact hab ▸ hbc
  · exact hab ▸ hbc
  · rcases c with _ | third | (k | z) | u <;>
      simp only [equal, Number.equal, Bool.false_eq_true] at hbc ⊢
    exact Binary64.equal_trans hab hbc
  · exact hab ▸ hbc

end Scalar

namespace Node

variable {a b c : Node}

/-! ## One level at a time -/

/-- The entries of one mapping are equal to those of another when each name has an equal value there.
-/
theorem equalEntries_iff {entries others : Entries Node} :
    equalEntries entries others ↔
      ∀ entry ∈ entries, ∃ other, Entries.get? others entry.1 = some other ∧
        entry.2.equal other := by
  induction entries with
  | nil => simp [equalEntries]
  | cons entry rest ih =>
    obtain ⟨key, value⟩ := entry
    rw [equalEntries, Bool.and_eq_true, ih, List.forall_mem_cons]
    refine and_congr_left fun _ => ?_
    cases Entries.get? others key <;> simp

/-- Mappings are equal when they have the same keys, in whatever order, and equal values under
them. -/
theorem equal_mapping_iff {entries others : Entries Node} (hdistinct : Entries.Distinct entries) :
    (mapping entries).equal (mapping others) ↔
      (Entries.keys entries).Perm (Entries.keys others) ∧
        ∀ key x y, Entries.get? entries key = some x → Entries.get? others key = some y →
          x.equal y := by
  rw [equal, Bool.and_eq_true, equalEntries_iff, beq_iff_eq]
  constructor
  · rintro ⟨hlength, hvalues⟩
    have hsubset : Entries.keys entries ⊆ Entries.keys others := by
      intro key hkey
      obtain ⟨entry, hentry, rfl⟩ := List.mem_map.mp hkey
      obtain ⟨other, hother, -⟩ := hvalues entry hentry
      have hmem := Entries.key_mem_keys (Entries.mem_of_get? hother)
      exact hmem
    constructor
    -- Distinct keys that all occur among as many others are those others.
    · apply (List.subperm_of_subset hdistinct hsubset).perm_of_length_le
      rw [Entries.length_keys, Entries.length_keys]
      exact Nat.le_of_eq hlength.symm
    · intro key x y hx hy
      obtain ⟨other, hother, hequal⟩ := hvalues _ (Entries.mem_of_get? hx)
      obtain rfl : other = y := Option.some.inj (hother.symm.trans hy)
      exact hequal
  · rintro ⟨hkeys, hvalues⟩
    refine ⟨by simpa using hkeys.length_eq, ?_⟩
    intro entry hentry
    have hfound := hdistinct.get?_of_mem hentry
    obtain ⟨other, hother⟩ := Entries.exists_get?_of_perm hkeys hfound
    exact ⟨other, hother, hvalues _ _ _ hfound hother⟩

/-- Sequences are equal when they are equally long and have equal items at every position. -/
theorem equal_sequence_iff {items others : List Node} :
    (sequence items).equal (sequence others) ↔
      items.length = others.length ∧
        ∀ (position : Nat) (x y : Node), items[position]? = some x → others[position]? = some y →
          x.equal y := by
  rw [equal]
  induction items generalizing others with
  | nil => cases others <;> simp [equalItems]
  | cons item rest ih =>
    cases others with
    | nil => simp [equalItems]
    | cons other more =>
      rw [equalItems, Bool.and_eq_true, ih, List.length_cons, List.length_cons, Nat.add_right_cancel_iff]
      constructor
      · rintro ⟨hfirst, hlength, hrest⟩
        refine ⟨hlength, ?_⟩
        intro position x y hx hy
        cases position with
        | zero =>
          cases hx
          cases hy
          exact hfirst
        | succ position => exact hrest position x y hx hy
      · rintro ⟨hlength, hall⟩
        exact ⟨hall 0 item other rfl rfl, hlength, fun position => hall (position + 1)⟩

/-- Only a mapping is equal to a mapping. -/
theorem exists_mapping_of_equal {entries : Entries Node} (h : (mapping entries).equal b) :
    ∃ others, b = mapping others := by
  cases b <;> simp [equal] at h ⊢

/-- Only a sequence is equal to a sequence. -/
theorem exists_sequence_of_equal {items : List Node} (h : (sequence items).equal b) :
    ∃ others, b = sequence others := by
  cases b <;> simp [equal] at h ⊢

/-- Only a scalar is equal to a scalar. -/
theorem exists_scalar_of_equal {value : Scalar} (h : (scalar value).equal b) :
    ∃ other, b = scalar other := by
  cases b <;> simp [equal] at h ⊢

/-! ## Symmetry and transitivity -/

/-- Equality of trees is symmetric; different names in each mapping make it so. -/
theorem equal_symm (ha : a.Distinct) (h : a.equal b) : b.equal a := by
  induction a using induction_on_values generalizing b with
  | mapping entries ih =>
    obtain ⟨others, rfl⟩ := exists_mapping_of_equal h
    have hdistinct : Entries.Distinct entries := ((distinct_mapping entries).mp ha).1
    obtain ⟨hkeys, hvalues⟩ := (equal_mapping_iff hdistinct).mp h
    refine (equal_mapping_iff (hkeys.nodup hdistinct)).mpr ⟨hkeys.symm, ?_⟩
    intro key y x hy hx
    exact ih _ (Entries.mem_of_get? hx) (ha.get? hx) (hvalues key x y hx hy)
  | sequence items ih =>
    obtain ⟨others, rfl⟩ := exists_sequence_of_equal h
    obtain ⟨hlength, hitems⟩ := equal_sequence_iff.mp h
    refine equal_sequence_iff.mpr ⟨hlength.symm, ?_⟩
    intro position y x hy hx
    exact ih x (List.mem_of_getElem? hx) (ha.child? hx) (hitems position x y hx hy)
  | scalar value =>
    obtain ⟨other, rfl⟩ := exists_scalar_of_equal h
    rw [equal] at h ⊢
    exact Scalar.equal_symm h

/-- Equality of trees is transitive. -/
theorem equal_trans (ha : a.Distinct) (hab : a.equal b) (hbc : b.equal c) : a.equal c := by
  induction a using induction_on_values generalizing b c with
  | mapping entries ih =>
    obtain ⟨others, rfl⟩ := exists_mapping_of_equal hab
    obtain ⟨more, rfl⟩ := exists_mapping_of_equal hbc
    have hdistinct : Entries.Distinct entries := ((distinct_mapping entries).mp ha).1
    obtain ⟨hfirst, hleft⟩ := (equal_mapping_iff hdistinct).mp hab
    obtain ⟨hsecond, hright⟩ := (equal_mapping_iff (hfirst.nodup hdistinct)).mp hbc
    refine (equal_mapping_iff hdistinct).mpr ⟨hfirst.trans hsecond, ?_⟩
    intro key x z hx hz
    obtain ⟨y, hy⟩ := Entries.exists_get?_of_perm hfirst hx
    exact ih _ (Entries.mem_of_get? hx) (ha.get? hx) (hleft key x y hx hy) (hright key y z hy hz)
  | sequence items ih =>
    obtain ⟨others, rfl⟩ := exists_sequence_of_equal hab
    obtain ⟨more, rfl⟩ := exists_sequence_of_equal hbc
    obtain ⟨hfirst, hleft⟩ := equal_sequence_iff.mp hab
    obtain ⟨hsecond, hright⟩ := equal_sequence_iff.mp hbc
    refine equal_sequence_iff.mpr ⟨hfirst.trans hsecond, ?_⟩
    intro position x z hx hz
    have hlt : position < others.length := hfirst ▸ (List.getElem?_eq_some_iff.mp hx).1
    have hy : others[position]? = some others[position] := List.getElem?_eq_getElem hlt
    exact ih x (List.mem_of_getElem? hx) (ha.child? hx) (hleft _ _ _ hx hy) (hright _ _ _ hy hz)
  | scalar value =>
    obtain ⟨other, rfl⟩ := exists_scalar_of_equal hab
    obtain ⟨third, rfl⟩ := exists_scalar_of_equal hbc
    rw [equal] at hab hbc ⊢
    exact Scalar.equal_trans hab hbc

/-! ## A tree and itself -/

/-- No NaN stands in the tree. -/
def HasNoNaN (root : Node) : Prop :=
  ∀ x : Binary64, root.Holds (.number (.float x)) → x.isNaN = false

/-- A mapping is without NaN when all its values are. -/
theorem hasNoNaN_mapping {entries : Entries Node} :
    (mapping entries).HasNoNaN ↔ ∀ entry ∈ entries, entry.2.HasNoNaN := by
  simp only [HasNoNaN, holds_mapping]
  constructor
  · intro h entry hentry x hx
    exact h x ⟨entry, hentry, hx⟩
  · rintro h x ⟨entry, hentry, hx⟩
    exact h entry hentry x hx

/-- A sequence is without NaN when all its items are. -/
theorem hasNoNaN_sequence {items : List Node} :
    (sequence items).HasNoNaN ↔ ∀ item ∈ items, item.HasNoNaN := by
  simp only [HasNoNaN, holds_sequence]
  constructor
  · intro h item hitem x hx
    exact h x ⟨item, hitem, hx⟩
  · rintro h x ⟨item, hitem, hx⟩
    exact h item hitem x hx

/-- A tree equals itself exactly when no NaN stands in it. -/
theorem equal_self_iff (ha : a.Distinct) : a.equal a ↔ a.HasNoNaN := by
  induction a using induction_on_values with
  | mapping entries ih =>
    have hdistinct : Entries.Distinct entries := ((distinct_mapping entries).mp ha).1
    rw [equal_mapping_iff hdistinct, hasNoNaN_mapping]
    constructor
    · rintro ⟨-, hvalues⟩ entry hentry
      have hfound := hdistinct.get?_of_mem hentry
      exact (ih entry hentry (ha.get? hfound)).mp (hvalues _ _ _ hfound hfound)
    · intro hvalues
      refine ⟨List.Perm.refl _, ?_⟩
      intro key x y hx hy
      obtain rfl : x = y := Option.some.inj (hx.symm.trans hy)
      have hentry := Entries.mem_of_get? hx
      exact (ih _ hentry (ha.get? hx)).mpr (hvalues _ hentry)
  | sequence items ih =>
    rw [equal_sequence_iff, hasNoNaN_sequence]
    constructor
    · rintro ⟨-, hitems⟩ item hitem
      obtain ⟨position, hposition⟩ := List.getElem?_of_mem hitem
      exact (ih item hitem (ha.child? hposition)).mp (hitems _ _ _ hposition hposition)
    · intro hitems
      refine ⟨rfl, ?_⟩
      intro position x y hx hy
      obtain rfl : x = y := Option.some.inj (hx.symm.trans hy)
      have hitem := List.mem_of_getElem? hx
      exact (ih x hitem (ha.child? hx)).mpr (hitems x hitem)
  | scalar value => simp only [equal, Scalar.equal_self_iff, HasNoNaN, holds_scalar]

/-! ## One place changed -/

section Change

variable {child new : Node} {position : Nat} {address : Address}

/-- A tree with an equal child in the place of a child is equal. -/
theorem equal_setChild (ha : a.Distinct) (hself : a.equal a) (hchild : a.child? position = some child)
    (h : child.equal new) : a.equal (a.setChild position new) := by
  cases a with
  | mapping entries =>
    have hdistinct : Entries.Distinct entries := ((distinct_mapping entries).mp ha).1
    obtain ⟨-, hvalues⟩ := (equal_mapping_iff hdistinct).mp hself
    have hkeys : Entries.keys (entries.modify position fun entry => (entry.1, new)) =
        Entries.keys entries := Option.some.inj (keys?_setChild (mapping entries) new position)
    refine (equal_mapping_iff hdistinct).mpr ⟨hkeys ▸ List.Perm.refl _, ?_⟩
    intro key x y hx hy
    obtain ⟨place, hplace⟩ := List.getElem?_of_mem (Entries.mem_of_get? hy)
    rw [List.getElem?_modify] at hplace
    obtain ⟨entry, hentry, heq⟩ := Option.map_eq_some_iff.mp hplace
    have hfound := hdistinct.get?_of_mem (List.mem_of_getElem? hentry)
    by_cases hposition : position = place
    · subst hposition
      obtain ⟨rfl, rfl⟩ : entry.1 = key ∧ new = y := by simpa using heq
      obtain rfl : x = entry.2 := Option.some.inj (hx.symm.trans hfound)
      rw [child?, hentry] at hchild
      cases hchild
      exact h
    · obtain rfl : entry = (key, y) := by simpa [hposition] using heq
      exact hvalues key x y hx hfound
  | sequence items =>
    obtain ⟨-, hitems⟩ := equal_sequence_iff.mp hself
    refine equal_sequence_iff.mpr ⟨(List.length_set ..).symm, ?_⟩
    intro place x y hx hy
    by_cases hplace : position = place
    · subst hplace
      rw [List.getElem?_set_self (List.getElem?_eq_some_iff.mp hx).1] at hy
      cases hy
      rw [child?, hx] at hchild
      cases hchild
      exact h
    · rw [List.getElem?_set_ne hplace] at hy
      exact hitems place x y hx hy
  | scalar value => cases hchild

/-- A tree with an equal node in the place of a node is equal. -/
theorem equal_replaceAt {target : Node} (ha : a.Distinct) (hself : a.equal a)
    (htarget : a.subtree? address = some target) (h : target.equal new) :
    a.equal (a.replaceAt address new) := by
  induction address generalizing a with
  | nil =>
    cases htarget
    exact h
  | cons position rest ih =>
    obtain ⟨child, hchild, hrest⟩ := exists_child?_of_subtree? htarget
    rw [replaceAt_cons hchild]
    refine equal_setChild ha hself hchild (ih (ha.child? hchild) ?_ hrest)
    -- A child of a tree without a NaN has none.
    refine (equal_self_iff (ha.child? hchild)).mpr fun x hx => ?_
    exact (equal_self_iff ha).mp hself x (hx.of_child? hchild)

/-- A mapping equals itself with its entries in another order. -/
theorem equal_of_perm {entries others : Entries Node} (ha : (mapping entries).Distinct)
    (hself : (mapping entries).equal (mapping entries)) (h : entries.Perm others) :
    (mapping entries).equal (mapping others) := by
  have hdistinct : Entries.Distinct entries := ((distinct_mapping entries).mp ha).1
  obtain ⟨-, hvalues⟩ := (equal_mapping_iff hdistinct).mp hself
  refine (equal_mapping_iff hdistinct).mpr ⟨h.map _, ?_⟩
  intro key x y hx hy
  have hentry : (key, y) ∈ entries := h.symm.subset (Entries.mem_of_get? hy)
  exact hvalues key x y hx (hdistinct.get?_of_mem hentry)

end Change

end Node

end TreePath
