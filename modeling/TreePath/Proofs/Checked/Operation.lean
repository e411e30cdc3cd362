import TreePath.Node.Entries
import TreePath.Proofs.Slice.Picking
import TreePath.Proofs.Slice.Positions

/-!
# Operations that can stop a program

The operations of a machine that have no result for some of their arguments.  Words overflow, a word
in front of a container is no position of it, and a list has no item behind its end.  Here each such
operation says what stopped it.  The definitions of the library give these operations a value
everywhere, as sums wrap around and items that are not there are passed over; a program that is
written with the operations below does what the definitions say as long as nothing stops it.

Each operation has one lemma, which says when it is carried out and with what result.
-/

set_option autoImplicit false

namespace TreePath

/-- What stops a program. -/
inductive Fault where
  /-- a sum or a difference beyond the range of words -/
  | overflow (value : Int)
  /-- a length that is not the value of a word -/
  | longContainer (length : Nat)
  /-- a negative word that is taken for a position -/
  | negativePosition (word : Int64)
  /-- an access behind the end of a list -/
  | behindEnd (position length : Nat)
  /-- a part of a list that ends in front of its start or behind the end of the list -/
  | badRange (start stop length : Nat)
  /-- no entry at a position that an index stands for -/
  | vanished (position : Nat)
  deriving DecidableEq, Repr

/-- A result, unless something stopped the program. -/
abbrev Checked (α : Type) := Except Fault α

namespace Checked

variable {α : Type}

/-! ## Words -/

/-- The word of a sum or a difference. -/
def word (value : Int) : Checked Int64 :=
  match word? value with
  | some word => .ok word
  | none => .error (.overflow value)

/-- The sum of two words. -/
def add (a b : Int64) : Checked Int64 := word (a.toInt + b.toInt)

/-- The difference of two words. -/
def sub (a b : Int64) : Checked Int64 := word (a.toInt - b.toInt)

/-- A length as a word. -/
def size (length : Nat) : Checked Int64 :=
  match word? length with
  | some word => .ok word
  | none => .error (.longContainer length)

/-- A word as a position. -/
def toPosition (word : Int64) : Checked Nat :=
  if 0 ≤ word then .ok word.toInt.toNat else .error (.negativePosition word)

/-- An integer in the range of words has a word. -/
theorem word_eq_ok {value : Int} (hlow : Int64.minValue.toInt ≤ value)
    (hhigh : value ≤ Int64.maxValue.toInt) : word value = .ok (Int64.ofInt value) := by
  rw [word, word?_eq_some hlow hhigh]

/-- Two words are added when their sum is in the range, and then the sum does not wrap around. -/
theorem add_eq_ok {a b : Int64} (hlow : Int64.minValue.toInt ≤ a.toInt + b.toInt)
    (hhigh : a.toInt + b.toInt ≤ Int64.maxValue.toInt) : add a b = .ok (a + b) := by
  rw [add, word_eq_ok hlow hhigh, Int64.ofInt_add, Int64.ofInt_toInt, Int64.ofInt_toInt]

/-- One word is subtracted from another when the difference is in the range. -/
theorem sub_eq_ok {a b : Int64} (hlow : Int64.minValue.toInt ≤ a.toInt - b.toInt)
    (hhigh : a.toInt - b.toInt ≤ Int64.maxValue.toInt) : sub a b = .ok (a - b) := by
  rw [sub, word_eq_ok hlow hhigh, Int64.ofInt_sub, Int64.ofInt_toInt, Int64.ofInt_toInt]

/-- A length that fits is its word. -/
theorem size_eq_ok {length : Nat} (h : FitsWord length) : size length = .ok (Int64.ofNat length) := by
  have hlow : Int64.minValue.toInt ≤ (length : Int) := by
    rw [Int64.toInt_minValue]
    omega
  rw [size, word?_eq_some hlow h, Int64.ofInt_eq_ofNat]

/-- A word that is not negative is a position. -/
theorem toPosition_eq_ok {word : Int64} (h : 0 ≤ word.toInt) :
    toPosition word = .ok word.toInt.toNat := by
  have hle : 0 ≤ word := by rwa [Int64.le_iff_toInt_le, Int64.toInt_zero]
  rw [toPosition, if_pos hle]

/-! ## Lists -/

/-- The item at a position. -/
def item (items : List α) (position : Nat) : Checked α :=
  match items[position]? with
  | some item => .ok item
  | none => .error (.behindEnd position items.length)

/-- Stores an item at a position. -/
def store (items : List α) (position : Nat) (value : α) : Checked (List α) := do
  let _ ← item items position
  return items.set position value

/-- Takes the item at a position and stores another there. -/
def replace (items : List α) (position : Nat) (value : α) : Checked (α × List α) := do
  let old ← item items position
  return (old, items.set position value)

/-- Takes the item at a position out of the list. -/
def remove (items : List α) (position : Nat) : Checked (α × List α) := do
  let old ← item items position
  return (old, items.eraseIdx position)

/-- Takes the part between two positions and puts other items there. -/
def splice (items : List α) (start stop : Nat) (values : List α) : Checked (List α × List α) :=
  if start ≤ stop ∧ stop ≤ items.length then
    .ok ((items.take stop).drop start, items.take start ++ values ++ items.drop stop)
  else .error (.badRange start stop items.length)

/-- The entry at a position that an index stands for. -/
def entry (entries : Entries α) (position : Nat) : Checked (String × α) :=
  match entries[position]? with
  | some entry => .ok entry
  | none => .error (.vanished position)

section Lists

variable {items : List α} {position : Nat} {old : α}

/-- There is an item at a position within the list. -/
theorem item_eq_ok (h : items[position]? = some old) : item items position = .ok old := by
  rw [item, h]

/-- An item is stored at a position within the list. -/
theorem store_eq_ok (h : position < items.length) (value : α) :
    store items position value = .ok (items.set position value) := by
  rw [store, item_eq_ok (List.getElem?_eq_getElem h)]
  rfl

/-- The item at a position within the list is exchanged for another. -/
theorem replace_eq_ok (h : items[position]? = some old) (value : α) :
    replace items position value = .ok (old, items.set position value) := by
  rw [replace, item_eq_ok h]
  rfl

/-- The item at a position within the list is taken out. -/
theorem remove_eq_ok (h : items[position]? = some old) :
    remove items position = .ok (old, items.eraseIdx position) := by
  rw [remove, item_eq_ok h]
  rfl

/-- A part of the list is exchanged for other items when it ends behind its start and within the list.
-/
theorem splice_eq_ok {start stop : Nat} (hle : start ≤ stop) (hstop : stop ≤ items.length)
    (values : List α) : splice items start stop values =
      .ok ((items.take stop).drop start, items.take start ++ values ++ items.drop stop) := by
  rw [splice, if_pos ⟨hle, hstop⟩]

/-- There is an entry at a position within the entries. -/
theorem entry_eq_ok {entries : Entries α} {found : String × α}
    (h : entries[position]? = some found) : entry entries position = .ok found := by
  rw [entry, h]

end Lists

/-! ## Going through positions -/

/-- The items at the positions, one after another. -/
def items (list : List α) (positions : List Nat) : Checked (List α) := positions.mapM (item list)

/-- Puts each value at its position, one after another, and keeps what stood there. -/
def exchange (items : List α) : List (Nat × α) → Checked (List α × List α)
  | [] => .ok ([], items)
  | (position, value) :: rest => do
    let (old, items) ← replace items position value
    let (olds, items) ← exchange items rest
    return (old :: olds, items)

/-- Marks positions one after another. -/
def mark (marks : List Bool) (positions : List Nat) : Checked (List Bool) :=
  positions.foldlM (store · · true) marks

/-- Keeps the items whose mark is not set; the marks are looked up from a cursor on. -/
def retain (marks : List Bool) : (cursor : Nat) → (items : List α) → Checked (List α)
  | _, [] => .ok []
  | cursor, first :: rest => do
    let selected ← item marks cursor
    let kept ← retain marks (cursor + 1) rest
    return if selected then kept else first :: kept

/-- Positions within the list have items. -/
theorem items_eq_ok {list : List α} {positions : List Nat} (h : ∀ p ∈ positions, p < list.length) :
    items list positions = .ok (pick list positions) := by
  induction positions with
  | nil => rfl
  | cons position rest ih =>
    have hitem := List.getElem?_eq_getElem (h position List.mem_cons_self)
    have hrest := ih fun p hp => h p (List.mem_cons_of_mem _ hp)
    rw [items] at hrest
    rw [items, List.mapM_cons, item_eq_ok hitem, hrest, pick_cons_of_some hitem]
    rfl

/-- Values at positions within the list are exchanged. -/
theorem exchange_eq_ok {changes : List (Nat × α)} (list : List α)
    (h : ∀ change ∈ changes, change.1 < list.length) :
    exchange list changes = .ok (TreePath.exchange list changes) := by
  induction changes generalizing list with
  | nil => rfl
  | cons change rest ih =>
    obtain ⟨position, value⟩ := change
    have hitem := List.getElem?_eq_getElem (h (position, value) List.mem_cons_self)
    -- The list is as long as before when the next value is stored.
    have hrest := ih (list.set position value) fun change hchange => by
      rw [List.length_set]
      exact h change (List.mem_cons_of_mem _ hchange)
    rw [exchange, replace_eq_ok hitem, TreePath.exchange, hitem]
    show (exchange (list.set position value) rest >>= _) = _
    rw [hrest]
    rfl

/-- Positions in front of the end are marked. -/
theorem mark_eq_ok {positions : List Nat} (list : List Bool)
    (h : ∀ p ∈ positions, p < list.length) :
    mark list positions = .ok (positions.foldl (fun marks p => marks.set p true) list) := by
  induction positions generalizing list with
  | nil => rfl
  | cons position rest ih =>
    have hrest := ih (list.set position true) fun p hp => by
      rw [List.length_set]
      exact h p (List.mem_cons_of_mem _ hp)
    rw [mark, List.foldlM_cons, store_eq_ok (h position List.mem_cons_self)]
    exact hrest

/-- When there is a mark for each item from the cursor on, the items without a mark stay. -/
theorem retain_eq_ok {marks : List Bool} (cursor : Nat) (list : List α)
    (h : cursor + list.length ≤ marks.length) :
    retain marks cursor list = .ok (unmarked list (marks.drop cursor)) := by
  induction list generalizing cursor with
  | nil => rfl
  | cons first rest ih =>
    rw [List.length_cons] at h
    have hlt : cursor < marks.length := by omega
    have hrest := ih (cursor + 1) (by omega)
    rw [retain, item_eq_ok (List.getElem?_eq_getElem hlt), hrest, List.drop_eq_getElem_cons hlt]
    cases hmark : marks[cursor] <;> simp [unmarked, bind, Except.bind, pure, Except.pure]

end Checked

end TreePath
