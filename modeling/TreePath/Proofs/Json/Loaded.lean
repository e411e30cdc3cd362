import TreePath.Document
import TreePath.Proofs.Navigation.Depth
import TreePath.Proofs.Navigation.Keys

/-!
# Trees that were read from JSON

A reader only puts together what its calls for the parts have read, so a fact about trees holds of
everything that is read when it passes from the parts to the whole.  In this way the mappings of a
loaded tree have distinct keys, and its containers are not nested deeper than the reader goes
(`distinct_and_depth_of_load`).
-/

set_option autoImplicit false

namespace TreePath

namespace Json

variable {α : Type} {element : Reader α} {closing : Char} {fuel d : Nat}
  {input rest : List Char} {values : List α} {motive : α → Prop}

/-! ## Parts -/

/-- What the reader of an element reads wherever it starts, each of the elements is. -/
theorem forall_of_readElements (helement : ∀ input a rest, element input = some (a, rest) → motive a)
    (h : readElements element closing fuel input = some (values, rest)) :
    ∀ a ∈ values, motive a := by
  induction fuel generalizing input values rest with
  | zero => cases h
  | succ fuel ih =>
    obtain ⟨⟨first, behind⟩, hfirst, h⟩ := Option.bind_eq_some_iff.mp h
    have hmotive := helement input first behind hfirst
    simp only at h
    split at h
    next c more hskip =>
      split at h
      · cases h
        simpa using hmotive
      · split at h
        · obtain ⟨⟨others, behind⟩, hothers, h⟩ := Option.bind_eq_some_iff.mp h
          cases h
          intro a ha
          rcases List.mem_cons.mp ha with rfl | hmem
          · exact hmotive
          · exact ih hothers a hmem
        · cases h
    next => cases h

/-- What holds of everything that an element is read as holds of all that stands in brackets. -/
theorem forall_of_readBracket (helement : ∀ input a rest, element input = some (a, rest) → motive a)
    (h : readBracket element closing input = some (values, rest)) : ∀ a ∈ values, motive a := by
  unfold readBracket at h
  split at h
  next c more hskip =>
    split at h
    · cases h
      exact fun a ha => by cases ha
    · exact forall_of_readElements helement h
  next => cases h

/-- What holds of everything that an element is read as holds of the value of a member. -/
theorem of_readMember {key : String} {a : α}
    (helement : ∀ input a rest, element input = some (a, rest) → motive a)
    (h : readMember element input = some ((key, a), rest)) : motive a := by
  unfold readMember at h
  split at h
  next more hskip =>
    obtain ⟨⟨name, behind⟩, hname, h⟩ := Option.bind_eq_some_iff.mp h
    simp only at h
    split at h
    next more hcolon =>
      obtain ⟨⟨value, behind⟩, hvalue, h⟩ := Option.bind_eq_some_iff.mp h
      cases h
      exact helement _ _ _ hvalue
    next => cases h
  next => cases h

/-! ## Trees -/

/-- The tree of the value has distinct keys and is at most so deep. -/
structure Bounded (d : Nat) (value : Value) : Prop where
  distinct : (Node.ofJson value).Distinct
  depth : (Node.ofJson value).depth ≤ d

/-- An array of values within a bound is within the next one. -/
theorem bounded_array {items : List Value} (h : ∀ item ∈ items, Bounded d item) :
    Bounded (d + 1) (.array items) := by
  have hitems : ∀ node ∈ items.map Node.ofJson, node.Distinct ∧ node.depth ≤ d := by
    intro node hnode
    obtain ⟨item, hitem, rfl⟩ := List.mem_map.mp hnode
    exact ⟨(h item hitem).distinct, (h item hitem).depth⟩
  constructor
  · rw [Node.ofJson, Node.itemsOfJson_eq_map, Node.distinct_sequence]
    exact fun node hnode => (hitems node hnode).1
  · rw [Node.ofJson, Node.itemsOfJson_eq_map, Node.depth, Nat.add_le_add_iff_right,
      Node.depthOfItems_le]
    exact fun node hnode => (hitems node hnode).2

/-- An object of values within a bound is within the next one, also where the value of a repeated
member takes the place of an earlier one. -/
theorem bounded_object {members : List (String × Value)}
    (h : ∀ member ∈ members, Bounded d member.2) : Bounded (d + 1) (.object members) := by
  have hmembers : ∀ pair ∈ members.map fun member => (member.1, Node.ofJson member.2),
      pair.2.Distinct ∧ pair.2.depth ≤ d := by
    intro pair hpair
    obtain ⟨member, hmember, rfl⟩ := List.mem_map.mp hpair
    exact ⟨(h member hmember).distinct, (h member hmember).depth⟩
  constructor
  · rw [Node.ofJson, Node.entriesOfJson_eq_map]
    exact Node.distinct_mapping_ofList fun pair hpair => (hmembers pair hpair).1
  · rw [Node.ofJson, Node.entriesOfJson_eq_map, Node.depth, Nat.add_le_add_iff_right,
      Node.depthOfEntries_le]
    intro entry hentry
    obtain ⟨pair, hpair, hvalue⟩ := Entries.exists_mem_of_mem_ofList hentry
    rw [hvalue]
    exact (hmembers pair hpair).2

/-- A value that becomes a leaf is within every bound. -/
theorem bounded_of_leaf {value : Value} {leaf : Scalar} (h : Node.ofJson value = .scalar leaf) :
    Bounded d value where
  distinct := by
    rw [h]
    exact Node.distinct_scalar leaf
  depth := by
    rw [h, Node.depth_scalar]
    exact Nat.zero_le d

/-- **A value is read within the nesting that is left.** -/
theorem bounded_of_readValue {value : Value} (h : readValue d input = some (value, rest)) :
    Bounded d value := by
  induction d using Nat.strongRecOn generalizing input value rest with
  | ind d ih =>
    unfold readValue at h
    split at h
    next =>
      cases h
      exact bounded_of_leaf rfl
    next =>
      cases h
      exact bounded_of_leaf rfl
    next =>
      cases h
      exact bounded_of_leaf rfl
    next =>
      obtain ⟨⟨text, behind⟩, -, h⟩ := Option.map_eq_some_iff.mp h
      cases h
      exact bounded_of_leaf rfl
    next more hskip =>
      cases d with
      | zero => cases h
      | succ d =>
        obtain ⟨⟨items, behind⟩, hitems, h⟩ := Option.map_eq_some_iff.mp h
        cases h
        apply bounded_array
        exact forall_of_readBracket (fun _ _ _ => ih d (Nat.lt_succ_self d)) hitems
    next more hskip =>
      cases d with
      | zero => cases h
      | succ d =>
        obtain ⟨⟨members, behind⟩, hmembers, h⟩ := Option.map_eq_some_iff.mp h
        cases h
        apply bounded_object
        refine forall_of_readBracket (motive := fun member => Bounded d member.2) ?_ hmembers
        rintro input ⟨key, value⟩ rest hmember
        exact of_readMember (fun _ _ _ => ih d (Nat.lt_succ_self d)) hmember
    next =>
      obtain ⟨⟨number, behind⟩, -, h⟩ := Option.map_eq_some_iff.mp h
      cases h
      exact bounded_of_leaf rfl

end Json

namespace Format

/-- **A tree that was read from JSON has distinct keys and is at most 127 containers deep.** -/
theorem distinct_and_depth_of_load {text : String} {node : Node} (h : load .json text = .ok node) :
    node.Distinct ∧ node.depth ≤ 127 := by
  rw [load] at h
  split at h
  next value hread =>
    cases h
    obtain ⟨⟨found, behind⟩, hfound, hread⟩ := Option.bind_eq_some_iff.mp hread
    simp only at hread
    split at hread
    · cases hread
      have hbounded := Json.bounded_of_readValue hfound
      exact ⟨hbounded.distinct, hbounded.depth⟩
    · cases hread
  next => cases h

end Format

end TreePath
