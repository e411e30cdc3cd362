import TreePath.Proofs.Navigation.Divergence
import TreePath.Proofs.Tree.Equality

/-!
# Equality of trees under reordering and reading

Equality of values does not see the order in which the entries of a mapping stand, wherever the
mapping is in the tree (`equal_of_reorders`), and a read does not tell equal trees apart as long as no
index and no slice is applied to a mapping (`sameAnswer_read`): a name finds equal values, and an index
or a slice of a sequence goes by the position, where the items are equal.  Positions in a mapping go
by the order of entries, which equality ignores.
-/

set_option autoImplicit false

namespace TreePath

namespace Node

/-! ## Entries in another order -/

/-- A tree without a NaN equals every tree that differs from it in the order of entries. -/
theorem equal_of_reorders {a b : Node} (ha : a.Distinct) (hself : a.equal a) (h : Reorders a b) :
    a.equal b := by
  induction h with
  | refl root => exact hself
  | @step root other address entries others htarget hperm _ ih =>
    have hmapping : (mapping entries).Distinct := ha.subtree? htarget
    have hnone : (mapping entries).HasNoNaN := fun x hx =>
      (equal_self_iff ha).mp hself x (hx.of_subtree? htarget)
    have hothers : (mapping others).Distinct := by
      rw [distinct_mapping] at hmapping ⊢
      exact ⟨(hperm.map _).nodup hmapping.1, fun entry hentry =>
        hmapping.2 entry (hperm.symm.subset hentry)⟩
    have hequal := equal_replaceAt ha hself htarget
      (equal_of_perm hmapping ((equal_self_iff hmapping).mpr hnone) hperm)
    have hdistinct := ha.replaceAt hothers address
    -- The changed tree equals the one before, hence itself.
    have hchanged := equal_trans hdistinct (equal_symm ha hequal) hequal
    exact equal_trans ha hequal (ih hdistinct hchanged)

/-! ## One segment in front of a path -/

section Front

variable {items : List Node} {rest : Path}

/-- A root token in front of a path changes nothing about a read, also when it is the whole path. -/
theorem read_root (node : Node) (rest : Path) : node.read (.root :: rest) = node.read rest := by
  by_cases hrest : rest = []
  · subst hrest
    exact readLast_root node
  · exact read_root_cons node hrest

/-- A path that begins with an index within a sequence reads what the rest of it reads in the item. -/
theorem read_item {i : Int64} {position : Nat} {child : Node}
    (hindex : resolveIndex i items.length .sequence = .ok position)
    (hitem : items[position]? = some child) (rest : Path) :
    (sequence items).read (.index i :: rest) = child.read rest := by
  by_cases hrest : rest = []
  · subst hrest
    exact readLast_item hindex hitem
  · exact read_down (position_item hindex) hitem hrest

/-- A slice of a sequence gives many items, so no path goes on behind it. -/
theorem read_items (range : Slice) (hrest : rest ≠ []) :
    (sequence items).read (.slice range :: rest) = .error (.ambiguousBranch (.slice range)) := by
  rw [read_cons _ (by simp) hrest]
  rfl

/-- A leaf has no parts, so every segment but the root token is of the wrong type for it. -/
theorem read_scalar {segment : Segment} (value : Scalar) (hsegment : segment ≠ .root)
    (rest : Path) :
    (scalar value).read (segment :: rest) = .error (.typeMismatch segment .scalar) := by
  cases rest with
  | nil =>
    cases segment with
    | root => exact absurd rfl hsegment
    | key name => rfl
    | index i => rfl
    | slice range => rfl
  | cons next more =>
    rw [read_cons _ hsegment (List.cons_ne_nil next more)]
    cases segment with
    | root => exact absurd rfl hsegment
    | key name => rfl
    | index i => rfl
    | slice range => rfl

end Front

/-! ## Reading equal trees -/

/-- The answers are one error, both nothing, or equal values. -/
inductive SameAnswer : Except PathError (Option Node) → Except PathError (Option Node) → Prop
  | error (e : PathError) : SameAnswer (.error e) (.error e)
  | nothing : SameAnswer (.ok none) (.ok none)
  | found {x y : Node} : x.equal y → SameAnswer (.ok (some x)) (.ok (some y))

/-- No index and no slice of the path lands on a mapping. -/
def MissesMappings (root : Node) (path : Path) : Prop :=
  ∀ front segment back found, path = front ++ segment :: back → segment.isPositional →
    root.read front = .ok (some found) → found.kind ≠ .mapping

section Misses

variable {root child : Node} {segment : Segment} {rest : Path}

/-- An index or a slice in front of a path that misses mappings does not stand on one. -/
theorem MissesMappings.kind_ne (h : root.MissesMappings (segment :: rest))
    (hsegment : segment.isPositional) : root.kind ≠ .mapping :=
  h [] segment rest root rfl hsegment rfl

/-- Behind a segment that leads to a child the rest of the path goes on in the child. -/
theorem MissesMappings.tail (h : root.MissesMappings (segment :: rest))
    (hstep : ∀ path, root.read (segment :: path) = child.read path) :
    child.MissesMappings rest := by
  intro front next back found hpath hnext hfound
  refine h (segment :: front) next back found ?_ hnext ?_
  · rw [hpath, List.cons_append]
  · rw [hstep, hfound]

end Misses

/-- Equal items stand at the selected positions of equal sequences. -/
theorem equal_pick {items others : List Node} (h : (sequence items).equal (sequence others))
    (positions : List Nat) :
    (sequence (pick items positions)).equal (sequence (pick others positions)) := by
  obtain ⟨hlength, hitems⟩ := equal_sequence_iff.mp h
  induction positions with
  | nil => rfl
  | cons position positions ih =>
    rw [pick_cons, pick_cons]
    cases hx : items[position]? with
    | none =>
      have hy : others[position]? = none := by
        rw [List.getElem?_eq_none_iff] at hx ⊢
        exact hlength ▸ hx
      rw [hy]
      exact ih
    | some x =>
      have hlt : position < others.length := hlength ▸ (List.getElem?_eq_some_iff.mp hx).1
      have hy : others[position]? = some others[position] := List.getElem?_eq_getElem hlt
      rw [hy]
      have hfirst := hitems position _ _ hx hy
      rw [equal] at ih ⊢
      simp only [Option.toList_some, List.singleton_append, equalItems, hfirst, ih, Bool.and_self]

section Steps

variable {items : List Node} {rest : Path}

/-- Equal mappings have the same names, and equal values under each, so that a path behind a name is
followed in equal values, or ends in both where the name is absent. -/
theorem sameAnswer_key {entries others : Entries Node} (hdistinct : Entries.Distinct entries)
    (h : (mapping entries).equal (mapping others)) (name : String)
    (hrest : ∀ x y, Entries.get? entries name = some x → x.equal y →
      SameAnswer (x.read rest) (y.read rest)) :
    SameAnswer ((mapping entries).read (.key name :: rest))
      ((mapping others).read (.key name :: rest)) := by
  obtain ⟨hkeys, hvalues⟩ := (equal_mapping_iff hdistinct).mp h
  rw [read_key, read_key]
  cases hx : Entries.get? entries name with
  | none =>
    have hy : Entries.get? others name = none := by
      rw [Entries.get?_eq_none_iff] at hx ⊢
      exact fun hmem => hx (hkeys.symm.subset hmem)
    rw [hy]
    exact .nothing
  | some x =>
    obtain ⟨y, hy⟩ := Entries.exists_get?_of_perm hkeys hx
    rw [hy]
    exact hrest x y hx (hvalues name x y hx hy)

/-- Equal sequences are equally long, so an index stands for one position in both, or is out of range
in both. -/
theorem sameAnswer_index {others : List Node} (h : (sequence items).equal (sequence others))
    (i : Int64)
    (hrest : ∀ x y, x ∈ items → (∀ path, (sequence items).read (.index i :: path) = x.read path) →
      x.equal y → SameAnswer (x.read rest) (y.read rest)) :
    SameAnswer ((sequence items).read (.index i :: rest))
      ((sequence others).read (.index i :: rest)) := by
  obtain ⟨hlength, hitems⟩ := equal_sequence_iff.mp h
  cases hindex : resolveIndex i items.length .sequence with
  | error e =>
    have hother : resolveIndex i others.length .sequence = .error e := hlength ▸ hindex
    rw [read_of_position_error rfl (position_beyond_sequence hindex),
      read_of_position_error rfl (position_beyond_sequence hother)]
    exact .error e
  | ok position =>
    have hother : resolveIndex i others.length .sequence = .ok position := hlength ▸ hindex
    obtain ⟨x, hx⟩ := exists_getElem?_of_resolveIndex hindex
    obtain ⟨y, hy⟩ := exists_getElem?_of_resolveIndex hother
    rw [read_item hindex hx, read_item hother hy]
    exact hrest x y (List.mem_of_getElem? hx) (read_item hindex hx) (hitems position x y hx hy)

/-- A slice of equal sequences selects the same positions, where equal items stand. -/
theorem sameAnswer_slice {others : List Node} (h : (sequence items).equal (sequence others))
    (range : Slice) (rest : Path) :
    SameAnswer ((sequence items).read (.slice range :: rest))
      ((sequence others).read (.slice range :: rest)) := by
  by_cases hrest : rest = []
  · subst hrest
    rw [read, read, readLast_items, readLast_items, ← (equal_sequence_iff.mp h).1]
    exact .found (equal_pick h _)
  · rw [read_items range hrest, read_items range hrest]
    exact .error _

end Steps

/-- A read gives the same answer in equal trees. -/
theorem sameAnswer_read {a b : Node} (ha : a.Distinct) (h : a.equal b) (path : Path)
    (hpath : a.MissesMappings path) : SameAnswer (a.read path) (b.read path) := by
  induction path generalizing a b with
  | nil => exact .found h
  | cons segment rest ih =>
    by_cases hroot : segment = .root
    · subst hroot
      rw [read_root, read_root]
      exact ih ha h (hpath.tail (read_root a))
    cases a with
    | mapping entries =>
      obtain ⟨others, rfl⟩ := exists_mapping_of_equal h
      cases segment with
      | root => exact absurd rfl hroot
      | key name =>
        refine sameAnswer_key ((distinct_mapping entries).mp ha).1 h name ?_
        intro x y hx hequal
        refine ih (ha.get? hx) hequal (hpath.tail fun path => ?_)
        rw [read_key, hx]
      | index i => exact absurd rfl (hpath.kind_ne rfl)
      | slice range => exact absurd rfl (hpath.kind_ne rfl)
    | sequence items =>
      obtain ⟨others, rfl⟩ := exists_sequence_of_equal h
      cases segment with
      | root => exact absurd rfl hroot
      | key name =>
        rw [read_of_position_error rfl rfl, read_of_position_error rfl rfl]
        exact .error _
      | index i =>
        refine sameAnswer_index h i ?_
        intro x y hx hstep hequal
        exact ih ((distinct_sequence items).mp ha x hx) hequal (hpath.tail hstep)
      | slice range => exact sameAnswer_slice h range rest
    | scalar value =>
      obtain ⟨other, rfl⟩ := exists_scalar_of_equal h
      rw [read_scalar value hroot, read_scalar other hroot]
      exact .error _

/-! ## Equality as a whole -/

/-- **Equality of trees is a congruence that ignores the order of entries.**  Among trees with distinct
keys it is symmetric and transitive, a tree equals itself when no NaN stands in it, and then it equals
every tree that only has the entries of its mappings, at any depth, in another order.  An integer never
equals a float.  A path whose indices and slices do not land on mappings reads the same error, nothing,
or equal values in equal trees. -/
theorem equality_is_a_congruence {a b c : Node} (ha : a.Distinct) (hb : b.Distinct) :
    a.equal b = b.equal a ∧
    (a.equal b → b.equal c → a.equal c) ∧
    (a.equal a ↔ a.HasNoNaN) ∧
    (a.HasNoNaN → ∀ other, Reorders a other → a.equal other) ∧
    (∀ i x, (ofInt64 i).equal (ofFloat x) = false ∧ (ofFloat x).equal (ofInt64 i) = false) ∧
    (a.equal b → ∀ path, a.MissesMappings path → SameAnswer (a.read path) (b.read path)) := by
  refine ⟨Bool.eq_iff_iff.mpr ⟨equal_symm ha, equal_symm hb⟩, equal_trans ha, equal_self_iff ha, ?_,
    fun _ _ => ⟨rfl, rfl⟩, fun h path hpath => sameAnswer_read ha h path hpath⟩
  intro hnone other hreorders
  exact equal_of_reorders ha ((equal_self_iff ha).mpr hnone) hreorders

/-- The sample with its two entries the other way round. -/
def turned : Node :=
  mapping
    [("map", mapping [("on", ofBool true)]), ("list", sequence [ofInt64 1, ofInt64 2, ofInt64 3])]

/-- The sample equals itself turned round, and the last item of its list is read alike in both. -/
theorem equality_is_a_congruence_sample :
    sample.equal turned ∧
      SameAnswer (sample.read [.key "list", .index (-1)]) (turned.read [.key "list", .index (-1)]) := by
  have hdistinct : turned.Distinct := by
    simp [turned, ofInt64, ofBool, Entries.Distinct, Entries.keys]
  obtain ⟨-, -, -, horder, -, hread⟩ :=
    equality_is_a_congruence (c := sample) sample_wellFormed.distinct hdistinct
  have hnone : sample.HasNoNaN := by
    simp [HasNoNaN, sample, ofInt64, ofBool]
  have hturned : Reorders sample turned :=
    .step (show sample.subtree? [] = some sample from rfl) (List.Perm.swap _ _ _) (.refl turned)
  have hequal := horder hnone turned hturned
  refine ⟨hequal, hread hequal _ ?_⟩
  -- Behind the name stands the list, and in front of it there is no index.
  intro front segment back found hpath hsegment hfound
  cases front with
  | nil =>
    cases hpath
    cases hsegment
  | cons first more =>
    cases more with
    | nil =>
      cases hpath
      cases hfound
      simp [kind]
    | cons second more => simp at hpath

end Node

end TreePath
