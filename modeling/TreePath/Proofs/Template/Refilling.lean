import TreePath.Proofs.Navigation.Leaves
import TreePath.Proofs.Template

/-!
# Filling a filled template

A leaf of a filled template is a leaf of the template that is no placeholder, a leaf of the data, or
null (`holds_of_substitute`).  So when no string of the data looks like a placeholder, no string of
the filled template does, and filling it again changes nothing (`fill_filled`).
-/

set_option autoImplicit false

namespace TreePath

namespace Template

variable {data template filled : Node} {value : Scalar}

/-- No string among the leaves of the tree begins as a placeholder does. -/
def PlaceholderFree (root : Node) : Prop :=
  ∀ text, root.Holds (.string text) → ¬ isPlaceholder text

/-! ## Entries and items are filled one by one -/

/-- The entries are filled one after the other, and the first failure ends it. -/
theorem substituteEntries_eq_mapM (data : Node) (entries : Entries Node) :
    substituteEntries data entries =
      entries.mapM fun entry => do return (entry.1, ← substitute data entry.2) := by
  induction entries with
  | nil => rfl
  | cons entry rest ih =>
    rw [substituteEntries, ih, List.mapM_cons, bind_assoc]
    rfl

/-- The items are filled one after the other, and the first failure ends it. -/
theorem substituteItems_eq_mapM (data : Node) (items : List Node) :
    substituteItems data items = items.mapM (substitute data) := by
  induction items with
  | nil => rfl
  | cons item rest ih =>
    rw [substituteItems, ih, List.mapM_cons]

/-! ## What a filled template holds -/

/-- **Filling invents nothing.**  A leaf of a filled template is a leaf of the template that is no
placeholder, a leaf of the data, or null. -/
theorem holds_of_substitute (h : substitute data template = .ok filled)
    (hvalue : filled.Holds value) :
    (template.Holds value ∧ ∀ text, value = .string text → ¬ isPlaceholder text) ∨
      data.Holds value ∨ value = .null := by
  induction template using Node.induction_on_values generalizing filled with
  | mapping entries ih =>
    obtain ⟨others, rfl, hothers⟩ := substitute_mapping h
    obtain ⟨other, hother, hvalue⟩ := Node.holds_mapping.mp hvalue
    rw [substituteEntries_eq_mapM] at hothers
    obtain ⟨entry, hentry, hfilled⟩ := exists_of_mem_of_mapM hothers hother
    obtain ⟨new, hnew, hfilled⟩ := exists_of_bind_eq_ok hfilled
    cases hfilled
    refine (ih entry hentry hnew hvalue).imp_left ?_
    exact fun hkept => ⟨Node.holds_mapping.mpr ⟨entry, hentry, hkept.1⟩, hkept.2⟩
  | sequence items ih =>
    obtain ⟨others, rfl, hothers⟩ := substitute_sequence h
    obtain ⟨other, hother, hvalue⟩ := Node.holds_sequence.mp hvalue
    rw [substituteItems_eq_mapM] at hothers
    obtain ⟨item, hitem, hfilled⟩ := exists_of_mem_of_mapM hothers hother
    refine (ih item hitem hfilled hvalue).imp_left ?_
    exact fun hkept => ⟨Node.holds_sequence.mpr ⟨item, hitem, hkept.1⟩, hkept.2⟩
  | scalar leaf =>
    by_cases hleaf : ∃ text, leaf = .string text ∧ isPlaceholder text
    · obtain ⟨text, rfl, htext⟩ := hleaf
      rw [substitute, if_pos htext] at h
      obtain ⟨found, hfound, h⟩ := exists_of_bind_eq_ok h
      cases h
      cases found with
      | none => exact .inr (.inr (Node.holds_scalar.mp hvalue).symm)
      | some node => exact .inr (.inl (hvalue.of_readText hfound))
    · have hkept : ∀ text, leaf = .string text → ¬ isPlaceholder text := fun text heq htext =>
        hleaf ⟨text, heq, htext⟩
      rw [substitute_leaf hkept] at h
      cases h
      obtain rfl := Node.holds_scalar.mp hvalue
      exact .inl ⟨hvalue, hkept⟩

/-- A template that is filled from data without placeholders has none left. -/
theorem placeholderFree_of_substitute (hdata : PlaceholderFree data)
    (h : substitute data template = .ok filled) : PlaceholderFree filled := by
  intro text hvalue
  rcases holds_of_substitute h hvalue with ⟨-, hkept⟩ | hfound | hnull
  · exact hkept text rfl
  · exact hdata text hfound
  · cases hnull

/-! ## Filling again -/

/-- Where there are no placeholders nothing is filled. -/
theorem substitute_of_placeholderFree (data : Node) {node : Node} (h : PlaceholderFree node) :
    substitute data node = .ok node := by
  induction node using Node.induction_on_values with
  | mapping entries ih =>
    have hentries : ∀ entry ∈ entries,
        (do return (entry.1, ← substitute data entry.2) : Except PathError _) = .ok entry := by
      intro entry hentry
      rw [ih entry hentry fun text hvalue => h text (Node.holds_mapping.mpr ⟨entry, hentry, hvalue⟩)]
      rfl
    rw [substitute, substituteEntries_eq_mapM, mapM_eq_ok_iff.mpr (List.forall₂_same.mpr hentries)]
    rfl
  | sequence items ih =>
    have hitems : ∀ item ∈ items, substitute data item = .ok item := fun item hitem =>
      ih item hitem fun text hvalue => h text (Node.holds_sequence.mpr ⟨item, hitem, hvalue⟩)
    rw [substitute, substituteItems_eq_mapM, mapM_eq_ok_iff.mpr (List.forall₂_same.mpr hitems)]
    rfl
  | scalar value =>
    refine substitute_leaf ?_
    rintro text rfl
    exact h text (Node.holds_scalar.mpr rfl)

/-- What a template that is no string is filled to is no string either. -/
theorem ne_string_of_substitute (htemplate : ∀ text, template ≠ .ofString text)
    (h : substitute data template = .ok filled) (text : String) : filled ≠ .ofString text := by
  rintro rfl
  cases template with
  | mapping entries =>
    obtain ⟨others, heq, -⟩ := substitute_mapping h
    cases heq
  | sequence items =>
    obtain ⟨others, heq, -⟩ := substitute_sequence h
    cases heq
  | scalar value =>
    rw [substitute_leaf fun text heq => absurd (congrArg Node.scalar heq) (htemplate text)] at h
    cases h
    exact htemplate text rfl

/-- **A filled template is filled for good.**  All leaves that a path reads in the data stand in the
data.  So when no string of the data begins as a placeholder does, a template that is no string is
filled to a tree without placeholders, and filling this tree again, from whatever data, gives the tree
itself. -/
theorem fill_filled (data : Node) :
    (∀ text found value, data.readText text = .ok (some found) → found.Holds value →
      data.Holds value) ∧
    (PlaceholderFree data → ∀ template filled, (∀ text, template ≠ .ofString text) →
      fill template data = .ok filled →
        PlaceholderFree filled ∧ ∀ other, fill filled other = .ok filled) := by
  refine ⟨fun text found value hread hvalue => hvalue.of_readText hread, ?_⟩
  intro hdata template filled htemplate h
  rw [fill_of_ne_string htemplate] at h
  have hfree := placeholderFree_of_substitute hdata h
  refine ⟨hfree, fun other => ?_⟩
  rw [fill_of_ne_string (ne_string_of_substitute htemplate h)]
  exact substitute_of_placeholderFree other hfree

/-- Two texts and a number. -/
def order : Node :=
  .mapping [("names", .sequence [.ofString "x", .ofString "y$"]), ("count", .ofInt64 3)]

/-- The strings of the order do not begin with the sign of a placeholder; one has it at its end. -/
theorem placeholderFree_order : PlaceholderFree order := by
  intro text h
  simp only [order, Node.ofString, Node.ofInt64, Node.holds_mapping, Node.holds_sequence,
    List.mem_cons, List.not_mem_nil, or_false, exists_eq_or_imp, exists_eq_left, Node.holds_scalar,
    Scalar.string.injEq, reduceCtorEq] at h
  rcases h with rfl | rfl <;> decide

/-- Dollar signs behind the front of a text and in keys are no placeholders. -/
theorem fill_filled_sample :
    PlaceholderFree order ∧
      fill (.mapping [("$.names", .ofString "$.names"), ("last", .sequence [.ofString "$[-1]"]),
        ("else", .ofString "$.else.$")]) order =
          .ok (.mapping [("$.names", .sequence [.ofString "x", .ofString "y$"]),
            ("last", .sequence [.mapping [("count", .ofInt64 3)]]), ("else", .null)]) ∧
      PlaceholderFree (.mapping [("$.names", .sequence [.ofString "x", .ofString "y$"]),
        ("last", .sequence [.mapping [("count", .ofInt64 3)]]), ("else", .null)]) ∧
      fill (.mapping [("$.names", .sequence [.ofString "x", .ofString "y$"]),
        ("last", .sequence [.mapping [("count", .ofInt64 3)]]), ("else", .null)]) .null =
          .ok (.mapping [("$.names", .sequence [.ofString "x", .ofString "y$"]),
            ("last", .sequence [.mapping [("count", .ofInt64 3)]]), ("else", .null)]) := by
  have hfill : fill (.mapping [("$.names", .ofString "$.names"),
      ("last", .sequence [.ofString "$[-1]"]), ("else", .ofString "$.else.$")]) order =
        .ok (.mapping [("$.names", .sequence [.ofString "x", .ofString "y$"]),
          ("last", .sequence [.mapping [("count", .ofInt64 3)]]), ("else", .null)]) := rfl
  have hagain :=
    (fill_filled order).2 placeholderFree_order _ _ (fun text => by simp [Node.ofString]) hfill
  exact ⟨placeholderFree_order, hfill, hagain.1, hagain.2 .null⟩

end Template

end TreePath
