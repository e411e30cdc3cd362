import TreePath.Proofs.Address
import TreePath.Proofs.Entries
import TreePath.Proofs.Outcome
import TreePath.Template

/-!
# What filling a template does

A template that is a string is read as a path.  Any other template is filled through its
placeholders, the strings among its leaves that begin with `$`, in document order.  Filling fails
exactly when one of them cannot be read, with the error of the first (`failure?_substitute`).

A filled template has the outline of the template: at each place of the template it holds what the
node of the template there is filled with (`subtree?_substitute`).  So mappings keep their keys and
sequences their length, placeholders are exchanged for what they address, and the other leaves stay
(`Fills`).  What has been put in for a placeholder is below a leaf of the template, and is not looked
at again.
-/

set_option autoImplicit false

namespace TreePath

namespace Template

variable {data template filled target child : Node} {address : Address} {position : Nat}

/-! ## The placeholders of a template -/

mutual

/-- The strings among the leaves of a tree, in document order. -/
def strings : Node → List String
  | .mapping entries => entriesStrings entries
  | .sequence items => itemsStrings items
  | .scalar (.string text) => [text]
  | .scalar _ => []

/-- The strings among the leaves of the values of entries. -/
def entriesStrings : List (String × Node) → List String
  | [] => []
  | (_, value) :: rest => strings value ++ entriesStrings rest

/-- The strings among the leaves of items. -/
def itemsStrings : List Node → List String
  | [] => []
  | item :: rest => strings item ++ itemsStrings rest

end

/-- The placeholders of a template, in document order. -/
def placeholders (template : Node) : List String := (strings template).filter isPlaceholder

/-- The error of the first text that cannot be read. -/
def firstFailure (data : Node) (texts : List String) : Option PathError :=
  texts.findSome? fun text => failure? (data.readText text)

/-- The first failure of two lists of texts is that of the first list, or else of the second. -/
theorem firstFailure_append (data : Node) (front back : List String) :
    firstFailure data (front ++ back) = (firstFailure data front).or (firstFailure data back) :=
  List.findSome?_append

/-- An absent node is no failure, so the null in its place makes no difference here. -/
theorem failure?_lookup (data : Node) (text : String) :
    failure? (lookup data text) = failure? (data.readText text) :=
  failure?_map _ _

/-- **Filling fails with the first placeholder that cannot be read**, and only then. -/
theorem failure?_substitute (data template : Node) :
    failure? (substitute data template) = firstFailure data (placeholders template) := by
  induction template using Node.induction_on_values with
  | mapping entries ih =>
    rw [substitute, failure?_map, placeholders, strings]
    induction entries with
    | nil => rfl
    | cons entry rest ihrest =>
      obtain ⟨key, value⟩ := entry
      obtain ⟨hvalue, hrest⟩ := List.forall_mem_cons.mp ih
      rw [substituteEntries, failure?_bind, ihrest hrest, hvalue, entriesStrings, List.filter_append,
        firstFailure_append, placeholders]
  | sequence items ih =>
    rw [substitute, failure?_map, placeholders, strings]
    induction items with
    | nil => rfl
    | cons item rest ihrest =>
      obtain ⟨hitem, hrest⟩ := List.forall_mem_cons.mp ih
      rw [substituteItems, failure?_bind, ihrest hrest, hitem, itemsStrings, List.filter_append,
        firstFailure_append, placeholders]
  | scalar value =>
    cases value with
    | string text =>
      rw [substitute, placeholders, strings]
      by_cases h : isPlaceholder text
      · rw [if_pos h, failure?_lookup, List.filter_cons_of_pos h, List.filter_nil]
        simp [firstFailure]
      · rw [if_neg h, List.filter_cons_of_neg h, List.filter_nil]
        rfl
    | null => rfl
    | boolean b => rfl
    | number n => rfl

/-! ## The places of a filled template -/

section Entries

variable {entries others : Entries Node} {entry : String × Node}

/-- The filled entries have the keys of the template, in its order. -/
theorem keys_substituteEntries (h : substituteEntries data entries = .ok others) :
    Entries.keys others = Entries.keys entries := by
  induction entries generalizing others with
  | nil =>
    cases h
    rfl
  | cons entry rest ih =>
    obtain ⟨key, value⟩ := entry
    obtain ⟨new, -, h⟩ := exists_of_bind_eq_ok h
    obtain ⟨more, hmore, h⟩ := exists_of_bind_eq_ok h
    cases h
    rw [Entries.keys_cons, Entries.keys_cons, ih hmore]

/-- The value at each position is filled. -/
theorem getElem?_substituteEntries (h : substituteEntries data entries = .ok others)
    (hentry : entries[position]? = some entry) :
    ∃ other, others[position]? = some other ∧ substitute data entry.2 = .ok other.2 := by
  induction entries generalizing others position with
  | nil => cases hentry
  | cons first rest ih =>
    obtain ⟨key, value⟩ := first
    obtain ⟨new, hnew, h⟩ := exists_of_bind_eq_ok h
    obtain ⟨more, hmore, h⟩ := exists_of_bind_eq_ok h
    cases h
    cases position with
    | zero =>
      cases hentry
      exact ⟨(key, new), rfl, hnew⟩
    | succ position =>
      rw [List.getElem?_cons_succ] at hentry ⊢
      exact ih hmore hentry

end Entries

section Items

variable {items others : List Node} {item : Node}

/-- There is one filled item for each item of the template. -/
theorem length_substituteItems (h : substituteItems data items = .ok others) :
    others.length = items.length := by
  induction items generalizing others with
  | nil =>
    cases h
    rfl
  | cons item rest ih =>
    obtain ⟨new, -, h⟩ := exists_of_bind_eq_ok h
    obtain ⟨more, hmore, h⟩ := exists_of_bind_eq_ok h
    cases h
    rw [List.length_cons, List.length_cons, ih hmore]

/-- The item at each position is filled. -/
theorem getElem?_substituteItems (h : substituteItems data items = .ok others)
    (hitem : items[position]? = some item) :
    ∃ other, others[position]? = some other ∧ substitute data item = .ok other := by
  induction items generalizing others position with
  | nil => cases hitem
  | cons first rest ih =>
    obtain ⟨new, hnew, h⟩ := exists_of_bind_eq_ok h
    obtain ⟨more, hmore, h⟩ := exists_of_bind_eq_ok h
    cases h
    cases position with
    | zero =>
      cases hitem
      exact ⟨new, rfl, hnew⟩
    | succ position =>
      rw [List.getElem?_cons_succ] at hitem ⊢
      exact ih hmore hitem

end Items

/-- A mapping is filled by filling its entries. -/
theorem substitute_mapping {entries : Entries Node}
    (h : substitute data (.mapping entries) = .ok filled) :
    ∃ others, filled = .mapping others ∧ substituteEntries data entries = .ok others := by
  obtain ⟨others, hothers, h⟩ := exists_of_bind_eq_ok h
  cases h
  exact ⟨others, rfl, hothers⟩

/-- A sequence is filled by filling its items. -/
theorem substitute_sequence {items : List Node}
    (h : substitute data (.sequence items) = .ok filled) :
    ∃ others, filled = .sequence others ∧ substituteItems data items = .ok others := by
  obtain ⟨others, hothers, h⟩ := exists_of_bind_eq_ok h
  cases h
  exact ⟨others, rfl, hothers⟩

/-- The children of a filled template are the filled children. -/
theorem child?_substitute (h : substitute data template = .ok filled)
    (hchild : template.child? position = some child) :
    ∃ other, filled.child? position = some other ∧ substitute data child = .ok other := by
  cases template with
  | mapping entries =>
    obtain ⟨others, rfl, hothers⟩ := substitute_mapping h
    simp only [Node.child?, Option.map_eq_some_iff] at hchild
    obtain ⟨entry, hentry, rfl⟩ := hchild
    obtain ⟨other, hother, hvalue⟩ := getElem?_substituteEntries hothers hentry
    exact ⟨other.2, by simp [Node.child?, hother], hvalue⟩
  | sequence items =>
    obtain ⟨others, rfl, hothers⟩ := substitute_sequence h
    exact getElem?_substituteItems hothers hchild
  | scalar value => cases hchild

/-- **At each place of the template stands what its node there is filled with.** -/
theorem subtree?_substitute (h : substitute data template = .ok filled)
    (htarget : template.subtree? address = some target) :
    ∃ other, filled.subtree? address = some other ∧ substitute data target = .ok other := by
  induction address generalizing template filled with
  | nil =>
    cases htarget
    exact ⟨filled, rfl, h⟩
  | cons position rest ih =>
    obtain ⟨child, hchild, hrest⟩ := Node.exists_child?_of_subtree? htarget
    obtain ⟨other, hother, hfilled⟩ := child?_substitute h hchild
    rw [Node.subtree?_cons hother]
    exact ih hfilled hrest

/-- How a filled template looks at the places of the template. -/
structure Fills (data template filled : Node) : Prop where
  /-- mappings keep their keys in order -/
  mapping : ∀ address entries, template.subtree? address = some (.mapping entries) →
    ∃ others, filled.subtree? address = some (.mapping others) ∧
      Entries.keys others = Entries.keys entries
  /-- sequences keep their length -/
  sequence : ∀ address items, template.subtree? address = some (.sequence items) →
    ∃ others, filled.subtree? address = some (.sequence others) ∧ others.length = items.length
  /-- a placeholder is exchanged for what it addresses, null where nothing is there -/
  placeholder : ∀ address text, template.subtree? address = some (.ofString text) →
    isPlaceholder text →
    ∃ found, data.readText text = .ok found ∧ filled.subtree? address = some (found.getD .null)
  /-- all other leaves stay -/
  leaf : ∀ address value, template.subtree? address = some (.scalar value) →
    (∀ text, value = .string text → ¬ isPlaceholder text) →
    filled.subtree? address = some (.scalar value)

/-- A leaf that is no placeholder stays. -/
theorem substitute_leaf {value : Scalar} (h : ∀ text, value = .string text → ¬ isPlaceholder text) :
    substitute data (.scalar value) = .ok (.scalar value) := by
  cases value with
  | string text => rw [substitute, if_neg (h text rfl)]
  | null => rfl
  | boolean b => rfl
  | number n => rfl

/-- A filled template has the shape of its template, with its placeholders exchanged. -/
theorem fills_of_substitute (h : substitute data template = .ok filled) :
    Fills data template filled := by
  constructor
  · intro address entries hplace
    obtain ⟨other, hother, hfilled⟩ := subtree?_substitute h hplace
    obtain ⟨others, rfl, hothers⟩ := substitute_mapping hfilled
    exact ⟨others, hother, keys_substituteEntries hothers⟩
  · intro address items hplace
    obtain ⟨other, hother, hfilled⟩ := subtree?_substitute h hplace
    obtain ⟨others, rfl, hothers⟩ := substitute_sequence hfilled
    exact ⟨others, hother, length_substituteItems hothers⟩
  · intro address text hplace htext
    obtain ⟨other, hother, hfilled⟩ := subtree?_substitute h hplace
    rw [Node.ofString, substitute, if_pos htext] at hfilled
    obtain ⟨found, hfound, hvalue⟩ := exists_of_bind_eq_ok hfilled
    cases hvalue
    exact ⟨found, hfound, hother⟩
  · intro address value hplace hvalue
    obtain ⟨other, hother, hfilled⟩ := subtree?_substitute h hplace
    rw [substitute_leaf hvalue] at hfilled
    cases hfilled
    exact hother

/-- A template that is no string is filled through its placeholders. -/
theorem fill_of_ne_string (htemplate : ∀ text, template ≠ .ofString text) (data : Node) :
    fill template data = substitute data template := by
  fun_cases fill template data with
  | case1 text => exact absurd rfl (htemplate text)
  | case2 => rfl

/-- **What filling a template does.**  A string is read as a path.  Any other template is filled
exactly when all of its placeholders can be read, otherwise the first placeholder that cannot be read
gives the error, and what is filled agrees with the template up to its placeholders. -/
theorem fill_follows_placeholders (template data : Node) :
    (∀ text, template = .ofString text →
      fill template data = (data.readText text).map fun found => found.getD .null) ∧
    ((∀ text, template ≠ .ofString text) →
      ((∃ filled, fill template data = .ok filled) ↔
        ∀ text ∈ placeholders template, ∃ found, data.readText text = .ok found) ∧
      (∀ e, fill template data = .error e ↔ ∃ before text after,
        placeholders template = before ++ text :: after ∧
          (∀ other ∈ before, ∃ found, data.readText other = .ok found) ∧
          data.readText text = .error e) ∧
      ∀ filled, fill template data = .ok filled → Fills data template filled) := by
  constructor
  · rintro text rfl
    show data.readTextOr text .null = _
    rw [Node.readTextOr]
    cases data.readText text <;> rfl
  · intro htemplate
    rw [fill_of_ne_string htemplate]
    refine ⟨?_, ?_, fun filled => fills_of_substitute⟩
    · rw [← failure?_eq_none_iff, failure?_substitute, firstFailure, List.findSome?_eq_none_iff]
      simp only [failure?_eq_none_iff]
    · intro e
      rw [← failure?_eq_some_iff, failure?_substitute, firstFailure, List.findSome?_eq_some_iff]
      simp only [failure?_eq_none_iff, failure?_eq_some_iff]
      grind

-- What is put in is not filled again, keys are no placeholders, and what is missing is null.
example : fill (.mapping [("$.a", .sequence [.ofString "$.a", .ofString "$.b"])])
      (.mapping [("a", .ofString "$.a")]) =
    .ok (.mapping [("$.a", .sequence [.ofString "$.a", .null])]) := by cbv

end Template

end TreePath
