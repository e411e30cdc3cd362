import Mathlib.Data.List.Forall2
import TreePath.Proofs.WellFormed
import TreePath.Yaml.Value

/-!
# Trees of YAML values

What a YAML value becomes in a tree is said by the relation `Becomes`: tags fall away at every depth,
items are converted one by one, and the entries of a mapping get the names of their keys (`Names`),
where equal names are merged.  The conversion computes this relation (`ofYaml?_eq_some_iff`).  It
fails exactly when some mapping within the value has a key that is a container behind its tags
(`ofYaml?_eq_none_iff`).

On the way back a tree has a YAML value of the same shape, and this value becomes the tree again
(`becomes_toYaml`).
-/

set_option autoImplicit false

namespace TreePath

namespace Yaml

namespace Value

variable {key value target : Value} {text : String} {items : List Value}
  {entries : List (Value × Value)}

/-! ## Keys -/

/-- What is behind the tags of a value. -/
def untagged : Value → Value
  | tagged _ value => untagged value
  | value => value

/-- The value is a sequence or a mapping behind its tags. -/
def IsContainer (value : Value) : Prop :=
  (∃ items, value.untagged = sequence items) ∨ ∃ entries, value.untagged = mapping entries

/-- The string that a scalar key becomes, whatever its tags. -/
inductive Names : Value → String → Prop
  | null : Names .null "null"
  | yes : Names (.boolean true) "true"
  | no : Names (.boolean false) "false"
  | integer (i : Int) : Names (.number (.integer i)) (Decimal.integerText i)
  | float (x : Binary64) : Names (.number (.float x)) (floatLayout.render x)
  | string (s : String) : Names (.string s) s
  | tagged {value : Value} {text : String} (tag : String) :
      Names value text → Names (.tagged tag value) text

/-- The text of a key is the one that it names, and a key without a text names none. -/
theorem keyText?_eq_some_iff : keyText? key = some text ↔ Names key text := by
  constructor
  · intro h
    fun_induction keyText? key with
    | case1 =>
      cases h
      exact .null
    | case2 b =>
      cases h
      cases b
      · exact .no
      · exact .yes
    | case3 n =>
      cases h
      cases n with
      | integer i => exact .integer i
      | float x => exact .float x
    | case4 s =>
      cases h
      exact .string _
    | case5 tag value ih => exact .tagged tag (ih h)
    | case6 items => cases h
    | case7 entries => cases h
  · intro h
    induction h with
    | null => rfl
    | yes => rfl
    | no => rfl
    | integer i => rfl
    | float x => rfl
    | string s => rfl
    | tagged tag _ ih => exact ih

/-- Only containers cannot be keys. -/
theorem keyText?_eq_none_iff : keyText? key = none ↔ IsContainer key := by
  fun_induction keyText? key with
  | case1 => simp [IsContainer, untagged]
  | case2 b => simp [IsContainer, untagged]
  | case3 n => simp [IsContainer, untagged]
  | case4 s => simp [IsContainer, untagged]
  | case5 tag value ih => exact ih
  | case6 items => simp [IsContainer, untagged]
  | case7 entries => simp [IsContainer, untagged]

/-! ## What a value becomes -/

/-- What a value becomes in a tree. -/
inductive Becomes : Value → Node → Prop
  | null : Becomes .null .null
  | boolean (b : Bool) : Becomes (.boolean b) (.ofBool b)
  | number (n : Numeral) : Becomes (.number n) (.scalar (.number n.toNumber))
  | string (s : String) : Becomes (.string s) (.ofString s)
  | sequence {items : List Value} {nodes : List Node} :
      List.Forall₂ Becomes items nodes → Becomes (.sequence items) (.sequence nodes)
  | mapping {entries : List (Value × Value)} {pairs : List (String × Node)} {merged : Entries Node} :
      List.Forall₂ (fun entry pair => Names entry.1 pair.1) entries pairs →
      List.Forall₂ (fun entry pair => Becomes entry.2 pair.2) entries pairs →
      Entries.Merges pairs merged → Becomes (.mapping entries) (.mapping merged)
  | tagged {value : Value} {node : Node} (tag : String) :
      Becomes value node → Becomes (.tagged tag value) node

/-! ## Keys within a value -/

/-- A value and what is within it: items, values of entries, and what is behind tags.  Keys are not
within a value. -/
inductive Within : Value → Value → Prop
  | here (value : Value) : Within value value
  | item {target item : Value} {items : List Value} :
      item ∈ items → Within target item → Within target (.sequence items)
  | entry {target : Value} {entry : Value × Value} {entries : List (Value × Value)} :
      entry ∈ entries → Within target entry.2 → Within target (.mapping entries)
  | behind {target value : Value} (tag : String) :
      Within target value → Within target (.tagged tag value)

/-- Some mapping within the value has a container as a key. -/
def HasContainerKey (value : Value) : Prop :=
  ∃ entries, Within (.mapping entries) value ∧ ∃ entry ∈ entries, IsContainer entry.1

/-- Null holds no key. -/
@[simp] theorem not_hasContainerKey_null : ¬ HasContainerKey .null := by
  rintro ⟨entries, hwithin, -⟩
  cases hwithin

/-- A boolean holds no key. -/
@[simp] theorem not_hasContainerKey_boolean (b : Bool) : ¬ HasContainerKey (.boolean b) := by
  rintro ⟨entries, hwithin, -⟩
  cases hwithin

/-- A number holds no key. -/
@[simp] theorem not_hasContainerKey_number (n : Numeral) : ¬ HasContainerKey (.number n) := by
  rintro ⟨entries, hwithin, -⟩
  cases hwithin

/-- A string holds no key. -/
@[simp] theorem not_hasContainerKey_string (s : String) : ¬ HasContainerKey (.string s) := by
  rintro ⟨entries, hwithin, -⟩
  cases hwithin

/-- A sequence has a container for a key within it when one of its items does. -/
@[simp] theorem hasContainerKey_sequence :
    HasContainerKey (.sequence items) ↔ ∃ item ∈ items, HasContainerKey item := by
  constructor
  · rintro ⟨entries, hwithin, hkey⟩
    cases hwithin with
    | item hitem hwithin => exact ⟨_, hitem, entries, hwithin, hkey⟩
  · rintro ⟨item, hitem, entries, hwithin, hkey⟩
    exact ⟨entries, .item hitem hwithin, hkey⟩

/-- A mapping has a container for a key within it when it is one of its own keys or is within a value.
-/
@[simp] theorem hasContainerKey_mapping :
    HasContainerKey (.mapping entries) ↔
      ∃ entry ∈ entries, IsContainer entry.1 ∨ HasContainerKey entry.2 := by
  constructor
  · rintro ⟨others, hwithin, hkey⟩
    cases hwithin with
    | here =>
      obtain ⟨entry, hentry, hcontainer⟩ := hkey
      exact ⟨entry, hentry, .inl hcontainer⟩
    | entry hentry hwithin => exact ⟨_, hentry, .inr ⟨others, hwithin, hkey⟩⟩
  · rintro ⟨entry, hentry, hcontainer | ⟨others, hwithin, hkey⟩⟩
    · exact ⟨entries, .here _, entry, hentry, hcontainer⟩
    · exact ⟨others, .entry hentry hwithin, hkey⟩

/-- A tag does not matter to the keys within a value. -/
@[simp] theorem hasContainerKey_tagged (tag : String) :
    HasContainerKey (.tagged tag value) ↔ HasContainerKey value := by
  constructor
  · rintro ⟨entries, hwithin, hkey⟩
    cases hwithin with
    | behind _ hwithin => exact ⟨entries, hwithin, hkey⟩
  · rintro ⟨entries, hwithin, hkey⟩
    exact ⟨entries, .behind tag hwithin, hkey⟩

end Value

end Yaml

namespace Node

open Yaml (Value)

/-! ## The conversion -/

mutual

/-- The conversion refuses exactly the values with a container as a key. -/
theorem ofYaml?_eq_none_iff (value : Value) : ofYaml? value = none ↔ value.HasContainerKey := by
  cases value with
  | null => simp [ofYaml?]
  | boolean b => simp [ofYaml?]
  | number n => simp [ofYaml?]
  | string s => simp [ofYaml?]
  | sequence items =>
    rw [Value.hasContainerKey_sequence, ← itemsOfYaml?_eq_none_iff items, ofYaml?]
    cases itemsOfYaml? items <;> simp
  | mapping entries =>
    rw [Value.hasContainerKey_mapping, ← entriesOfYaml?_eq_none_iff entries, ofYaml?]
    cases entriesOfYaml? entries <;> simp
  | tagged tag value =>
    rw [Value.hasContainerKey_tagged, ← ofYaml?_eq_none_iff value, ofYaml?]

/-- Entries cannot become nodes when one has a container for its key or within its value. -/
theorem entriesOfYaml?_eq_none_iff (entries : List (Value × Value)) :
    entriesOfYaml? entries = none ↔
      ∃ entry ∈ entries, entry.1.IsContainer ∨ entry.2.HasContainerKey := by
  cases entries with
  | nil => simp [entriesOfYaml?]
  | cons entry rest =>
    rw [List.exists_mem_cons_iff, ← entriesOfYaml?_eq_none_iff rest, ← Value.keyText?_eq_none_iff,
      ← ofYaml?_eq_none_iff entry.2, entriesOfYaml?]
    -- The key, the value or the rest is refused, or all three are converted.
    cases Yaml.keyText? entry.1 <;> cases ofYaml? entry.2 <;> cases entriesOfYaml? rest <;> simp

/-- Items cannot become nodes when one has a container for a key within it. -/
theorem itemsOfYaml?_eq_none_iff (items : List Value) :
    itemsOfYaml? items = none ↔ ∃ item ∈ items, item.HasContainerKey := by
  cases items with
  | nil => simp [itemsOfYaml?]
  | cons item rest =>
    rw [List.exists_mem_cons_iff, ← itemsOfYaml?_eq_none_iff rest, ← ofYaml?_eq_none_iff item,
      itemsOfYaml?]
    cases ofYaml? item <;> cases itemsOfYaml? rest <;> simp

end

/-- The one node that a leaf becomes. -/
theorem some_eq_some_iff_becomes {value : Value} {leaf node : Node} (hleaf : value.Becomes leaf)
    (honly : ∀ other, value.Becomes other → leaf = other) :
    some leaf = some node ↔ value.Becomes node := by
  rw [Option.some.injEq]
  constructor
  · rintro rfl
    exact hleaf
  · exact honly node

mutual

/-- The conversion computes what a value becomes. -/
theorem ofYaml?_eq_some_iff (value : Value) {node : Node} :
    ofYaml? value = some node ↔ value.Becomes node := by
  cases value with
  | null =>
    rw [ofYaml?]
    refine some_eq_some_iff_becomes .null ?_
    rintro node ⟨⟩
    rfl
  | boolean b =>
    rw [ofYaml?]
    refine some_eq_some_iff_becomes (.boolean b) ?_
    rintro node ⟨⟩
    rfl
  | number n =>
    rw [ofYaml?]
    refine some_eq_some_iff_becomes (.number n) ?_
    rintro node ⟨⟩
    rfl
  | string s =>
    rw [ofYaml?]
    refine some_eq_some_iff_becomes (.string s) ?_
    rintro node ⟨⟩
    rfl
  | sequence items =>
    rw [ofYaml?]
    constructor
    · intro h
      obtain ⟨nodes, hitems, hnode⟩ := Option.bind_eq_some_iff.mp h
      cases hnode
      exact .sequence ((itemsOfYaml?_eq_some_iff items).mp hitems)
    · rintro (_ | _ | _ | _ | hitems)
      rw [(itemsOfYaml?_eq_some_iff items).mpr hitems]
      rfl
  | mapping entries =>
    rw [ofYaml?]
    constructor
    · intro h
      obtain ⟨pairs, hentries, hnode⟩ := Option.bind_eq_some_iff.mp h
      cases hnode
      obtain ⟨hnames, hvalues⟩ := (entriesOfYaml?_eq_some_iff entries).mp hentries
      exact .mapping hnames hvalues (Entries.merges_iff.mpr rfl)
    · rintro (_ | _ | _ | _ | _ | ⟨hnames, hvalues, hmerged⟩)
      rw [(entriesOfYaml?_eq_some_iff entries).mpr ⟨hnames, hvalues⟩, Entries.merges_iff.mp hmerged]
      rfl
  | tagged tag value =>
    rw [ofYaml?, ofYaml?_eq_some_iff value]
    constructor
    · exact .tagged tag
    · rintro (_ | _ | _ | _ | _ | _ | ⟨_, hvalue⟩)
      exact hvalue

/-- Entries become the pairs of the names of their keys and the nodes of their values. -/
theorem entriesOfYaml?_eq_some_iff (entries : List (Value × Value)) {pairs : List (String × Node)} :
    entriesOfYaml? entries = some pairs ↔
      List.Forall₂ (fun entry pair => Value.Names entry.1 pair.1) entries pairs ∧
        List.Forall₂ (fun entry pair => Value.Becomes entry.2 pair.2) entries pairs := by
  cases entries with
  | nil => simp [entriesOfYaml?, eq_comm]
  | cons entry rest =>
    rw [entriesOfYaml?]
    simp only [Option.bind_eq_bind, Option.bind_eq_some_iff, Value.keyText?_eq_some_iff,
      ofYaml?_eq_some_iff entry.2, entriesOfYaml?_eq_some_iff rest]
    constructor
    · rintro ⟨text, hname, node, hvalue, pairs, ⟨hnames, hvalues⟩, ⟨⟩⟩
      exact ⟨.cons hname hnames, .cons hvalue hvalues⟩
    · rintro ⟨_ | ⟨hname, hnames⟩, _ | ⟨hvalue, hvalues⟩⟩
      exact ⟨_, hname, _, hvalue, _, ⟨hnames, hvalues⟩, rfl⟩

/-- Items become the list of their nodes. -/
theorem itemsOfYaml?_eq_some_iff (items : List Value) {nodes : List Node} :
    itemsOfYaml? items = some nodes ↔ List.Forall₂ Value.Becomes items nodes := by
  cases items with
  | nil => simp [itemsOfYaml?, eq_comm]
  | cons item rest =>
    rw [itemsOfYaml?]
    simp only [Option.bind_eq_bind, Option.bind_eq_some_iff, ofYaml?_eq_some_iff item,
      itemsOfYaml?_eq_some_iff rest]
    constructor
    · rintro ⟨node, hitem, nodes, hitems, ⟨⟩⟩
      exact .cons hitem hitems
    · rintro (_ | ⟨hitem, hitems⟩)
      exact ⟨_, hitem, _, hitems, rfl⟩

end

/-! ## There and back -/

/-- Entries are turned into values one by one, with strings for their keys. -/
theorem entriesToYaml_eq_map (entries : List (String × Node)) :
    entriesToYaml entries = entries.map fun entry => (.string entry.1, entry.2.toYaml) := by
  induction entries with
  | nil => rfl
  | cons entry rest ih => rw [entriesToYaml, ih, List.map_cons]

/-- Items are turned into values one by one. -/
theorem itemsToYaml_eq_map (items : List Node) : itemsToYaml items = items.map toYaml := by
  induction items with
  | nil => rfl
  | cons item rest ih => rw [itemsToYaml, ih, List.map_cons]

/-- A tree is what its YAML value becomes. -/
theorem becomes_toYaml {node : Node} (hdistinct : node.Distinct) : node.toYaml.Becomes node := by
  induction node using induction_on_values with
  | mapping entries ih =>
    obtain ⟨hkeys, hvalues⟩ := (distinct_mapping entries).mp hdistinct
    have hmerged : Entries.Merges entries entries :=
      Entries.merges_iff.mpr (Entries.ofList_of_distinct hkeys).symm
    rw [toYaml, entriesToYaml_eq_map]
    refine .mapping ?_ ?_ hmerged
    · rw [List.forall₂_map_left_iff, List.forall₂_same]
      exact fun entry _ => .string entry.1
    · rw [List.forall₂_map_left_iff, List.forall₂_same]
      exact fun entry hentry => ih entry hentry (hvalues entry hentry)
  | sequence items ih =>
    rw [toYaml, itemsToYaml_eq_map]
    refine .sequence ?_
    rw [List.forall₂_map_left_iff, List.forall₂_same]
    exact fun item hitem => ih item hitem ((distinct_sequence items).mp hdistinct item hitem)
  | scalar value =>
    cases value with
    | null => exact .null
    | boolean b => exact .boolean b
    | string s => exact .string s
    | number n =>
      cases n with
      | integer i =>
        have hback := Value.Becomes.number (.integer i.toInt)
        rwa [Numeral.toNumber_toInt] at hback
      | float x => exact .number (.float x)

/-- **A YAML value is refused when a mapping in it has a container as a key, and otherwise loses
just its tags and the entries whose keys become equal.**  A tree comes back from its YAML value. -/
theorem ofYaml?_follows_shape :
    (∀ value : Value, ofYaml? value = none ↔ value.HasContainerKey) ∧
      (∀ (value : Value) (node : Node), ofYaml? value = some node ↔ value.Becomes node) ∧
      ∀ node : Node, node.Distinct → ofYaml? node.toYaml = some node := by
  refine ⟨ofYaml?_eq_none_iff, fun value node => ofYaml?_eq_some_iff value, ?_⟩
  intro node hdistinct
  exact (ofYaml?_eq_some_iff _).mpr (becomes_toYaml hdistinct)

/-- The keys `1` and `"1"` are one key of the tree. -/
theorem ofYaml?_follows_shape_sample :
    (Value.mapping [(.tagged "!id" (.number (.integer 1)), .string "first"),
        (.string "b", .tagged "!none" .null), (.string "1", .sequence [.boolean true])]).Becomes
      (mapping [("1", sequence [ofBool true]), ("b", null)]) ∧
    (Value.sequence
      [.tagged "!set" (.mapping [(.tagged "!pair" (.sequence []), .null)])]).HasContainerKey ∧
    sample.Distinct ∧ ofYaml? sample.toYaml = some sample := by
  have hdistinct := sample_wellFormed.distinct
  exact ⟨(ofYaml?_follows_shape.2.1 _ _).mp rfl, (ofYaml?_follows_shape.1 _).mp rfl, hdistinct,
    ofYaml?_follows_shape.2.2 _ hdistinct⟩

end Node

end TreePath
