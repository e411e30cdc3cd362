import TreePath.Document
import TreePath.Proofs.Json.Reader
import TreePath.Proofs.Json.Value
import TreePath.Storage.Saving

/-!
# JSON is read back

A tree without floats reads back from its JSON text, in every layout and with its keys in order, as
long as its containers are not nested deeper than the reader goes; a deeper tree is not read at all
(`load_render`).

The reader is followed along the text that the printer makes of a node (`reads_node`), by induction
on the node.  What is read does not depend on the level of the text, and the nesting that the reader
has left decides between success and failure, container by container.

The widths of the indentation are idealised: blanks of any `indentSize` are taken to fit into memory.
A program that prints with blanks beyond its address space, or with more of them than there is memory,
stops before it has a text, as it does for any text of that size.
-/

set_option autoImplicit false

namespace TreePath

namespace Json

variable {d : Nat} {rest : List Char}

/-! ## The reader at the front of a value -/

/-- Blanks in front of a value do not matter. -/
theorem readValue_blanks {blanks : List Char} (h : Blanks blanks) (d : Nat) (input : List Char) :
    readValue d (blanks ++ input) = readValue d input := by
  unfold readValue
  rw [skipBlanks_append h]

/-- The letters of null are read as null. -/
theorem readValue_null : readValue d ('n' :: 'u' :: 'l' :: 'l' :: rest) = some (.null, rest) := by
  rw [readValue]
  rfl

/-- The letters of a truth value are read as it. -/
theorem readValue_boolean (b : Bool) :
    readValue d (boolChars b ++ rest) = some (.boolean b, rest) := by
  cases b <;>
  · rw [readValue]
    rfl

/-- A quote begins a string. -/
theorem readValue_string {text : String} {input : List Char}
    (h : readString input = some (text, rest)) :
    readValue d ('"' :: input) = some (.string text, rest) := by
  rw [readValue, skipBlanks_cons (by decide)]
  simp only [h, Option.map_some]

/-- A digit or a minus begins a number. -/
theorem readValue_number {c : Char} (h : c.isDigit ∨ c = '-') :
    readValue d (c :: rest) =
      (readNumber (c :: rest)).map fun (number, rest) => (.number number, rest) := by
  have hblank : ¬ isBlank c := by
    intro hblank
    rcases isBlank_iff.mp hblank with rfl | rfl | rfl | rfl <;> exact absurd h (by decide)
  rw [readValue, skipBlanks_cons hblank]
  -- No digit and no minus begins a value of another kind.
  split
  case h_7 => rfl
  all_goals
    next heq =>
      cases heq
      exact absurd h (by decide)

/-- A bracket begins an array, one level further down, as long as a level is left. -/
theorem readValue_bracket :
    readValue d ('[' :: rest) =
      match d with
      | 0 => none
      | d + 1 => (readBracket (readValue d) ']' rest).map fun (items, rest) => (.array items, rest) := by
  rw [readValue, skipBlanks_cons (by decide)]
  rfl

/-- A brace begins an object, one level further down, as long as a level is left. -/
theorem readValue_brace :
    readValue d ('{' :: rest) =
      match d with
      | 0 => none
      | d + 1 => (readBracket (readMember (readValue d)) '}' rest).map fun (members, rest) =>
          (.object members, rest) := by
  rw [readValue, skipBlanks_cons (by decide)]
  rfl

/-! ## Members -/

/-- A line break with the blanks of its level is blank. -/
theorem blanks_lineBreak (style : Style) (level : Nat) : Blanks (style.lineBreak level) := by
  cases style with
  | compact => exact blanks_nil
  | indented width =>
    intro c hc
    rw [Style.lineBreak, List.mem_cons, List.mem_replicate] at hc
    rcases hc with rfl | ⟨-, rfl⟩ <;> rfl

/-- The text of an entry. -/
def entryChars (style : Style) (level : Nat) (entry : String × Node) : List Char :=
  quote entry.1 ++ (style.colon ++ nodeChars style level entry.2)

/-- Behind a key and a colon a member reads what the reader of values reads. -/
theorem reads_member {α : Type} {reader : Reader α} {text : List Char} {outcome : Option α}
    (h : Reads reader text outcome) (style : Style) (key : String) :
    Reads (readMember reader) (quote key ++ (style.colon ++ text))
      (outcome.map fun value => (key, value)) := by
  intro blanks rest hblanks hrest
  obtain ⟨written, hquote, hread⟩ := readString_quote key (style.colon ++ text ++ rest)
  have hcolon : ∃ gap, Blanks gap ∧ style.colon = ':' :: gap := by
    cases style with
    | compact => exact ⟨[], blanks_nil, rfl⟩
    | indented width => exact ⟨[' '], by simp [Blanks, isBlank], rfl⟩
  obtain ⟨gap, hgap, hcolon⟩ := hcolon
  have hskip : skipBlanks (style.colon ++ text ++ rest) = ':' :: (gap ++ (text ++ rest)) := by
    rw [hcolon, List.append_assoc, List.cons_append]
    exact skipBlanks_cons (by decide) _
  rw [readMember, skipBlanks_append hblanks, List.append_assoc, hquote, skipBlanks_cons (by decide)]
  simp only [hread, hskip, h gap rest hgap hrest, Option.bind_eq_bind, Option.bind_some]
  cases outcome <;> rfl

/-! ## Leaves -/

/-- A leaf without a float is read at any depth. -/
theorem reads_scalar {value : Scalar} (hfloat : (Node.scalar value).FloatFree) (d : Nat) :
    Reads (readValue d) (scalarChars value) (some (Node.scalar value).toJson) := by
  intro blanks rest hblanks hrest
  rw [readValue_blanks hblanks]
  cases value with
  | null => exact readValue_null
  | boolean b => exact readValue_boolean b
  | string s =>
    obtain ⟨written, hquote, hread⟩ := readString_quote s rest
    rw [scalarChars, hquote]
    exact readValue_string hread
  | number n =>
    cases n with
    | float x => exact absurd rfl ((Node.floatFree_scalar _).mp hfloat x)
    | integer i =>
      have hnumber := readNumber_integerChars i hrest
      obtain ⟨c, more, hchars, hfirst⟩ := Decimal.integerChars_eq_cons i.toInt
      rw [scalarChars, hchars, List.cons_append, readValue_number hfirst, ← List.cons_append,
        ← hchars, hnumber]
      rfl

/-! ## Containers -/

variable {style : Style} {level : Nat} {entries : List (String × Node)} {items : List Node}

/-- The text of a sequence in brackets, in the form in which the reader of elements is followed. -/
theorem nodeChars_sequence :
    nodeChars style level (.sequence items) =
      '[' :: bracketChars (style.lineBreak (level + 1)) (style.lineBreak level) ']'
        (nodeChars style (level + 1)) items := by
  have hitems : ∀ (level : Nat) (items : List Node), itemsChars style level items =
      items.flatMap fun item => ',' :: (style.lineBreak level ++ nodeChars style level item) := by
    intro level items
    induction items with
    | nil => rfl
    | cons item rest ih =>
      simp only [itemsChars, ih, List.flatMap_cons, List.cons_append, List.append_assoc]
  cases items with
  | nil => rfl
  | cons first others =>
    simp only [nodeChars, bracketChars, hitems, List.cons_append, List.append_assoc]

/-- The text of a mapping in braces, in the form in which the reader of elements is followed. -/
theorem nodeChars_mapping :
    nodeChars style level (.mapping entries) =
      '{' :: bracketChars (style.lineBreak (level + 1)) (style.lineBreak level) '}'
        (entryChars style (level + 1)) entries := by
  have hentries : ∀ (level : Nat) (entries : List (String × Node)),
      entriesChars style level entries =
        entries.flatMap fun entry =>
          ',' :: (style.lineBreak level ++ entryChars style level entry) := by
    intro level entries
    induction entries with
    | nil => rfl
    | cons entry rest ih =>
      simp only [entriesChars, ih, List.flatMap_cons, entryChars, List.cons_append,
        List.append_assoc]
  cases entries with
  | nil => rfl
  | cons first others =>
    simp only [nodeChars, bracketChars, hentries, entryChars, List.cons_append, List.append_assoc]

/-- An entry begins with the quote of its key, which does not close the object. -/
theorem begins_entry (entry : String × Node) : Begins '}' (entryChars style level entry) :=
  ⟨'"', _, rfl, by decide, by decide⟩

/-- The text of a node does not begin with a blank or a closing bracket. -/
theorem begins_node {node : Node} (hfloat : node.FloatFree) :
    Begins ']' (nodeChars style level node) := by
  cases node with
  | mapping entries => cases entries <;> exact ⟨'{', _, rfl, by decide, by decide⟩
  | sequence items => cases items <;> exact ⟨'[', _, rfl, by decide, by decide⟩
  | scalar value =>
    rw [nodeChars]
    cases value with
    | null => exact ⟨'n', _, rfl, by decide, by decide⟩
    | boolean b =>
      cases b
      · exact ⟨'f', _, rfl, by decide, by decide⟩
      · exact ⟨'t', _, rfl, by decide, by decide⟩
    | string s => exact ⟨'"', _, rfl, by decide, by decide⟩
    | number n =>
      cases n with
      | float x => exact absurd rfl ((Node.floatFree_scalar _).mp hfloat x)
      | integer i =>
        obtain ⟨c, more, hchars, hfirst⟩ := Decimal.integerChars_eq_cons i.toInt
        refine ⟨c, more, hchars, ?_, ?_⟩
        · intro hblank
          rcases isBlank_iff.mp hblank with rfl | rfl | rfl | rfl <;> exact absurd hfirst (by decide)
        · rintro rfl
          exact absurd hfirst (by decide)

/-- What is read from the text of a node: its value, when the nesting that is left suffices. -/
def readOutcome (d : Nat) (node : Node) : Option Value :=
  if node.depth ≤ d then some node.toJson else none

/-- The items of a sequence are read when they are nested within the levels that are left. -/
theorem mapM_readOutcome_items :
    items.mapM (readOutcome d) =
      if Node.depthOfItems items ≤ d then some (Node.itemsToJson items) else none := by
  induction items with
  | nil => simp [Node.depthOfItems, Node.itemsToJson]
  | cons item rest ih =>
    rw [List.mapM_cons, ih, readOutcome, Node.depthOfItems, Node.itemsToJson]
    simp only [Nat.max_le]
    by_cases hitem : item.depth ≤ d
    · by_cases hrest : Node.depthOfItems rest ≤ d <;> simp [hitem, hrest]
    · simp [hitem]

/-- The entries of a mapping are read when their values are nested within the levels that are left. -/
theorem mapM_readOutcome_entries :
    (entries.mapM fun entry => (readOutcome d entry.2).map fun value => (entry.1, value)) =
      if Node.depthOfEntries entries ≤ d then some (Node.entriesToJson entries) else none := by
  induction entries with
  | nil => simp [Node.depthOfEntries, Node.entriesToJson]
  | cons entry rest ih =>
    obtain ⟨key, value⟩ := entry
    rw [List.mapM_cons, ih, readOutcome, Node.depthOfEntries, Node.entriesToJson]
    simp only [Nat.max_le]
    by_cases hvalue : value.depth ≤ d
    · by_cases hrest : Node.depthOfEntries rest ≤ d <;> simp [hvalue, hrest]
    · simp [hvalue]

/-- When its items are read, a sequence is read at one level of nesting more. -/
theorem reads_sequence
    (hitems : ∀ item ∈ items, ∀ level d,
      Reads (readValue d) (nodeChars style level item) (readOutcome d item))
    (hfloat : ∀ item ∈ items, item.FloatFree) (level d : Nat) :
    Reads (readValue d) (nodeChars style level (.sequence items))
      (readOutcome d (.sequence items)) := by
  intro blanks rest hblanks hrest
  rw [readValue_blanks hblanks, nodeChars_sequence, List.cons_append, readValue_bracket,
    readOutcome, Node.depth, Node.toJson]
  cases d with
  | zero => rfl
  | succ d =>
    have hread := readBracket_texts (.inl rfl) (blanks_lineBreak style (level + 1))
      (blanks_lineBreak style level) (fun item hitem => hitems item hitem (level + 1) d)
      (fun item hitem => begins_node (hfloat item hitem)) rest
    simp only [hread, Nat.add_le_add_iff_right]
    rw [mapM_readOutcome_items]
    split <;> rfl

/-- When its values are read, a mapping is read at one level of nesting more. -/
theorem reads_mapping
    (hvalues : ∀ entry ∈ entries, ∀ level d,
      Reads (readValue d) (nodeChars style level entry.2) (readOutcome d entry.2))
    (level d : Nat) :
    Reads (readValue d) (nodeChars style level (.mapping entries))
      (readOutcome d (.mapping entries)) := by
  intro blanks rest hblanks hrest
  rw [readValue_blanks hblanks, nodeChars_mapping, List.cons_append, readValue_brace,
    readOutcome, Node.depth, Node.toJson]
  cases d with
  | zero => rfl
  | succ d =>
    have hmember : ∀ entry ∈ entries, Reads (readMember (readValue d))
        (entryChars style (level + 1) entry)
        ((readOutcome d entry.2).map fun value => (entry.1, value)) := by
      intro entry hentry
      exact reads_member (hvalues entry hentry (level + 1) d) style entry.1
    have hread := readBracket_texts (.inr rfl) (blanks_lineBreak style (level + 1))
      (blanks_lineBreak style level) hmember (fun entry _ => begins_entry entry) rest
    simp only [hread, Nat.add_le_add_iff_right]
    rw [mapM_readOutcome_entries]
    split <;> rfl

/-- **What a node is printed to is read as its value, where the nesting that is left suffices.** -/
theorem reads_node {node : Node} (hfloat : node.FloatFree) (style : Style) (level d : Nat) :
    Reads (readValue d) (nodeChars style level node) (readOutcome d node) := by
  induction node using Node.induction_on_values generalizing level d with
  | mapping entries ih =>
    apply reads_mapping
    intro entry hentry
    exact ih entry hentry (Node.floatFree_mapping.mp hfloat entry hentry)
  | sequence items ih =>
    have hitems := Node.floatFree_sequence.mp hfloat
    apply reads_sequence
    · intro item hitem
      exact ih item hitem (hitems item hitem)
    · exact hitems
  | scalar value =>
    rw [readOutcome, if_pos (by rw [Node.depth_scalar]; exact Nat.zero_le d)]
    exact reads_scalar hfloat d

/-! ## Documents -/

/-- The text of a tree, with or without a line break at its end, is read as the value of the tree
when its containers are not nested too deep. -/
theorem read?_nodeChars {node : Node} (hfloat : node.FloatFree) (style : Style) {tail : List Char}
    (htail : tail = [] ∨ tail = ['\n']) :
    read? (String.ofList (nodeChars style 0 node ++ tail)) = readOutcome nestingLimit node := by
  have hends : EndsNumber tail := by
    rcases htail with rfl | rfl
    · exact endsNumber_nil
    · exact endsNumber_cons.mpr (by decide)
  have hread := reads_node hfloat style 0 nestingLimit [] tail blanks_nil hends
  have hskip : skipBlanks tail = [] := by rcases htail with rfl | rfl <;> rfl
  rw [List.nil_append] at hread
  rw [read?, String.toList_ofList, hread]
  cases readOutcome nestingLimit node with
  | none => rfl
  | some value =>
    simp only [Option.map_some, Option.bind_eq_bind, Option.bind_some, hskip]
    rfl

end Json

namespace Format

/-- The text of a tree, with or without a line break at its end, loads as the tree itself when its
containers are not nested too deep. -/
theorem load_nodeChars {node : Node} (hdistinct : node.Distinct) (hfloat : node.FloatFree)
    (style : Json.Style) (tail : List Char) (htail : tail = [] ∨ tail = ['\n']) :
    load .json (String.ofList (Json.nodeChars style 0 node ++ tail)) =
      if node.depth ≤ 127 then .ok node else .error .json := by
  rw [load, Json.read?_nodeChars hfloat style htail, Json.readOutcome, Json.nestingLimit]
  by_cases hdepth : node.depth ≤ 127
  · rw [if_pos hdepth, if_pos hdepth]
    exact congrArg Except.ok (Node.ofJson_toJson hdistinct hfloat)
  · rw [if_neg hdepth, if_neg hdepth]

/-- The text that is saved loads as the text that is printed. -/
theorem load_endLine (config : Config) {node : Node} (hdistinct : node.Distinct)
    (hfloat : node.FloatFree) :
    load .json (endLine (render .json config node)) =
      if node.depth ≤ 127 then .ok node else .error .json := by
  rw [endLine]
  split
  next =>
    have hprinted := load_nodeChars hdistinct hfloat config.style [] (.inl rfl)
    rw [List.append_nil] at hprinted
    exact hprinted
  next =>
    have hended := load_nodeChars hdistinct hfloat config.style ['\n'] (.inr rfl)
    rw [String.ofList_append] at hended
    exact hended

/-- **JSON reads back what it writes, up to the nesting that is read.**  Under all settings the text
of a tree without floats, as it is printed and as it is saved, loads as the tree itself, its keys in
their order, when its containers are nested at most 127 deep.  The text of a deeper tree does not
load.  The settings may ask for any indentation, also one whose blanks no memory could hold. -/
theorem load_render (config : Config) {node : Node} (hdistinct : node.Distinct)
    (hfloat : node.FloatFree) :
    (node.depth ≤ 127 →
      load .json (render .json config node) = .ok node ∧
        load .json (endLine (render .json config node)) = .ok node) ∧
      (128 ≤ node.depth →
        load .json (render .json config node) = .error .json ∧
          load .json (endLine (render .json config node)) = .error .json) := by
  have hprinted := load_nodeChars hdistinct hfloat config.style [] (.inl rfl)
  rw [List.append_nil] at hprinted
  have hsaved := load_endLine config hdistinct hfloat
  constructor
  · intro hdepth
    rw [if_pos hdepth] at hprinted hsaved
    exact ⟨hprinted, hsaved⟩
  · intro hdepth
    rw [if_neg (by omega)] at hprinted hsaved
    exact ⟨hprinted, hsaved⟩

/-- A tree of two levels reads back, and the 128th bracket is one too many. -/
theorem load_render_sample :
    (Node.sample.Distinct ∧ Node.sample.FloatFree ∧
      load .json (endLine (render .json { indentSize := 4 } Node.sample)) = .ok Node.sample) ∧
      load .json (render .json { pretty := false } (Node.nested 127)) = .ok (Node.nested 127) ∧
      load .json (render .json { pretty := false } (Node.nested 128)) = .error .json := by
  have hfloat : Node.sample.FloatFree := by simp [Node.sample, Node.ofInt64, Node.ofBool]
  have hdistinct : Node.sample.Distinct := Node.sample_wellFormed.distinct
  have hsample := (load_render { indentSize := 4 } hdistinct hfloat).1 (by decide)
  have hshallow := (load_render { pretty := false } (Node.nested_distinct 127)
    (Node.nested_floatFree 127)).1 (Nat.le_of_eq (Node.depth_nested 127))
  have hdeep := (load_render { pretty := false } (Node.nested_distinct 128)
    (Node.nested_floatFree 128)).2 (Nat.le_of_eq (Node.depth_nested 128).symm)
  exact ⟨⟨hdistinct, hfloat, hsample.2⟩, hshallow.1, hdeep.1⟩

end Format

end TreePath
