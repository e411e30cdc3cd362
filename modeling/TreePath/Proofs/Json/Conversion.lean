import TreePath.Proofs.Json.RoundTrip

/-!
# Conversion to JSON values

A tree and its JSON value say the same up to what one of them cannot hold.  A tree comes back from its
value with null for each float that is not finite.  A value that can be stored comes back from its tree
when none of its integers is beyond the machine integers (`toJson_ofJson_eq_self_iff`).

The text of a tree on one line is the text of its value (`nodeChars_compact`): the printer of trees
writes a comma in front of each further element, the printer of values one between two elements.
-/

set_option autoImplicit false

namespace TreePath

namespace Json

namespace Value

variable {value : Value} {items : List Value} {members : List (String × Value)} {i : Int}

/-! ## Values that are stored -/

/-- A value as it is stored: an integer has a word of 64 bits, with or without a sign, a float is
finite, and the members of an object have distinct keys. -/
inductive Storable : Value → Prop
  | null : Storable .null
  | boolean (b : Bool) : Storable (.boolean b)
  | integer {i : Int} :
      Int64.minValue.toInt ≤ i → i < UInt64.size → Storable (.number (.integer i))
  | float {x : Binary64} : x.isFinite → Storable (.number (.float x))
  | string (s : String) : Storable (.string s)
  | array {items : List Value} : (∀ item ∈ items, Storable item) → Storable (.array items)
  | object {members : List (String × Value)} :
      Entries.Distinct members → (∀ member ∈ members, Storable member.2) →
      Storable (.object members)

/-- An integer stands somewhere in the value. -/
inductive HasInteger (i : Int) : Value → Prop
  | here : HasInteger i (.number (.integer i))
  | item {item : Value} {items : List Value} :
      item ∈ items → HasInteger i item → HasInteger i (.array items)
  | member {member : String × Value} {members : List (String × Value)} :
      member ∈ members → HasInteger i member.2 → HasInteger i (.object members)

/-- There is no integer in null. -/
@[simp] theorem not_hasInteger_null : ¬ HasInteger i .null := nofun

/-- There is no integer in a truth value. -/
@[simp] theorem not_hasInteger_boolean (b : Bool) : ¬ HasInteger i (.boolean b) := nofun

/-- A float is not an integer. -/
@[simp] theorem not_hasInteger_float (x : Binary64) : ¬ HasInteger i (.number (.float x)) := nofun

/-- There is no integer in a string, whatever its text is. -/
@[simp] theorem not_hasInteger_string (s : String) : ¬ HasInteger i (.string s) := nofun

/-- An integer is the only one in itself. -/
@[simp] theorem hasInteger_integer {j : Int} : HasInteger i (.number (.integer j)) ↔ j = i := by
  constructor
  · rintro ⟨⟩
    rfl
  · rintro rfl
    exact .here

/-- The integers in an array are those in its items. -/
@[simp] theorem hasInteger_array :
    HasInteger i (.array items) ↔ ∃ item ∈ items, HasInteger i item := by
  constructor
  · rintro (_ | ⟨hitem, h⟩)
    exact ⟨_, hitem, h⟩
  · rintro ⟨item, hitem, h⟩
    exact .item hitem h

/-- The integers in an object are those in the values of its members. -/
@[simp] theorem hasInteger_object :
    HasInteger i (.object members) ↔ ∃ member ∈ members, HasInteger i member.2 := by
  constructor
  · rintro (_ | _ | ⟨hmember, h⟩)
    exact ⟨_, hmember, h⟩
  · rintro ⟨member, hmember, h⟩
    exact .member hmember h

end Value

end Json

namespace Node

open Json (Value)

/-- An integer comes back just when it is a machine integer. -/
theorem toJson_ofJson_integer {i : Int} (hlow : Int64.minValue.toInt ≤ i) :
    (ofJson (.number (.integer i))).toJson = .number (.integer i) ↔ i ≤ Int64.maxValue.toInt := by
  rw [ofJson, Numeral.toNumber]
  constructor
  · intro h
    -- An integer without a word becomes a float, whose value is no integer.
    by_contra hhigh
    have hword : word? i = none := if_neg fun hrange => hhigh hrange.2
    rw [hword, Option.map_none, Option.getD_none, toJson] at h
    split at h <;> cases h
  · intro hhigh
    have hword := word?_eq_some hlow hhigh
    rw [hword, Option.map_some, Option.getD_some, toJson, toInt_of_word? hword]

/-- **A stored value comes back from its tree just when none of its integers is too large.** -/
theorem toJson_ofJson_eq_self_iff {value : Value} (hstorable : value.Storable) :
    (ofJson value).toJson = value ↔
      ∀ i, value.HasInteger i → i ≤ Int64.maxValue.toInt := by
  induction hstorable with
  | null => simp [ofJson, null, toJson]
  | boolean b => simp [ofJson, ofBool, toJson]
  | string s => simp [ofJson, ofString, toJson]
  | float hfinite => simp [ofJson, Numeral.toNumber, toJson, hfinite]
  | integer hlow _ => simp [toJson_ofJson_integer hlow]
  | array _ ih =>
    rw [ofJson, toJson, itemsOfJson_eq_map, itemsToJson_eq_map, List.map_map, Value.array.injEq,
      map_eq_self_iff]
    constructor
    · intro h i hi
      obtain ⟨item, hitem, hinteger⟩ := Value.hasInteger_array.mp hi
      exact (ih item hitem).mp (h item hitem) i hinteger
    · intro h item hitem
      exact (ih item hitem).mpr fun i hi => h i (Value.hasInteger_array.mpr ⟨item, hitem, hi⟩)
  | object hdistinct _ ih =>
    rw [ofJson, toJson, entriesOfJson_eq_map, Entries.ofList_of_distinct (hdistinct.map_values _),
      entriesToJson_eq_map, List.map_map, Value.object.injEq, map_eq_self_iff]
    constructor
    · intro h i hi
      obtain ⟨member, hmember, hinteger⟩ := Value.hasInteger_object.mp hi
      exact (ih member hmember).mp (congrArg Prod.snd (h member hmember)) i hinteger
    · intro h member hmember
      refine Prod.ext rfl ((ih member hmember).mpr fun i hi => ?_)
      exact h i (Value.hasInteger_object.mpr ⟨member, hmember, hi⟩)

end Node

namespace Json

/-! ## Texts on one line -/

/-- Other texts of other elements, when they are the same texts. -/
theorem bracketChars_map {α β : Type} {front back : List Char} {closing : Char}
    {text : β → List Char} {other : α → List Char} (f : β → α) {list : List β}
    (h : ∀ b ∈ list, text b = other (f b)) :
    bracketChars front back closing text list =
      bracketChars front back closing other (list.map f) := by
  cases list with
  | nil => rfl
  | cons first others =>
    have hfirst := h first List.mem_cons_self
    have hothers : (others.flatMap fun b => ',' :: (front ++ text b)) =
        (others.map f).flatMap fun a => ',' :: (front ++ other a) := by
      rw [List.flatMap_map]
      exact List.flatMap_congr fun b hb => by rw [h b (List.mem_cons_of_mem _ hb)]
    rw [List.map_cons, bracketChars, bracketChars, hfirst, hothers]

namespace Value

/-- The text of a member. -/
def memberChars (member : String × Value) : List Char := quote member.1 ++ ':' :: member.2.chars

/-- The text of an array in brackets, with a comma in front of each further item: the form in which
the text of a tree is known. -/
theorem chars_array (items : List Value) :
    (array items).chars = '[' :: bracketChars [] [] ']' chars items := by
  have hitems (first : Value) (others : List Value) : itemsChars (first :: others) =
      first.chars ++ others.flatMap fun item => ',' :: item.chars := by
    induction others generalizing first with
    | nil => simp [itemsChars]
    | cons second rest ih => simp [itemsChars, ih]
  cases items with
  | nil => simp [chars, itemsChars, bracketChars]
  | cons first others => simp [chars, hitems, bracketChars]

/-- The text of an object in braces, with a comma in front of each further member. -/
theorem chars_object (members : List (String × Value)) :
    (object members).chars = '{' :: bracketChars [] [] '}' memberChars members := by
  have hmembers (first : String × Value) (others : List (String × Value)) :
      membersChars (first :: others) =
        memberChars first ++ others.flatMap fun member => ',' :: memberChars member := by
    induction others generalizing first with
    | nil => simp [membersChars, memberChars]
    | cons second rest ih => simp [membersChars, memberChars, ih]
  cases members with
  | nil => simp [chars, membersChars, bracketChars]
  | cons first others => simp [chars, hmembers, bracketChars]

end Value

/-- **The text of a tree on one line is the text of its JSON value.** -/
theorem nodeChars_compact (node : Node) (level : Nat) :
    nodeChars .compact level node = node.toJson.chars := by
  induction node using Node.induction_on_values generalizing level with
  | mapping entries ih =>
    rw [nodeChars_mapping, Node.toJson, Value.chars_object, Node.entriesToJson_eq_map]
    refine congrArg _ (bracketChars_map _ fun entry hentry => ?_)
    rw [entryChars, ih entry hentry (level + 1)]
    rfl
  | sequence items ih =>
    rw [nodeChars_sequence, Node.toJson, Value.chars_array, Node.itemsToJson_eq_map]
    exact congrArg _ (bracketChars_map _ fun item hitem => ih item hitem (level + 1))
  | scalar value =>
    cases value with
    | null => rfl
    | boolean b => rfl
    | string s => rfl
    | number n =>
      cases n with
      | integer i => rfl
      | float x =>
        rw [nodeChars, scalarChars, Node.toJson]
        by_cases hfinite : x.isFinite
        · rw [if_pos hfinite, Value.chars, numeralChars]
        · rw [floatChars, if_neg hfinite, if_neg hfinite, Value.chars]

/-! ## What is lost -/

/-- **Trees and JSON values lose only numbers that the other cannot hold.**  A tree comes back with
null for each float that is not finite, and as it is just when there is none.  A stored value comes
back just when no integer in it is too large.  The text of a tree on one line is that of its
value. -/
theorem conversion_loses_only_numbers :
    (∀ node : Node, node.Distinct →
      Node.ofJson node.toJson = node.mapLeaves Scalar.inJson ∧
        (Node.ofJson node.toJson = node ↔ ∀ x, node.Holds (.number (.float x)) → x.isFinite)) ∧
      (∀ value : Value, value.Storable →
        ((Node.ofJson value).toJson = value ↔
          ∀ i, value.HasInteger i → i ≤ Int64.maxValue.toInt)) ∧
      ∀ node : Node, render .compact node = node.toJson.render := by
  refine ⟨fun node hdistinct => ?_, fun value => Node.toJson_ofJson_eq_self_iff, fun node => ?_⟩
  · exact ⟨Node.ofJson_toJson_eq_mapLeaves hdistinct, Node.ofJson_toJson_eq_self_iff hdistinct⟩
  · rw [render, nodeChars_compact, Value.render]

/-- A NaN is lost next to an integer that stays, and an integer is lost that is one too large. -/
theorem conversion_loses_only_numbers_sample :
    (Node.mapping [("x", .ofFloat .nan), ("n", .ofInt64 1)]).Distinct ∧
    Node.ofJson (Node.mapping [("x", .ofFloat .nan), ("n", .ofInt64 1)]).toJson =
      .mapping [("x", .null), ("n", .ofInt64 1)] ∧
    (Value.array [.number (.integer 1), .number (.float .zero)]).Storable ∧
    (Node.ofJson (.array [.number (.integer 1), .number (.float .zero)])).toJson =
      .array [.number (.integer 1), .number (.float .zero)] ∧
    (Value.number (.integer 9223372036854775808)).Storable ∧
    (Node.ofJson (.number (.integer 9223372036854775808))).toJson ≠
      .number (.integer 9223372036854775808) := by
  have hdistinct : (Node.mapping [("x", .ofFloat .nan), ("n", .ofInt64 1)]).Distinct := by
    simp [Node.ofFloat, Node.ofInt64, Entries.Distinct, Entries.keys]
  have hsmall : (Value.array [.number (.integer 1), .number (.float .zero)]).Storable := by
    refine .array ?_
    simp only [List.forall_mem_cons]
    exact ⟨.integer (by decide) (by decide), .float (by decide), by simp⟩
  have hlarge : (Value.number (.integer 9223372036854775808)).Storable :=
    .integer (by decide) (by decide)
  refine ⟨hdistinct, ?_, hsmall, ?_, hlarge, ?_⟩
  · exact (conversion_loses_only_numbers.1 _ hdistinct).1.trans rfl
  · refine (conversion_loses_only_numbers.2.1 _ hsmall).mpr fun i hi => ?_
    have hone : 1 = i := by simpa using hi
    subst hone
    decide
  · intro h
    exact absurd ((conversion_loses_only_numbers.2.1 _ hlarge).mp h _ .here) (by decide)

end Json

end TreePath
