import TreePath.Json.Text

/-!
# Quoted strings are read back

Every character reads back from its written form, whether it is escaped by name, by number or not at
all (`readChars_escapeChar`), and so every string reads back from its quoted form (`readString_quote`).
-/

set_option autoImplicit false

namespace TreePath

namespace Json

/-- Two hexadecimal digits behind two zeros are read as the control character that they stand for. -/
theorem hexUnit?_of_lt : ∀ n < 32, hexUnit? '0' '0' (hexDigit (n / 16)) (hexDigit n) = some n := by
  decide

/-- A control character reads back from its number. -/
theorem readEscape_control {c : Char} (h : c.toNat < 32) (rest : List Char) :
    readEscape ('u' :: '0' :: '0' :: hexDigit (c.toNat / 16) :: hexDigit c.toNat :: rest) =
      some (c, rest) := by
  have hunit := hexUnit?_of_lt c.toNat h
  have hbasic : c.toNat < 0xD800 ∨ 0xE000 ≤ c.toNat := .inl (by omega)
  rw [readEscape, hunit]
  show (if c.toNat < 0xD800 ∨ 0xE000 ≤ c.toNat then _ else _) = _
  rw [if_pos hbasic, Char.ofNat_toNat]
  rfl

/-- An escaped character is read behind its backslash. -/
theorem readChars_escape {c : Char} {input rest : List Char} (fuel : Nat)
    (h : readEscape input = some (c, rest)) :
    readChars (fuel + 1) ('\\' :: input) =
      (readChars fuel rest).map fun (text, rest) => (c :: text, rest) := by
  rw [readChars, if_neg (by decide), if_pos rfl, h]
  simp only [Option.bind_eq_bind, Option.bind_some]
  cases readChars fuel rest <;> rfl

/-- A character that needs no escape is read as it is. -/
theorem readChars_plain {c : Char} (hquote : c ≠ '"') (hbackslash : c ≠ '\\')
    (hcontrol : ¬ c.toNat < 32) (fuel : Nat) (rest : List Char) :
    readChars (fuel + 1) (c :: rest) =
      (readChars fuel rest).map fun (text, rest) => (c :: text, rest) := by
  rw [readChars, if_neg hquote, if_neg hbackslash, if_neg hcontrol]
  cases readChars fuel rest <;> rfl

/-- A character is read back from its written form. -/
theorem readChars_escapeChar (c : Char) (fuel : Nat) (rest : List Char) :
    readChars (fuel + 1) (escapeChar c ++ rest) =
      (readChars fuel rest).map fun (text, rest) => (c :: text, rest) := by
  by_cases hquote : c = '"'
  · subst hquote
    exact readChars_escape fuel rfl
  by_cases hbackslash : c = '\\'
  · subst hbackslash
    exact readChars_escape fuel rfl
  by_cases hnewline : c = '\n'
  · subst hnewline
    exact readChars_escape fuel rfl
  by_cases hreturn : c = '\r'
  · subst hreturn
    exact readChars_escape fuel rfl
  by_cases htab : c = '\t'
  · subst htab
    exact readChars_escape fuel rfl
  by_cases hbackspace : c = '\x08'
  · subst hbackspace
    exact readChars_escape fuel rfl
  by_cases hfeed : c = '\x0c'
  · subst hfeed
    exact readChars_escape fuel rfl
  rw [escapeChar, if_neg hquote, if_neg hbackslash, if_neg hnewline, if_neg hreturn, if_neg htab,
    if_neg hbackspace, if_neg hfeed]
  by_cases hcontrol : c.toNat < 32
  · rw [if_pos hcontrol]
    exact readChars_escape fuel (readEscape_control hcontrol rest)
  · rw [if_neg hcontrol]
    exact readChars_plain hquote hbackslash hcontrol fuel rest

/-- A text is read back up to its closing quote. -/
theorem readChars_escaped (text rest : List Char) {fuel : Nat} (h : text.length < fuel) :
    readChars fuel (text.flatMap escapeChar ++ '"' :: rest) = some (text, rest) := by
  induction text generalizing fuel with
  | nil =>
    cases fuel with
    | zero => cases h
    | succ more => rfl
  | cons c text ih =>
    cases fuel with
    | zero => cases h
    | succ more =>
      have hmore : text.length < more := Nat.lt_of_succ_lt_succ h
      rw [List.flatMap_cons, List.append_assoc, readChars_escapeChar, ih hmore, Option.map_some]

/-- Every character is written as something. -/
theorem escapeChar_ne_nil (c : Char) : escapeChar c ≠ [] := by
  unfold escapeChar
  repeat' split
  all_goals exact List.cons_ne_nil _ _

/-- A text with something written for each of its items is not shorter than the list of items. -/
theorem length_le_length_flatMap {α β : Type} {f : α → List β} (h : ∀ a, f a ≠ [])
    (items : List α) : items.length ≤ (items.flatMap f).length := by
  induction items with
  | nil => exact Nat.le_refl _
  | cons a items ih =>
    have hpos : 0 < (f a).length := List.length_pos_iff.mpr (h a)
    rw [List.flatMap_cons, List.length_append, List.length_cons]
    omega

/-- **Every string reads back from its quoted form.** -/
theorem readString_quote (text : String) (rest : List Char) :
    ∃ written, quote text ++ rest = '"' :: written ∧ readString written = some (text, rest) := by
  refine ⟨text.toList.flatMap escapeChar ++ '"' :: rest, by simp [quote], ?_⟩
  have hlength := length_le_length_flatMap escapeChar_ne_nil text.toList
  have hfuel : text.toList.length < (text.toList.flatMap escapeChar ++ '"' :: rest).length := by
    rw [List.length_append, List.length_cons]
    omega
  rw [readString, readChars_escaped text.toList rest hfuel]
  show some (String.ofList text.toList, rest) = _
  rw [String.ofList_toList]

end Json

end TreePath
