import TreePath.Proofs.Decimal.Integer
import TreePath.Proofs.Entries
import TreePath.Toml.Reader

/-!
# Reading lines of names and values

A settings text that consists of lines `name = value` is read as the table of these entries, in the
order of the lines (`read?_lines`).  The names are bare keys, no two of them the same, and each value
ends where its line ends (`ReadsAs`), which is true of the switches and of the decimal digits of a
natural number.

Digits are tried as a date, then as a float, and at last as an integer.  The end of the line settles
it: a date goes on with a minus or a colon, a float with a point or an exponent.
-/

set_option autoImplicit false

namespace TreePath

namespace Toml

open Decimal (digitChars)

variable {rest : List Char}

/-- A character of a kind is not one that is not of the kind. -/
theorem ne_of_kind {isOfKind : Char → Bool} {c d : Char} (hc : isOfKind c) (hd : ¬ isOfKind d) :
    c ≠ d := by
  rintro rfl
  exact hd hc

/-- No blank is a character of bare keys. -/
theorem skipBlanks_bareKeyChar {c : Char} (hc : isBareKeyChar c) (rest : List Char) :
    skipBlanks (c :: rest) = c :: rest := by
  have hspace : c ≠ ' ' := ne_of_kind hc (by decide)
  have htab : c ≠ '\t' := ne_of_kind hc (by decide)
  exact List.dropWhile_cons_of_neg (by simp [isBlank, hspace, htab])

/-! ## Digits up to the end of a line -/

section Digits

variable {digits more : List Char} {c : Char} {size least greatest value : Nat}

/-- Digits in front of a line break are read as one run. -/
theorem readDigitRun_digits (hdigits : ∀ c ∈ digits, c.isDigit) :
    readDigitRun Char.isDigit (digits ++ '\n' :: rest) = (digits, '\n' :: rest) := by
  induction digits with
  | nil => rfl
  | cons c more ih =>
    have hc : c.isDigit := hdigits c List.mem_cons_self
    have hunderscore : c ≠ '_' := ne_of_kind hc (by decide)
    rw [List.cons_append, readDigitRun, if_pos hc, ih fun d hd => hdigits d (List.mem_cons_of_mem _ hd)]
    simp [hunderscore]

/-- A digit is no sign. -/
theorem readSign_digit (hc : c.isDigit) : readSign (c :: rest) = ([], c :: rest) := by
  have hplus : c ≠ '+' := ne_of_kind hc (by decide)
  have hminus : c ≠ '-' := ne_of_kind hc (by decide)
  rw [readSign] <;> simp [hplus, hminus]

/-- The digits of a number are read up to the line break. -/
theorem readDecimalChars_digitChars (n : Nat) :
    readDecimalChars (digitChars n ++ '\n' :: rest) = some (digitChars n, '\n' :: rest) := by
  by_cases hn : n = 0
  · subst hn
    rfl
  · obtain ⟨c, digits, hdigits, hc⟩ := Decimal.digitChars_eq_cons n
    have hzero : c ≠ '0' := by
      rintro rfl
      exact Decimal.head?_digitChars (Nat.pos_of_ne_zero hn) (by rw [hdigits, List.head?_cons])
    have hmore : ∀ d ∈ digits, d.isDigit := fun d hd =>
      Decimal.isDigit_of_mem_digitChars (hdigits ▸ List.mem_cons_of_mem c hd)
    rw [hdigits, List.cons_append, readDecimalChars, readSign_digit hc]
    simp [readDigitChars, hzero, hc, readDigitRun_digits hmore]

/-- As many digits as are read from the front of a line are digits of it. -/
theorem eq_drop_of_readDigits
    (h : readDigits size least greatest (digits ++ '\n' :: rest) = some (value, more)) :
    more = digits.drop size ++ '\n' :: rest := by
  simp only [readDigits] at h
  split at h
  next hread =>
    simp only [Bool.and_eq_true, decide_eq_true_eq] at hread
    obtain ⟨⟨⟨-, hall⟩, -⟩, -⟩ := hread
    cases h
    -- More characters than digits would include the end of the line.
    have hle : size ≤ digits.length := by
      by_contra hlt
      obtain ⟨k, hk⟩ := Nat.exists_eq_add_of_lt (Nat.lt_of_not_le hlt)
      have hmem : '\n' ∈ (digits ++ '\n' :: rest).take size := by
        simp [hk, List.take_append, Nat.add_assoc]
      exact absurd (List.all_eq_true.mp hall _ hmem) (by decide)
    exact List.drop_append_of_le_length hle
  next => cases h

/-- Behind digits that are read from the front of a line there is a digit or the end of the line. -/
theorem skipChar?_of_readDigits (hdigits : ∀ c ∈ digits, c.isDigit)
    (h : readDigits size least greatest (digits ++ '\n' :: rest) = some (value, more))
    (hc : ¬ c.isDigit) (hbreak : c ≠ '\n') : skipChar? c more = none := by
  rw [eq_drop_of_readDigits h]
  cases hdrop : digits.drop size with
  | nil => exact if_neg hbreak.symm
  | cons d tail =>
    have hmem : d ∈ digits.drop size := hdrop ▸ List.mem_cons_self
    exact if_neg (ne_of_kind (hdigits d (List.mem_of_mem_drop hmem)) hc)

/-- Digits up to the end of a line are neither a date nor a time. -/
theorem readMoment_digits (hdigits : ∀ c ∈ digits, c.isDigit) :
    readMoment (digits ++ '\n' :: rest) = none := by
  have hdate : skipDate? (digits ++ '\n' :: rest) = none := by
    unfold skipDate?
    cases hyear : readDigits 4 0 9999 (digits ++ '\n' :: rest) with
    | none => rfl
    | some result => simp [skipChar?_of_readDigits hdigits hyear]
  have htime : skipTime? (digits ++ '\n' :: rest) = none := by
    unfold skipTime?
    cases hhour : readDigits 2 0 23 (digits ++ '\n' :: rest) with
    | none => rfl
    | some result => simp [skipChar?_of_readDigits hdigits hhour]
  rw [readMoment, skipMoment?, hdate, htime]
  rfl

/-- What begins with a digit is none of the floats that are named. -/
theorem readNamedFloat_digit (hc : c.isDigit) : readNamedFloat (c :: rest) = none := by
  rw [readNamedFloat, readSign_digit hc]
  have hi : c ≠ 'i' := ne_of_kind hc (by decide)
  have hn : c ≠ 'n' := ne_of_kind hc (by decide)
  simp [hi, hn]

/-- The digits of a number are no float, as neither a point nor an exponent follows. -/
theorem readFloat_digitChars (n : Nat) : readFloat (digitChars n ++ '\n' :: rest) = none := by
  have hdecimal : readDecimalFloat (digitChars n ++ '\n' :: rest) = none := by
    rw [readDecimalFloat, readDecimalChars_digitChars]
    rfl
  obtain ⟨c, digits, hdigits, hc⟩ := Decimal.digitChars_eq_cons n
  rw [readFloat, hdecimal, hdigits, List.cons_append, readNamedFloat_digit hc]

/-- Digits up to the end of a line are an integer, when it is a machine integer. -/
theorem readInteger_digitChars {n : Nat} {i : Int64} (h : i.toInt = n) :
    readInteger (digitChars n ++ '\n' :: rest) = some (i, '\n' :: rest) := by
  have hword : Decimal.readInt64 (digitChars n) = some i := by
    rw [Decimal.readInt64, Decimal.readInteger_digitChars, Option.bind_some, ← h, word?_toInt]
  -- Behind the first digit there is no mark of a radix.
  have hmark (mark : Char) (more : List Char) (hdigit : ¬ mark.isDigit) (hbreak : mark ≠ '\n') :
      digitChars n ++ '\n' :: rest ≠ '0' :: mark :: more := by
    obtain ⟨c, digits, hdigits, -⟩ := Decimal.digitChars_eq_cons n
    intro heq
    rw [hdigits, List.cons_append, List.cons.injEq] at heq
    cases digits with
    | nil =>
      cases heq.2
      exact hbreak rfl
    | cons d tail =>
      cases heq.2
      have hmem : mark ∈ digitChars n := hdigits ▸ List.mem_cons_of_mem c List.mem_cons_self
      exact hdigit (Decimal.isDigit_of_mem_digitChars hmem)
  rw [readInteger, readDecimalChars_digitChars]
  · show (Decimal.readInt64 (digitChars n)).bind _ = _
    rw [hword]
    rfl
  · exact fun more => hmark 'x' more (by decide) (by decide)
  · exact fun more => hmark 'o' more (by decide) (by decide)
  · exact fun more => hmark 'b' more (by decide) (by decide)

/-- Digits up to the end of a line are the integer that they stand for. -/
theorem readNumeric_digitChars {n : Nat} {i : Int64} (h : i.toInt = n) :
    readNumeric (digitChars n ++ '\n' :: rest) = some (.integer i, '\n' :: rest) := by
  rw [readNumeric, readMoment_digits fun c => Decimal.isDigit_of_mem_digitChars]
  simp only [readFloat_digitChars, readInteger_digitChars h, Option.map_some]

/-- A value that begins with a digit is read as a number or a moment. -/
theorem readValue_digit (depth : Nat) (hc : c.isDigit) :
    readValue depth (c :: rest) = readNumeric (c :: rest) := by
  rw [readValue]
  -- The other values begin with a character that is no digit.
  all_goals
    intro more heq
    cases heq
    exact absurd hc (by decide)

end Digits

/-! ## Lines -/

/-- Behind blanks, the text is read as the value up to the end of its line. -/
def ReadsAs (text : List Char) (value : Value) : Prop :=
  ∀ rest, readValue (depthLimit - 1) (skipBlanks (text ++ '\n' :: rest)) = some (value, '\n' :: rest)

/-- The digits of an integer are read as it. -/
theorem readsAs_digitChars {n : Nat} {i : Int64} (h : i.toInt = n) :
    ReadsAs (digitChars n) (.integer i) := by
  intro rest
  obtain ⟨c, digits, hdigits, hc⟩ := Decimal.digitChars_eq_cons n
  have hbare : isBareKeyChar c := by
    simp [isBareKeyChar, Char.isAlphanum, hc]
  have hread : readNumeric (digitChars n ++ '\n' :: rest) = some (.integer i, '\n' :: rest) :=
    readNumeric_digitChars h
  rw [hdigits, List.cons_append] at hread ⊢
  rw [skipBlanks_bareKeyChar hbare, readValue_digit _ hc, hread]

/-- The name is a bare key. -/
def IsBare (name : String) : Prop := name.toList ≠ [] ∧ ∀ c ∈ name.toList, isBareKeyChar c

/-- The line of a name and of the text of its value. -/
def lineChars (name : String) (text : List Char) : List Char :=
  name.toList ++ ' ' :: '=' :: ' ' :: text ++ ['\n']

section Line

variable {name : String} {text : List Char} {value : Value}

/-- A line in front of a text, written out from left to right. -/
theorem lineChars_append (rest : List Char) :
    lineChars name text ++ rest = name.toList ++ ' ' :: '=' :: ' ' :: (text ++ '\n' :: rest) := by
  simp [lineChars]

/-- A bare name has a first character, which can stand in a bare key. -/
theorem IsBare.exists_eq_cons (hname : IsBare name) (rest : List Char) :
    ∃ c more, name.toList ++ rest = c :: more ∧ isBareKeyChar c := by
  obtain ⟨c, chars, hchars⟩ := List.exists_cons_of_ne_nil hname.1
  refine ⟨c, chars ++ rest, by rw [hchars, List.cons_append], ?_⟩
  exact hname.2 c (hchars ▸ List.mem_cons_self)

/-- A bare name has no blanks in front. -/
theorem skipBlanks_bare (hname : IsBare name) (rest : List Char) :
    skipBlanks (name.toList ++ rest) = name.toList ++ rest := by
  obtain ⟨c, more, heq, hc⟩ := hname.exists_eq_cons rest
  rw [heq, skipBlanks_bareKeyChar hc]

/-- A bare name is read as a key up to the blank behind it. -/
theorem readSimpleKey_bare (hname : IsBare name) (rest : List Char) :
    readSimpleKey (name.toList ++ ' ' :: rest) = some (name, ' ' :: rest) := by
  obtain ⟨c, more, heq, hc⟩ := hname.exists_eq_cons (' ' :: rest)
  have htake : (name.toList ++ ' ' :: rest).takeWhile isBareKeyChar = name.toList := by
    rw [List.takeWhile_append_of_pos hname.2, List.takeWhile_cons_of_neg (by decide),
      List.append_nil]
  have hdrop : (name.toList ++ ' ' :: rest).dropWhile isBareKeyChar = ' ' :: rest := by
    rw [List.dropWhile_append_of_pos hname.2, List.dropWhile_cons_of_neg (by decide)]
  have hempty : name.toList.isEmpty = false := by simpa using hname.1
  rw [readSimpleKey]
  · simp only [htake, hdrop, hempty, String.ofList_toList]
    rfl
  -- A bare key does not begin with a quote.
  all_goals
    intro other hquote
    rw [heq] at hquote
    cases hquote
    exact absurd hc (by decide)

/-- A bare name in front of an equals sign is read as a key of one part. -/
theorem readKey_bare (hname : IsBare name) (rest : List Char) :
    readKey (name.toList ++ ' ' :: '=' :: rest) = some ([name], '=' :: rest) := by
  have hkeys : readKeys ((name.toList ++ ' ' :: '=' :: rest).length + 1)
      (name.toList ++ ' ' :: '=' :: rest) = some ([name], '=' :: rest) := by
    rw [readKeys, skipBlanks_bare hname, readSimpleKey_bare hname]
    rfl
  rw [readKey, hkeys]
  rfl

/-- A line is read as the entry of its name and its value, up to the line break. -/
theorem readEntry_line (hname : IsBare name) (hvalue : ReadsAs text value) (rest : List Char) :
    readEntry (readValue (depthLimit - 1)) (lineChars name text ++ rest) =
      some (([name], value), '\n' :: rest) := by
  have hskip : skipBlanks (' ' :: (text ++ '\n' :: rest)) = skipBlanks (text ++ '\n' :: rest) :=
    List.dropWhile_cons_of_pos (by decide)
  rw [lineChars_append, readEntry, readKey_bare hname]
  show (readValue (depthLimit - 1) (skipBlanks _)).bind _ = _
  rw [hskip, hvalue]
  rfl

/-- A line with its break is read as one statement. -/
theorem readStatement_line (hname : IsBare name) (hvalue : ReadsAs text value) (rest : List Char) :
    readStatement (lineChars name text ++ rest) = some (.entry [name] value, rest) := by
  rw [readStatement, readEntry_line hname hvalue]
  · rfl
  -- A line with a bare key does not begin with a bracket.
  all_goals
    intro other hbracket
    obtain ⟨c, more, heq, hc⟩ := hname.exists_eq_cons (' ' :: '=' :: ' ' :: (text ++ '\n' :: rest))
    rw [lineChars_append, heq] at hbracket
    cases hbracket
    exact absurd hc (by decide)

end Line

/-! ## Texts of lines -/

section Text

variable {α : Type} {name : α → String} {text : α → List Char} {value : α → Value} {list : List α}

/-- The characters of a line for each element. -/
def linesChars (name : α → String) (text : α → List Char) (list : List α) : List Char :=
  list.flatMap fun a => lineChars (name a) (text a)

/-- The lines of a list are the line of its first element and those of the others. -/
theorem linesChars_cons (a : α) (rest : List α) :
    linesChars name text (a :: rest) = lineChars (name a) (text a) ++ linesChars name text rest := by
  rw [linesChars, List.flatMap_cons, linesChars]

/-- Lines begin with the first character of a bare key. -/
theorem exists_linesChars_eq_cons (text : α → List Char) {a : α} (hname : IsBare (name a))
    (rest : List α) :
    ∃ c more, linesChars name text (a :: rest) = c :: more ∧ isBareKeyChar c := by
  rw [linesChars_cons, lineChars_append]
  exact hname.exists_eq_cons _

/-- There are at least as many characters as lines, so the length of the text is fuel enough. -/
theorem length_le_linesChars (name : α → String) (text : α → List Char) (list : List α) :
    list.length ≤ (linesChars name text list).length := by
  induction list with
  | nil => exact Nat.le_refl 0
  | cons a rest ih =>
    rw [linesChars_cons, lineChars]
    simp only [List.length_append, List.length_cons, List.length_nil]
    omega

/-- A line that begins with a name has no gap in front. -/
theorem skipAllGaps_bareKeyChar {c : Char} {more : List Char} (hc : isBareKeyChar c) :
    skipAllGaps (c :: more) = c :: more := by
  have hcomment : c ≠ '#' := ne_of_kind hc (by decide)
  have hfeed : c ≠ '\n' := ne_of_kind hc (by decide)
  have hreturn : c ≠ '\r' := ne_of_kind hc (by decide)
  simp [skipAllGaps, skipGaps, skipBlanks_bareKeyChar hc, skipComment, skipBreak?, hcomment, hfeed,
    hreturn]

/-- Lines are read as one entry each, in their order, by a reader with fuel for all of them. -/
theorem readStatements_lines {fuel : Nat} (hnames : ∀ a ∈ list, IsBare (name a))
    (hvalues : ∀ a ∈ list, ReadsAs (text a) (value a)) (hfuel : list.length < fuel) :
    readStatements fuel (linesChars name text list) =
      some (list.map fun a => .entry [name a] (value a)) := by
  induction list generalizing fuel with
  | nil =>
    cases fuel with
    | zero => cases hfuel
    | succ fuel => rfl
  | cons a rest ih =>
    cases fuel with
    | zero => cases hfuel
    | succ fuel =>
      have hname := hnames a List.mem_cons_self
      have hrest := ih (fun b hb => hnames b (List.mem_cons_of_mem _ hb))
        (fun b hb => hvalues b (List.mem_cons_of_mem _ hb)) (Nat.lt_of_succ_lt_succ hfuel)
      have hstatement := readStatement_line hname (hvalues a List.mem_cons_self)
        (linesChars name text rest)
      obtain ⟨c, more, heq, hc⟩ := exists_linesChars_eq_cons text hname rest
      rw [← linesChars_cons, heq] at hstatement
      rw [readStatements, heq, skipAllGaps_bareKeyChar hc]
      simp only [hstatement, Option.bind_eq_bind, Option.bind_some, hrest, List.map_cons]
      rfl

/-- A text of such lines is read as one entry each, in their order. -/
theorem statements?_lines (hnames : ∀ a ∈ list, IsBare (name a))
    (hvalues : ∀ a ∈ list, ReadsAs (text a) (value a)) :
    statements? (String.ofList (linesChars name text list)) =
      some (list.map fun a => .entry [name a] (value a)) := by
  have hmark : (linesChars name text list).head? ≠ some '\ufeff' := by
    cases list with
    | nil => simp [linesChars]
    | cons a rest =>
      obtain ⟨c, more, heq, hc⟩ :=
        exists_linesChars_eq_cons text (hnames a List.mem_cons_self) rest
      rw [heq, List.head?_cons, Ne, Option.some.injEq]
      exact ne_of_kind hc (by decide)
  have hfuel := Nat.lt_succ_of_le (length_le_linesChars name text list)
  rw [statements?]
  simp only [String.toList_ofList, if_neg hmark]
  exact readStatements_lines hnames hvalues hfuel

/-- Statements that are all entries stand in front of the first header. -/
theorem leadingEntries_entries (entries : List (List String × Value)) :
    leadingEntries (entries.map fun entry => .entry entry.1 entry.2) = (entries, []) := by
  induction entries with
  | nil => rfl
  | cons entry rest ih => rw [List.map_cons, leadingEntries, ih]

/-- Entries with distinct keys are added in their order. -/
theorem addEntries_distinct {entries : Table} (table : Table)
    (h : Entries.Distinct (table ++ entries)) :
    Table.addEntries (entries.map fun entry => ([entry.1], entry.2)) table =
      some (table ++ entries) := by
  rw [Table.addEntries]
  induction entries generalizing table with
  | nil => simp
  | cons entry rest ih =>
    have hnew : entry.1 ∉ Entries.keys table := h.not_mem_keys
    have hadd : Table.addEntry entry.2 [entry.1] table = some (table ++ [entry]) := by
      rw [Table.addEntry, Entries.get?_eq_none_iff.mpr hnew]
      exact congrArg some (Entries.put_of_not_mem _ hnew)
    rw [List.map_cons, List.foldlM_cons, hadd]
    show List.foldlM _ _ _ = _
    rw [ih _ (by simpa using h), List.append_assoc, List.singleton_append]

/-- Entries with different names make up the table that has just these. -/
theorem ofStatements?_entries {entries : Table} (h : Entries.Distinct entries) :
    Table.ofStatements? (entries.map fun entry => .entry [entry.1] entry.2) = some entries := by
  have hleading : leadingEntries (entries.map fun entry => .entry [entry.1] entry.2) =
      (entries.map fun entry => ([entry.1], entry.2), []) := by
    have hentries := leadingEntries_entries (entries.map fun entry => ([entry.1], entry.2))
    rwa [List.map_map] at hentries
  have hadded := addEntries_distinct [] h
  rw [Table.ofStatements?]
  simp only [hleading, hadded, List.nil_append]
  rfl

/-- **Lines of distinct names are read as the table of their values**, in the order of the lines. -/
theorem read?_lines (hnames : ∀ a ∈ list, IsBare (name a))
    (hvalues : ∀ a ∈ list, ReadsAs (text a) (value a)) (hdistinct : (list.map name).Nodup) :
    read? (String.ofList (linesChars name text list)) =
      some (list.map fun a => (name a, value a)) := by
  have hentries : Entries.Distinct (list.map fun a => (name a, value a)) := by
    rw [Entries.Distinct, Entries.keys, List.map_map]
    exact hdistinct
  have htable := ofStatements?_entries hentries
  rw [List.map_map] at htable
  rw [read?, statements?_lines hnames hvalues]
  exact htable

end Text

end Toml

end TreePath
