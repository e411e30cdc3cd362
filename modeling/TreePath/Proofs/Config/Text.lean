import TreePath.Config.Text
import TreePath.Proofs.Toml.Lines

/-!
# Settings are read from their lines

The text of settings has a line for each of them.  Whichever of these lines a text has, and in whatever
order, the settings of the lines are read as they are, and the others take their defaults
(`ofText?_lines`).

A size can be written when it is a machine integer, and then the integer that is read is the size.
-/

set_option autoImplicit false

namespace TreePath

/-- The text of a natural number as an integer has its digits and no sign. -/
theorem Decimal.toList_integerText (n : Nat) :
    (integerText (n : Int)).toList = digitChars n := by
  rw [integerText, String.toList_ofList, integerChars, if_neg (by omega), Int.natAbs_natCast]

/-- A natural number has a word when it fits one. -/
theorem isSome_word?_natCast {n : Nat} : (word? (n : Int)).isSome ↔ FitsWord n := by
  have hlow : Int64.minValue.toInt ≤ (n : Int) := by
    rw [Int64.toInt_minValue]
    omega
  constructor
  · intro h
    obtain ⟨w, hw⟩ := Option.isSome_iff_exists.mp h
    rw [FitsWord, ← toInt_of_word? hw]
    exact w.toInt_le
  · intro h
    rw [word?_eq_some hlow h]
    rfl

namespace Config

/-- The settings one by one. -/
inductive Setting where
  | maxPathLength
  | indentSize
  | pretty
  | createBackup
  deriving DecidableEq, Repr

namespace Setting

/-- The settings in the order of their lines. -/
def all : List Setting := [maxPathLength, indentSize, pretty, createBackup]

/-- The name of a setting in the text of settings. -/
def name : Setting → String
  | maxPathLength => "max_path_len"
  | indentSize => "indent_size"
  | pretty => "pretty"
  | createBackup => "create_backup"

/-- The text of the value of a setting. -/
def text (config : Config) : Setting → String
  | maxPathLength => Decimal.integerText config.maxPathLength.toNat
  | indentSize => Decimal.integerText config.indentSize.toNat
  | pretty => switchText config.pretty
  | createBackup => switchText config.createBackup

/-- The value that the text is read as. -/
def value (config : Config) : Setting → Toml.Value
  | maxPathLength => .integer (Int64.ofNat config.maxPathLength.toNat)
  | indentSize => .integer (Int64.ofNat config.indentSize.toNat)
  | pretty => .boolean config.pretty
  | createBackup => .boolean config.createBackup

/-- The line of a setting: its name, an equals sign and the text of its value. -/
def line (config : Config) (setting : Setting) : String :=
  Config.line setting.name (setting.text config)

/-- No two settings have one name. -/
theorem name_injective : Function.Injective name := by
  intro setting other h
  cases setting <;> cases other <;> first | rfl | exact absurd h (by decide)

/-- The names of settings are bare keys, so they stand in the text without quotes. -/
theorem isBare_name (setting : Setting) : Toml.IsBare setting.name := by
  have hchars : setting.name.toList.all Toml.isBareKeyChar = true := by
    cases setting <;> rfl
  refine ⟨?_, List.all_eq_true.mp hchars⟩
  cases setting <;> exact List.cons_ne_nil _ _

end Setting

/-- Both sizes are machine integers. -/
def SizesFit (config : Config) : Prop :=
  FitsWord config.maxPathLength.toNat ∧ FitsWord config.indentSize.toNat

/-- The settings with the defaults in place of those that are not kept. -/
def keeping (config : Config) (kept : List Setting) : Config where
  maxPathLength := if .maxPathLength ∈ kept then config.maxPathLength else 4096
  indentSize := if .indentSize ∈ kept then config.indentSize else 2
  pretty := if .pretty ∈ kept then config.pretty else true
  createBackup := if .createBackup ∈ kept then config.createBackup else false

/-- When every setting is kept, no default takes the place of one. -/
theorem keeping_all (config : Config) : config.keeping Setting.all = config := rfl

variable {config : Config}

/-- The check in front of a save asks just for sizes that are machine integers. -/
theorem hasWritableSizes_iff : config.hasWritableSizes ↔ config.SizesFit := by
  rw [hasWritableSizes, Bool.and_eq_true, isSome_word?_natCast, isSome_word?_natCast, SizesFit]

/-- Settings whose sizes fit have a text, which consists of their lines. -/
theorem toText?_of_sizesFit (h : config.SizesFit) :
    config.toText? = some (String.join (Setting.all.map (Setting.line config))) :=
  if_pos (hasWritableSizes_iff.mpr h)

/-! ## Reading -/

/-- The text of a switch is read as the switch. -/
theorem readsAs_switchText (b : Bool) : Toml.ReadsAs (switchText b).toList (.boolean b) := by
  intro rest
  cases b with
  | false => rfl
  | true => rfl

/-- The text of a value is read as the value, in front of the end of its line. -/
theorem readsAs_text (h : config.SizesFit) (setting : Setting) :
    Toml.ReadsAs (setting.text config).toList (setting.value config) := by
  cases setting with
  | maxPathLength =>
    rw [Setting.text, Decimal.toList_integerText]
    exact Toml.readsAs_digitChars h.1.toInt_ofNat
  | indentSize =>
    rw [Setting.text, Decimal.toList_integerText]
    exact Toml.readsAs_digitChars h.2.toInt_ofNat
  | pretty => exact readsAs_switchText config.pretty
  | createBackup => exact readsAs_switchText config.createBackup

/-- A line in characters is the line that the reader is known to read. -/
theorem toList_line (name text : String) : (line name text).toList = Toml.lineChars name text.toList := by
  simp [line, Toml.lineChars]

/-- Lines of settings one after another are the lines that the reader is known to read. -/
theorem toList_join_lines (config : Config) (kept : List Setting) :
    (String.join (kept.map (Setting.line config))).toList =
      Toml.linesChars Setting.name (fun setting => (setting.text config).toList) kept := by
  rw [String.toList_join, List.flatMap_map, Toml.linesChars]
  refine List.flatMap_congr fun setting _ => ?_
  exact toList_line setting.name (setting.text config)

/-- Lines of distinct settings, in whatever order, are read as the table of their values. -/
theorem read?_lines (h : config.SizesFit) {kept : List Setting} (hkept : kept.Nodup) :
    Toml.read? (String.join (kept.map (Setting.line config))) =
      some (kept.map fun setting => (setting.name, setting.value config)) := by
  rw [← String.ofList_toList (s := String.join _), toList_join_lines]
  exact Toml.read?_lines (fun setting _ => setting.isBare_name)
    (fun setting _ => readsAs_text h setting) (hkept.map Setting.name_injective)

/-- The table of these lines has the value of a setting that is kept and nothing for the others. -/
theorem get?_kept (config : Config) (kept : List Setting) (setting : Setting) :
    Entries.get? (kept.map fun setting => (setting.name, setting.value config)) setting.name =
      if setting ∈ kept then some (setting.value config) else none := by
  induction kept with
  | nil => rfl
  | cons first rest ih =>
    rw [List.map_cons, Entries.get?_cons, ih]
    by_cases hfirst : first = setting
    · simp [hfirst]
    · have hname : first.name ≠ setting.name := fun heq => hfirst (Setting.name_injective heq)
      have hback : setting ≠ first := fun heq => hfirst heq.symm
      simp [hname, hback]

section Fields

variable {table : Toml.Table} {name : String} {p : Prop} [Decidable p]

/-- A size is read from the table when it has one and is the default otherwise.  A size that fits is
not negative as a word, so it comes back as it was. -/
theorem size?_of_get? {size : UInt64} (default : UInt64) (hfits : FitsWord size.toNat)
    (h : Entries.get? table name = if p then some (.integer (Int64.ofNat size.toNat)) else none) :
    size? table name default = some (if p then size else default) := by
  rw [size?, h]
  by_cases hp : p
  · have hnonnegative : 0 ≤ Int64.ofNat size.toNat := by
      rw [Int64.le_iff_toInt_le, hfits.toInt_ofNat]
      exact Int.natCast_nonneg _
    simp [hp, hnonnegative]
  · simp [hp]

/-- A switch is read from the table when it has one and is the default otherwise. -/
theorem switch?_of_get? {b : Bool} (default : Bool)
    (h : Entries.get? table name = if p then some (.boolean b) else none) :
    switch? table name default = some (if p then b else default) := by
  rw [switch?, h]
  by_cases hp : p
  · simp [hp]
  · simp [hp]

end Fields

/-- **Settings are read from whichever of their lines a text has, in whatever order.** -/
theorem ofText?_lines (h : config.SizesFit) {kept : List Setting} (hkept : kept.Nodup) :
    ofText? (String.join (kept.map (Setting.line config))) = some (config.keeping kept) := by
  have hmax := size?_of_get? 4096 h.1 (get?_kept config kept .maxPathLength)
  have hindent := size?_of_get? 2 h.2 (get?_kept config kept .indentSize)
  have hpretty := switch?_of_get? true (get?_kept config kept .pretty)
  have hbackup := switch?_of_get? false (get?_kept config kept .createBackup)
  simp only [Setting.name] at hmax hindent hpretty hbackup
  rw [ofText?, read?_lines h hkept]
  simp only [Option.bind_eq_bind, Option.bind_some, ofTable?, Setting.name, hmax, hindent, hpretty,
    hbackup]
  rfl

end Config

end TreePath
