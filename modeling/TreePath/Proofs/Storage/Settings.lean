import TreePath.Proofs.Config.Text
import TreePath.Proofs.Storage.FileSystem
import TreePath.Storage.Settings

/-!
# Saved settings

Saving settings makes the directories for their file and writes it.  Making directories only adds to a
file system (`extends_makeDirectories`), so that every name that was followed before is still followed
to the same place, and every file has its content (`Extends.read?`).  The settings that are saved are
those that are loaded, and where saving fails no file has changed (`saved_settings_are_loaded`).
-/

set_option autoImplicit false

namespace TreePath

namespace FileSystem

variable {files next after : FileSystem} {place here : Location} {name : String}
  {content : List UInt8} {config : Config}

/-! ## Additions to a file system -/

/-- Whatever is in the one file system is in the other as well, and names start alike. -/
structure Extends (files next : FileSystem) : Prop where
  working : next.working = files.working
  get? : ∀ place item, files.get? place = some item → next.get? place = some item

namespace Extends

/-- A file system has what it has. -/
theorem refl (files : FileSystem) : Extends files files := ⟨rfl, fun _ _ h => h⟩

/-- What is kept by two runs is kept by one after the other. -/
theorem trans (h : Extends files next) (hafter : Extends next after) : Extends files after :=
  ⟨hafter.working.trans h.working, fun place item hitem =>
    hafter.get? place item (h.get? place item hitem)⟩

/-- A directory goes on being one. -/
theorem isDirectory (h : Extends files next) (hplace : files.isDirectory place) :
    next.isDirectory place := by
  rw [FileSystem.isDirectory, beq_iff_eq] at hplace ⊢
  exact h.get? place .directory hplace

/-- A way that could be gone leads to the same location with more in the file system. -/
theorem walk? (h : Extends files next) {parts : List String}
    (hwalk : files.walk? here parts = some place) : next.walk? here parts = some place := by
  fun_induction FileSystem.walk? files here parts with
  | case1 here => exact hwalk
  | case2 here part rest hdirectory hidle ih =>
    rw [FileSystem.walk?, if_pos (h.isDirectory hdirectory), if_pos hidle]
    exact ih hwalk
  | case3 here rest hdirectory hidle ih =>
    rw [FileSystem.walk?, if_pos (h.isDirectory hdirectory), if_neg hidle, if_pos rfl]
    exact ih hwalk
  | case4 => cases hwalk
  | case5 here part rest hdirectory hidle hparent hlimit ih =>
    rw [FileSystem.walk?, if_pos (h.isDirectory hdirectory), if_neg hidle, if_neg hparent,
      if_neg hlimit]
    exact ih hwalk
  | case6 => cases hwalk

/-- A name that has a location keeps it. -/
theorem locate? (h : Extends files next) (hname : files.locate? name = some place) :
    next.locate? name = some place := by
  rw [FileSystem.locate?] at hname ⊢
  split at hname
  next husable =>
    rw [if_pos husable, startOf, h.working]
    exact h.walk? hname
  next => cases hname

/-- A file that could be read is read with the same content. -/
theorem read? (h : Extends files next) (hread : files.read? name = some content) :
    next.read? name = some content := by
  rw [read?_eq_some_iff] at hread ⊢
  obtain ⟨place, hplace, hitem⟩ := Option.bind_eq_some_iff.mp hread
  rw [find?_of_locate? (h.locate? hplace)]
  exact h.get? place _ hitem

end Extends

/-- An item where there was none is an addition. -/
theorem extends_put {item : Item} (h : files.get? place = none) :
    Extends files (files.put place item) where
  working := rfl
  get? := by
    intro other found hfound
    have hne : other ≠ place := by
      rintro rfl
      rw [h] at hfound
      cases hfound
    rw [get?_put_of_ne hne, hfound]

/-- Making directories keeps what is there. -/
theorem extends_makeDirectories (files : FileSystem) (here : Location) (parts : List String) :
    Extends files (files.makeDirectories here parts).2 := by
  fun_induction makeDirectories files here parts with
  | case1 => exact .refl _
  | case2 _ _ _ _ _ ih => exact ih
  | case3 _ _ _ _ ih => exact ih
  | case4 _ _ _ _ _ _ _ _ ih => exact ih
  | case5 => exact .refl _
  | case6 => exact .refl _
  | case7 files here part rest _ _ next hnone _ ih => exact (extends_put hnone).trans ih

/-! ## Saving -/

/-- A file can be written under the name once the directories on its way are made. -/
def Writable (files : FileSystem) (name : String) : Prop :=
  ∃ next place, files.makeParent name = (true, next) ∧ next.target? name = some place

/-- What was put where a name allows a file is read back under this name. -/
theorem read?_put_target (h : files.target? name = some place) (content : List UInt8) :
    (files.put place (.file content)).read? name = some content := by
  obtain ⟨hlocate, hdirectory⟩ := target?_eq_some.mp h
  have hafter := ((sameDirectories_put hdirectory content).locate? name).trans hlocate
  rw [read?_eq_some_iff, find?_of_locate? hafter,
    get?_put_self (ne_nil_of_not_isDirectory hdirectory)]

/-- Settings that can be written are saved in a place for them, and are those that are loaded. -/
theorem load_saved_settings (hname : files.Writable name) (h : config.SizesFit) :
    ∃ after, files.saveSettings name config = (true, after) ∧
      after.loadSettings name = .ok config := by
  obtain ⟨next, place, hmade, hplace⟩ := hname
  have hkept : Config.Setting.all.Nodup := by decide
  have htext := Config.toText?_of_sizesFit h
  have hread := Config.ofText?_lines h hkept
  generalize String.join (Config.Setting.all.map (Config.Setting.line config)) = text at htext hread
  refine ⟨next.put place (.file (Utf8.encode text)), ?_, ?_⟩
  · rw [saveSettings, hmade]
    simp only [htext, write?, hplace, Option.map_some]
  · rw [loadSettings, read?_put_target hplace, Option.bind_some, Utf8.decode?_encode]
    simp only [hread, Config.keeping_all]

/-- A failed attempt to save leaves every file as it was. -/
theorem read?_of_saveSettings_false (h : files.saveSettings name config = (false, after))
    {other : String} (hother : files.read? other = some content) :
    after.read? other = some content := by
  have hextends : Extends files (files.makeParent name).2 :=
    extends_makeDirectories files _ _
  -- The file itself is only written when the attempt succeeds.
  have hafter : after = (files.makeParent name).2 := by
    rw [saveSettings] at h
    split at h
    next made hmade =>
      cases h
      rw [hmade]
    next made hmade =>
      rw [hmade]
      split at h
      next => exact (congrArg Prod.snd h).symm
      next =>
        split at h
        next => cases h
        next => exact (congrArg Prod.snd h).symm
  rw [hafter]
  exact hextends.read? hother

/-- Settings with a size that is too large are not saved. -/
theorem saveSettings_of_not_sizesFit (h : ¬ config.SizesFit) :
    (files.saveSettings name config).1 = false := by
  have htext : config.toText? = none := if_neg (mt Config.hasWritableSizes_iff.mp h)
  rw [saveSettings]
  split
  next => rfl
  next => rw [htext]

/-- **Settings survive saving.**  Settings whose sizes are machine integers are saved in every place
for a file, and loading finds them again.  Any of the lines of their text, in any order, are read as
the settings of these lines, with the defaults in place of the others.  Settings with a size that is
too large are not saved, and then every file, the one of this name included, keeps its content. -/
theorem saved_settings_are_loaded (files : FileSystem) (name : String) (config : Config) :
    (config.SizesFit →
      (files.Writable name → ∃ after, files.saveSettings name config = (true, after) ∧
        after.loadSettings name = .ok config) ∧
      config.toText? = some (String.join (Config.Setting.all.map (Config.Setting.line config))) ∧
      ∀ kept : List Config.Setting, kept.Nodup →
        Config.ofText? (String.join (kept.map (Config.Setting.line config))) =
          some (config.keeping kept)) ∧
    (¬ config.SizesFit → ∃ after, files.saveSettings name config = (false, after) ∧
      ∀ other content, files.read? other = some content → after.read? other = some content) := by
  refine ⟨fun h => ⟨fun hname => load_saved_settings hname h, Config.toText?_of_sizesFit h,
    fun kept hkept => Config.ofText?_lines h hkept⟩, fun h => ?_⟩
  have hfailed : files.saveSettings name config = (false, (files.saveSettings name config).2) :=
    Prod.ext (saveSettings_of_not_sizesFit h) rfl
  exact ⟨_, hfailed, fun other content hother => read?_of_saveSettings_false hfailed hother⟩

/-- A place for settings, with a file in it, in a directory that is not there yet. -/
def settingsPlace : FileSystem where
  items := [(["home"], .directory), (["home", "old.toml"], .file [112])]
  working := ["home"]

/-- Settings come back from a directory that is made for them, two of their lines in another order are
read with the other defaults, and a size that is too large leaves the old file. -/
theorem saved_settings_are_loaded_sample :
    (∃ after, settingsPlace.saveSettings "a/new.toml" { indentSize := 8, pretty := false } =
        (true, after) ∧
      after.loadSettings "a/new.toml" = .ok { indentSize := 8, pretty := false }) ∧
    Config.ofText? "pretty = false\nindent_size = 8\n" =
      some { indentSize := 8, pretty := false } ∧
    ∃ after, settingsPlace.saveSettings "old.toml" { indentSize := 9223372036854775808 } =
        (false, after) ∧
      after.read? "old.toml" = some [112] := by
  have hfit : Config.SizesFit { indentSize := 8, pretty := false } := by
    rw [Config.SizesFit, fitsWord_iff, fitsWord_iff]
    decide
  have hlarge : ¬ Config.SizesFit { indentSize := 9223372036854775808 } := by
    rw [Config.SizesFit, fitsWord_iff, fitsWord_iff]
    decide
  have hplace : settingsPlace.Writable "a/new.toml" := ⟨_, _, rfl, rfl⟩
  obtain ⟨hsaved, -, hlines⟩ := (saved_settings_are_loaded settingsPlace "a/new.toml" _).1 hfit
  obtain ⟨after, hfailed, hfiles⟩ := (saved_settings_are_loaded settingsPlace "old.toml" _).2 hlarge
  exact ⟨hsaved hplace, hlines [.pretty, .indentSize] (by decide), after, hfailed,
    hfiles "old.toml" [112] rfl⟩

end FileSystem

end TreePath
