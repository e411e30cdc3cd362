import TreePath.Proofs.Path.Tokens
import TreePath.Proofs.Storage.FileSystem

/-!
# Names next to each other

The temporary file and the backup of a file are in the directory of the file.  A name that has a file
part is followed to a directory first, the same for all three names, and then by one part more
(`exists_of_locate?`, `exists_of_locate?_sibling`).  So it is the last part alone that tells their
locations apart: a backup is in place of neither the file nor the temporary file
(`locate?_backup_ne`, `locate?_backup_ne_temporary`).  The temporary file can be in place of the file
itself.
-/

set_option autoImplicit false

namespace TreePath

namespace Name

variable {name file part stem extension backup : String}

/-! ## Parts -/

/-- The parts of a name are what stands between its slashes. -/
theorem not_mem_slash (h : part ∈ parts name) : '/' ∉ part.toList := by
  obtain ⟨piece, hpiece, rfl⟩ := List.mem_map.mp h
  rw [String.toList_ofList]
  exact Path.not_mem_of_mem_splitOn hpiece

/-- Parts without slashes are the parts of the name that they are joined to. -/
theorem parts_intercalate {pieces : List String} (hne : pieces ≠ [])
    (hslash : ∀ piece ∈ pieces, '/' ∉ piece.toList) :
    parts (String.intercalate "/" pieces) = pieces := by
  have hsplit : (['/'].intercalate (pieces.map String.toList)).splitOn '/' =
      pieces.map String.toList := by
    apply List.splitOn_intercalate '/' _ (by simpa using hne)
    simpa using hslash
  rw [parts, String.toList_intercalate]
  rw [show "/".toList = ['/'] from rfl, hsplit, List.map_map]
  simp

/-- The active parts of a name are all but the idle ones at its end. -/
theorem exists_parts_eq (name : String) :
    ∃ idle, parts name = activeParts name ++ idle ∧ ∀ part ∈ idle, isIdle part = true := by
  refine ⟨((parts name).reverse.takeWhile isIdle).reverse, ?_, ?_⟩
  · rw [activeParts, ← List.reverse_append, List.takeWhile_append_dropWhile, List.reverse_reverse]
  · intro part hpart
    exact List.all_eq_true.mp List.all_takeWhile part (List.mem_reverse.mp hpart)

/-- The active parts are some of the parts. -/
theorem activeParts_subset (h : part ∈ activeParts name) : part ∈ parts name := by
  obtain ⟨idle, hparts, -⟩ := exists_parts_eq name
  rw [hparts]
  exact List.mem_append_left idle h

/-- The file part is the last active one. -/
theorem activeParts_eq (h : file? name = some file) :
    activeParts name = (activeParts name).dropLast ++ [file] := by
  have hlast : (activeParts name).getLast? = some file := by
    unfold file? at h
    split at h
    · cases h
    · exact h
  obtain ⟨front, hfront⟩ := List.getLast?_eq_some_iff.mp hlast
  rw [hfront, List.dropLast_concat]

/-- The file part of a name holds no slash. -/
theorem not_mem_slash_of_file? (h : file? name = some file) : '/' ∉ file.toList := by
  have hmem : file ∈ activeParts name := by
    rw [activeParts_eq h]
    exact List.mem_append_right _ List.mem_cons_self
  exact not_mem_slash (activeParts_subset hmem)

/-- The file part of a name is neither idle nor the directory above. -/
theorem file_ne (h : file? name = some file) : isIdle file = false ∧ file ≠ ".." := by
  unfold file? at h
  split at h
  · cases h
  · rename_i hother
    refine ⟨?_, ?_⟩
    · rw [activeParts, List.getLast?_reverse] at h
      have hhead := List.head?_dropWhile_not isIdle (parts name).reverse
      rw [h] at hhead
      exact hhead
    · rintro rfl
      exact hother h

/-- The parts of a name are those of its directory, the file part and idle ones at the end. -/
theorem exists_parts_eq_of_file? (h : file? name = some file) :
    ∃ idle, parts name = (activeParts name).dropLast ++ file :: idle ∧
      ∀ part ∈ idle, isIdle part = true := by
  obtain ⟨idle, hparts, hidle⟩ := exists_parts_eq name
  refine ⟨idle, ?_, hidle⟩
  rw [hparts, activeParts_eq h, List.dropLast_concat, List.append_assoc, List.singleton_append]

/-- The parts of a sibling are those of the directory and the new part. -/
theorem parts_sibling (hslash : '/' ∉ part.toList) :
    parts (sibling name part) = (activeParts name).dropLast ++ [part] := by
  rw [sibling, parts_intercalate (by simp)]
  intro piece hpiece
  rcases List.mem_append.mp hpiece with hfront | hlast
  · exact not_mem_slash (activeParts_subset (List.mem_of_mem_dropLast hfront))
  · rwa [List.mem_singleton.mp hlast]

/-- A name starts at the root when an empty part is in front of others. -/
theorem head?_eq_slash_iff :
    name.toList.head? = some '/' ↔ ∃ rest, rest ≠ [] ∧ parts name = "" :: rest := by
  cases htext : name.toList with
  | nil => simp [parts, htext, List.splitOn_nil]
  | cons c text =>
    obtain ⟨first, rest, hsplit⟩ := List.exists_cons_of_ne_nil (text.splitOn_ne_nil '/')
    rw [parts, htext, List.splitOn_cons_eq_if_modifyHead, hsplit]
    by_cases hc : c = '/'
    · simp [hc]
    · simp [hc]

/-! ## Names that are derived from a name -/

/-- What stands in front of an extension are characters of the file part. -/
theorem mem_of_mem_stem (h : cutExtension? file = some (stem, extension)) {c : Char}
    (hc : c ∈ stem.toList) : c ∈ file.toList := by
  simp only [cutExtension?] at h
  split at h
  next point d rest hdrop =>
    simp only [Option.some.injEq, Prod.mk.injEq] at h
    obtain ⟨rfl, -⟩ := h
    rw [String.toList_ofList, List.mem_reverse] at hc
    rw [← List.mem_reverse]
    apply List.mem_of_mem_drop
    rw [hdrop]
    exact List.mem_cons_of_mem _ hc
  next => cases h

/-- The file part ends in its extension. -/
theorem extension_suffix (h : cutExtension? file = some (stem, extension)) :
    extension.toList <:+ file.toList := by
  simp only [cutExtension?] at h
  split at h
  next point d rest hdrop =>
    simp only [Option.some.injEq, Prod.mk.injEq] at h
    obtain ⟨-, rfl⟩ := h
    rw [String.toList_ofList, ← List.reverse_prefix, List.reverse_reverse]
    exact List.takeWhile_prefix _
  next => cases h

/-- A name that counts as compressed has a file part that ends in `gz`. -/
theorem exists_file_of_isCompressed (h : isCompressed name = true) :
    ∃ file, file? name = some file ∧ "gz".toList <:+ file.toList := by
  have hextension : extension? name = some "gz" := by simpa [isCompressed] using h
  obtain ⟨⟨stem, extension⟩, hcut, rfl⟩ := Option.map_eq_some_iff.mp hextension
  obtain ⟨file, hfile, hcut⟩ := Option.bind_eq_some_iff.mp hcut
  exact ⟨file, hfile, extension_suffix hcut⟩

/-- The temporary file has a part that ends in its extension, unless it is the directory above. -/
theorem exists_temporary_eq (h : file? name = some file) :
    ∃ part, temporary name = sibling name part ∧ '/' ∉ part.toList ∧
      (part = ".." ∨ ∃ stem, part = stem ++ ".tmp") := by
  have hfile := not_mem_slash_of_file? h
  simp only [temporary, h]
  cases hcut : cutExtension? file with
  | none => exact ⟨file ++ ".tmp", rfl, by simpa using hfile, .inr ⟨file, rfl⟩⟩
  | some cut =>
    obtain ⟨stem, extension⟩ := cut
    have hstem : '/' ∉ stem.toList := fun hc => hfile (mem_of_mem_stem hcut hc)
    by_cases hpoint : stem = "."
    · exact ⟨"..", by simp [hpoint], by decide, .inl rfl⟩
    · exact ⟨stem ++ ".tmp", by simp [hpoint], by simpa using hstem, .inr ⟨stem, rfl⟩⟩

/-- A name that has a backup has a file part, and the backup is next to it under this part with `.bak`
behind. -/
theorem backup?_eq_some (h : backup? name = some backup) :
    ∃ file, file? name = some file ∧ '/' ∉ (file ++ ".bak").toList ∧
      backup = sibling name (file ++ ".bak") := by
  obtain ⟨file, hfile, rfl⟩ := Option.map_eq_some_iff.mp h
  refine ⟨file, hfile, ?_, rfl⟩
  have hslash := not_mem_slash_of_file? hfile
  simpa using hslash

end Name

/-! ## Where names lead -/

namespace FileSystem

variable {files : FileSystem} {here place other : Location} {name file part backup : String}

/-- A way along parts goes along the first of them, and then along the others from where these led. -/
theorem walk?_append (files : FileSystem) (here : Location) (front back : List String) :
    files.walk? here (front ++ back) = (files.walk? here front).bind (files.walk? · back) := by
  induction front generalizing here with
  | nil => rfl
  | cons part rest ih =>
    simp only [List.cons_append, walk?]
    split
    · split
      · exact ih here
      · split
        · exact ih here.dropLast
        · split
          · rfl
          · exact ih (here ++ [part])
    · rfl

/-- Idle parts lead nowhere else. -/
theorem eq_of_walk?_idle {idle : List String} (hidle : ∀ part ∈ idle, Name.isIdle part = true)
    (h : files.walk? here idle = some place) : place = here := by
  induction idle with
  | nil => exact (Option.some.inj h).symm
  | cons part rest ih =>
    have hpart : Name.isIdle part = true := hidle part List.mem_cons_self
    rw [walk?, if_pos hpart] at h
    split at h
    · exact ih (fun other hother => hidle other (List.mem_cons_of_mem _ hother)) h
    · cases h

/-- A part that is not idle and no pair of points leads from a directory into it. -/
theorem eq_of_walk?_cons {parts : List String} (hpart : Name.isIdle part = false) (hne : part ≠ "..")
    (h : files.walk? here (part :: parts) = some place) :
    files.walk? (here ++ [part]) parts = some place := by
  simp only [walk?, hpart, hne] at h
  split at h
  · split at h
    · rename_i hidle
      cases hidle
    · simp only [if_false] at h
      split at h
      · cases h
      · exact h
  · cases h

/-- A part of more than two characters leads from a directory into it. -/
theorem eq_of_walk?_long (hlong : 2 < part.toList.length)
    (h : files.walk? here [part] = some place) : place = here ++ [part] := by
  have hne : ∀ text : String, text.toList.length ≤ 2 → part ≠ text := by
    rintro text htext rfl
    omega
  have hactive : Name.isIdle part = false := by
    simp [Name.isIdle, hne "" (by decide), hne "." (by decide)]
  exact (Option.some.inj (eq_of_walk?_cons hactive (hne ".." (by decide)) h)).symm

/-- The part for the directory above takes the last name off a location. -/
theorem eq_of_walk?_points (h : files.walk? here [".."] = some place) : place = here.dropLast := by
  have hidle : Name.isIdle ".." = false := by decide
  simp only [walk?, hidle] at h
  split at h
  · simpa using h.symm
  · cases h

/-- A sibling of a name starts where the name does. -/
theorem startOf_sibling (hfile : Name.file? name = some file) (hslash : '/' ∉ part.toList) :
    files.startOf (Name.sibling name part) = files.startOf name := by
  obtain ⟨idle, hparts, -⟩ := Name.exists_parts_eq_of_file? hfile
  have hidle : file ≠ "" := by
    rintro rfl
    exact absurd (Name.file_ne hfile).1 (by decide)
  have hiff : (Name.sibling name part).toList.head? = some '/' ↔ name.toList.head? = some '/' := by
    rw [Name.head?_eq_slash_iff, Name.head?_eq_slash_iff, Name.parts_sibling hslash, hparts]
    cases (Name.activeParts name).dropLast with
    | nil => simp [hidle]
    | cons first rest => simp
  simp only [startOf, hiff]

/-- A name with a file part leads to a directory and on to the file part there. -/
theorem exists_of_locate? (hfile : Name.file? name = some file)
    (h : files.locate? name = some place) :
    ∃ directory, files.walk? (files.startOf name) (Name.activeParts name).dropLast =
        some directory ∧ place = directory ++ [file] := by
  obtain ⟨idle, hparts, hidle⟩ := Name.exists_parts_eq_of_file? hfile
  obtain ⟨hactive, hpoints⟩ := Name.file_ne hfile
  simp only [locate?] at h
  split at h
  · rw [hparts, walk?_append, Option.bind_eq_some_iff] at h
    obtain ⟨directory, hdirectory, hrest⟩ := h
    exact ⟨directory, hdirectory,
      eq_of_walk?_idle hidle (eq_of_walk?_cons hactive hpoints hrest)⟩
  · cases h

/-- A sibling is followed to the directory of the name, and then by its own part. -/
theorem exists_of_locate?_sibling (hfile : Name.file? name = some file)
    (hslash : '/' ∉ part.toList) (h : files.locate? (Name.sibling name part) = some place) :
    ∃ directory, files.walk? (files.startOf name) (Name.activeParts name).dropLast =
        some directory ∧ files.walk? directory [part] = some place := by
  simp only [locate?] at h
  split at h
  · rw [Name.parts_sibling hslash, startOf_sibling hfile hslash, walk?_append] at h
    exact Option.bind_eq_some_iff.mp h
  · cases h

/-- A backup is in the directory of its file and has a longer name there. -/
theorem exists_of_locate?_backup (hbackup : Name.backup? name = some backup)
    (h : files.locate? backup = some place) :
    ∃ file directory, Name.file? name = some file ∧
      files.walk? (files.startOf name) (Name.activeParts name).dropLast = some directory ∧
      place = directory ++ [file ++ ".bak"] := by
  obtain ⟨file, hfile, hslash, rfl⟩ := Name.backup?_eq_some hbackup
  obtain ⟨directory, hdirectory, hpart⟩ := exists_of_locate?_sibling hfile hslash h
  have hlong : 2 < (file ++ ".bak").toList.length := by simp
  exact ⟨file, directory, hfile, hdirectory, eq_of_walk?_long hlong hpart⟩

/-- **A backup is not in place of its file.** -/
theorem locate?_backup_ne (hbackup : Name.backup? name = some backup)
    (h : files.locate? backup = some place) : files.locate? name ≠ some place := by
  intro hname
  obtain ⟨file, directory, hfile, hdirectory, rfl⟩ := exists_of_locate?_backup hbackup h
  obtain ⟨same, hsame, hplace⟩ := exists_of_locate? hfile hname
  rw [hdirectory] at hsame
  cases hsame
  simp at hplace

/-- A part of the directory that does not end as temporary files do is not the temporary file. -/
theorem locate?_temporary_ne (hfile : Name.file? name = some file)
    (hdirectory : files.walk? (files.startOf name) (Name.activeParts name).dropLast = some here)
    (hends : ∀ stem, part ≠ stem ++ ".tmp") :
    files.locate? (Name.temporary name) ≠ some (here ++ [part]) := by
  intro h
  obtain ⟨last, hlast, hslash, hkind⟩ := Name.exists_temporary_eq hfile
  rw [hlast] at h
  obtain ⟨same, hsame, hplace⟩ := exists_of_locate?_sibling hfile hslash h
  rw [hdirectory] at hsame
  cases hsame
  rcases hkind with rfl | ⟨stem, rfl⟩
  · have hlength := congrArg List.length (eq_of_walk?_points hplace)
    simp at hlength
    omega
  · have hlong : 2 < (stem ++ ".tmp").toList.length := by simp
    exact hends stem (by simpa using eq_of_walk?_long hlong hplace)

/-- **A backup is not in place of the temporary file.** -/
theorem locate?_backup_ne_temporary (hbackup : Name.backup? name = some backup)
    (h : files.locate? backup = some place) :
    files.locate? (Name.temporary name) ≠ some place := by
  obtain ⟨file, directory, hfile, hdirectory, rfl⟩ := exists_of_locate?_backup hbackup h
  apply locate?_temporary_ne hfile hdirectory
  intro stem hends
  have hlast := congrArg (fun text : String => text.toList.getLast?) hends
  simp at hlast

/-- **The temporary file of a compressed file is not in place of it.** -/
theorem locate?_temporary_ne_of_isCompressed (hcompressed : Name.isCompressed name = true)
    (h : files.locate? name = some place) : files.locate? (Name.temporary name) ≠ some place := by
  obtain ⟨file, hfile, front, hfront⟩ := Name.exists_file_of_isCompressed hcompressed
  obtain ⟨directory, hdirectory, rfl⟩ := exists_of_locate? hfile h
  apply locate?_temporary_ne hfile hdirectory
  intro stem hends
  rw [hends] at hfront
  have hlast := congrArg List.getLast? hfront
  simp at hlast

end FileSystem

end TreePath
