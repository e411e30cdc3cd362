import TreePath.Proofs.Gzip.RoundTrip
import TreePath.Proofs.Storage.Name
import TreePath.Storage.Saving

/-!
# What saving does to a file system

Saving copies the old file where a backup is wanted, writes the temporary file, and gives that file
the name of the target.  The three names lead to locations that do not change on the way, so each
step is followed there.  Only the last step touches the target, unless the temporary file is in place
of it; then there is one step that writes it, and the last step does nothing.

`save_frame` says what a save leaves alone, and `attempt_all_or_nothing` what becomes of the target
when the file system may also refuse a step.  What a saved file holds is said part by part: the text of
the tree in the format of the name, the line break behind it, and the bytes of the text, compressed
when the name says so (`Serializes`).
-/

set_option autoImplicit false

namespace TreePath

/-- A document to save, and the number of steps after which the file system refuses to go on, if it
does. -/
structure SaveRequest where
  name : String
  config : Config
  node : Node
  refusal : Option Nat

/-! ## What a saved document is -/

/-- What a file of this name holds for a tree, part by part.  The text is the tree in the format of
the name, and a line break stands behind it unless it ends with one.  The bytes are the text in UTF-8,
and they are compressed when the name is that of a compressed file, and only then. -/
structure Serializes (name : String) (config : Config) (node : Node) (text : String)
    (bytes : List UInt8) : Prop where
  ended : ((Format.ofName name).render config node).toList.getLast? = some '\n' →
    text = (Format.ofName name).render config node
  unended : ((Format.ofName name).render config node).toList.getLast? ≠ some '\n' →
    text = (Format.ofName name).render config node ++ "\n"
  plain : Name.isCompressed name = false → bytes = Utf8.encode text
  compressed : Name.isCompressed name = true → bytes = Gzip.compress (Utf8.encode text)

/-- The bytes that are saved are those of the tree, in each of their parts. -/
theorem serializes_saved (name : String) (config : Config) (node : Node) :
    Serializes name config node (savedText name config node) (savedBytes name config node) where
  ended hended := by rw [savedText, endLine, if_pos hended]
  unended hunended := by rw [savedText, endLine, if_neg hunended]
  plain hplain := by rw [savedBytes, hplain, if_neg Bool.false_ne_true]
  compressed hcompressed := by rw [savedBytes, hcompressed, if_pos rfl]

namespace FileSystem

variable {files next after : FileSystem} {name backup target : String} {place : Location}
  {config : Config} {node : Node} {compressed : Bool} {bytes : List UInt8} {e : SaveError}
  {steps : List (FileStep × SaveError)} {refusal : Option Nat} {request : SaveRequest}

/-! ## The temporary file -/

/-- The steps that write the content have the name of the target and no other. -/
theorem names_contentSteps :
    ∀ pair ∈ contentSteps compressed target bytes, pair.1.names = [target] := by
  cases compressed <;> simp [contentSteps, FileStep.names]

/-- The temporary file can be written where its name allows a file. -/
theorem performAll_contentSteps (htarget : files.target? target = some place) (compressed : Bool)
    (bytes : List UInt8) :
    ∃ next, performAll (contentSteps compressed target bytes) files = (.ok (), next) ∧
      next.get? place = some (.file (if compressed then Gzip.compress bytes else bytes)) := by
  -- A step of these succeeds, and the name allows a file as before.
  have hwrite : ∀ (now : FileSystem) (content : List UInt8), now.target? target = some place →
      ∃ next, now.perform? (.write target content) = some next ∧
        next.get? place = some (.file content) ∧ next.target? target = some place := by
    intro now content hnow
    obtain ⟨-, hdirectory⟩ := target?_eq_some.mp hnow
    refine ⟨now.put place (.file content), ?_, ?_, ?_⟩
    · rw [perform?, write?, hnow, Option.map_some]
    · exact get?_put_self (ne_nil_of_not_isDirectory hdirectory) now _
    · rw [(sameDirectories_put hdirectory content).target?, hnow]
  cases compressed with
  | false =>
    obtain ⟨next, hstep, hcontent, -⟩ := hwrite files bytes htarget
    exact ⟨next, by rw [contentSteps, if_neg Bool.false_ne_true, performAll_cons_some hstep,
      performAll], hcontent⟩
  | true =>
    obtain ⟨created, hcreated, -, hfirst⟩ := hwrite files [] htarget
    obtain ⟨filled, hfilled, -, hsecond⟩ := hwrite created (Gzip.front bytes) hfirst
    obtain ⟨ended, hended, hcontent, -⟩ := hwrite filled (Gzip.compress bytes) hsecond
    exact ⟨ended, by rw [contentSteps, if_pos rfl, performAll_cons_some hcreated,
      performAll_cons_some hfilled, performAll_cons_some hended, performAll], hcontent⟩

/-- When the content could be written, the name of the target allowed a file. -/
theorem target?_of_performAll_contentSteps
    (h : performAll (contentSteps compressed target bytes) files = (.ok (), next)) :
    ∃ place, files.target? target = some place := by
  have hfirst : ∃ content fault rest,
      contentSteps compressed target bytes = (.write target content, fault) :: rest := by
    cases compressed
    · exact ⟨_, _, _, rfl⟩
    · exact ⟨_, _, _, rfl⟩
  obtain ⟨content, fault, rest, hsteps⟩ := hfirst
  rw [hsteps] at h
  obtain ⟨written, hstep, -⟩ := performAll_cons_eq_ok h
  obtain ⟨place, hplace, -⟩ := write?_eq_some hstep
  exact ⟨place, hplace⟩

/-! ## Plans -/

/-- A plan writes the document, and copies the old file first when a backup is wanted. -/
theorem savePlan_eq_ok (h : files.savePlan name config node = .ok steps) :
    steps = writeSteps name config node ∧
        ¬(config.createBackup = true ∧ (files.find? name).isSome = true) ∨
      config.createBackup = true ∧ (files.find? name).isSome = true ∧
        ∃ backup, Name.backup? name = some backup ∧
          steps = (.copy name backup, .backup) :: writeSteps name config node := by
  rw [savePlan] at h
  by_cases hwanted : config.createBackup = true ∧ (files.find? name).isSome = true
  · rw [if_pos (by simpa using hwanted)] at h
    cases hbackup : Name.backup? name with
    | none => simp [hbackup] at h
    | some backup =>
      rw [hbackup] at h
      cases h
      exact .inr ⟨hwanted.1, hwanted.2, backup, rfl, rfl⟩
  · rw [if_neg (by simpa using hwanted)] at h
    cases h
    exact .inl ⟨rfl, hwanted⟩

/-- A save that succeeds has a plan and has made all of its steps. -/
theorem save_eq_ok (h : files.save name config node = (.ok (), after)) :
    ∃ steps, files.savePlan name config node = .ok steps ∧
      performAll steps files = (.ok (), after) := by
  rw [save] at h
  cases hplan : files.savePlan name config node with
  | error e =>
    rw [hplan] at h
    cases h
  | ok steps =>
    rw [hplan] at h
    exact ⟨steps, rfl, h⟩

/-- A save without a backup has no names but the temporary file and the target. -/
theorem names_writeSteps {other : String} :
    ∀ pair ∈ writeSteps name config node, other ∈ pair.1.names →
      other = Name.temporary name ∨ other = name := by
  intro pair hpair hother
  rcases List.mem_append.mp hpair with hcontent | hlast
  · rw [names_contentSteps pair hcontent, List.mem_singleton] at hother
    exact .inl hother
  · rw [List.mem_singleton.mp hlast] at hother
    simpa [FileStep.names] using hother

/-- What is at a location when a document has been written there by way of another location. -/
structure Written (files after : FileSystem) (name : String) (config : Config) (node : Node)
    (place temporary : Location) : Prop where
  isTarget : files.target? name = some place
  isTemporary : files.target? (Name.temporary name) = some temporary
  content : after.get? place = some (.file (savedBytes name config node))
  gone : temporary ≠ place → after.get? temporary = none

/-- **A document that is written is in place of the target**, and the temporary file is gone unless
it was there itself. -/
theorem written_of_performAll_writeSteps
    (h : performAll (writeSteps name config node) files = (.ok (), after)) :
    ∃ place temporary, Written files after name config node place temporary := by
  obtain ⟨filled, hcontent, hrename⟩ := performAll_append_eq_ok h
  obtain ⟨temporary, htemporary⟩ := target?_of_performAll_contentSteps hcontent
  obtain ⟨next, hrun, hbytes⟩ := performAll_contentSteps htemporary (Name.isCompressed name)
    (Utf8.encode (savedText name config node))
  rw [hcontent] at hrun
  cases hrun
  have hsame := sameDirectories_of_performAll hcontent
  obtain ⟨renamed, hstep, hdone⟩ := performAll_cons_eq_ok hrename
  cases hdone
  obtain ⟨content, old, place, hold, hfile, hplace, rfl⟩ := rename?_eq_some hstep
  rw [hsame.locate?, (target?_eq_some.mp htemporary).1] at hold
  cases hold
  rw [hbytes] at hfile
  cases hfile
  rw [hsame.target?] at hplace
  have hroot : place ≠ [] := ne_nil_of_not_isDirectory (target?_eq_some.mp hplace).2
  refine ⟨place, temporary, hplace, htemporary, get?_put_self hroot _ _, ?_⟩
  intro hne
  rw [get?_put_of_ne hne]
  exact get?_remove_self (ne_nil_of_not_isDirectory (target?_eq_some.mp htemporary).2) filled

/-- The names in a plan: the temporary file, the target, and the backup that is wanted. -/
theorem names_savePlan (h : files.savePlan name config node = .ok steps) {other : String} :
    ∀ pair ∈ steps, other ∈ pair.1.names →
      other = Name.temporary name ∨ other = name ∨
        config.createBackup = true ∧ (files.find? name).isSome = true ∧
          Name.backup? name = some other := by
  intro pair hpair hother
  have hwrite : pair ∈ writeSteps name config node →
      other = Name.temporary name ∨ other = name := fun h => names_writeSteps pair h hother
  rcases savePlan_eq_ok h with ⟨rfl, -⟩ | ⟨hon, hexists, backup, hbackup, rfl⟩
  · rcases hwrite hpair with htemporary | htarget
    · exact .inl htemporary
    · exact .inr (.inl htarget)
  · rcases List.mem_cons.mp hpair with rfl | hrest
    · rw [FileStep.names, List.mem_singleton] at hother
      exact .inr (.inr ⟨hon, hexists, by rw [hbackup, hother]⟩)
    · rcases hwrite hrest with htemporary | htarget
      · exact .inl htemporary
      · exact .inr (.inl htarget)

/-- Writing the content and giving it its name leaves the backup, whose location neither of the two
names has. -/
theorem get?_backup_of_writeSteps (hbackup : Name.backup? name = some backup)
    (hplace : files.locate? backup = some place)
    (h : performAll (writeSteps name config node) files = (.ok (), after)) :
    after.get? place = files.get? place := by
  apply get?_of_performAll h
  intro pair hpair other hother
  rcases names_writeSteps pair hpair hother with rfl | rfl
  · exact locate?_backup_ne_temporary hbackup hplace
  · exact locate?_backup_ne hbackup hplace

/-- **What a successful save leaves**: the document in place of the target, and in the backup that is
wanted the bytes that the target had. -/
theorem written_of_save (h : files.save name config node = (.ok (), after)) :
    ∃ place temporary, Written files after name config node place temporary ∧
      (config.createBackup = true → (files.find? name).isSome = true →
        ∃ backup spot old, Name.backup? name = some backup ∧ files.locate? backup = some spot ∧
          files.find? name = some (.file old) ∧ after.get? spot = some (.file old)) := by
  obtain ⟨steps, hplan, hrun⟩ := save_eq_ok h
  rcases savePlan_eq_ok hplan with ⟨rfl, hunwanted⟩ | ⟨-, -, backup, hbackup, rfl⟩
  · obtain ⟨place, temporary, hwritten⟩ := written_of_performAll_writeSteps hrun
    exact ⟨place, temporary, hwritten, fun hon hexists => absurd ⟨hon, hexists⟩ hunwanted⟩
  · obtain ⟨copied, hcopy, hwrite⟩ := performAll_cons_eq_ok hrun
    have hsame := sameDirectories_of_perform? hcopy
    obtain ⟨old, spot, hold, hspot, rfl⟩ := copy?_eq_some hcopy
    obtain ⟨place, temporary, hplace, htemporary, hcontent, hgone⟩ :=
      written_of_performAll_writeSteps hwrite
    rw [hsame.target?] at hplace htemporary
    obtain ⟨hbackupPlace, hspotFile⟩ := target?_eq_some.mp hspot
    refine ⟨place, temporary, ⟨hplace, htemporary, hcontent, hgone⟩, fun _ _ =>
      ⟨backup, spot, old, hbackup, hbackupPlace, read?_eq_some_iff.mp hold, ?_⟩⟩
    rw [get?_backup_of_writeSteps hbackup (by rw [hsame.locate?, hbackupPlace]) hwrite]
    exact get?_put_self (ne_nil_of_not_isDirectory hspotFile) files _

/-! ## What a save leaves alone -/

/-- **A successful save changes what is at three locations at most**: at the target's, at the
backup's where one is wanted and there is something to copy, and at the temporary file's.  A file that
was in place of the temporary file, and is not the target, is lost, and nothing is there afterwards;
nothing new is there when nothing was there before.  Names keep their locations, so everything else
keeps its name, too. -/
theorem save_frame (h : files.save name config node = (.ok (), after)) :
    SameDirectories files after ∧
    (∀ place, after.get? place ≠ files.get? place →
      files.locate? name = some place ∨
      (config.createBackup = true ∧ (files.find? name).isSome = true ∧
        ∃ backup, Name.backup? name = some backup ∧ files.locate? backup = some place) ∨
      (files.locate? (Name.temporary name) = some place ∧ after.get? place = none ∧
        ∃ lost, files.get? place = some (.file lost))) ∧
    (files.locate? (Name.temporary name) ≠ files.locate? name →
      after.find? (Name.temporary name) = none) := by
  obtain ⟨steps, hplan, hrun⟩ := save_eq_ok h
  obtain ⟨target, temporary, hwritten, -⟩ := written_of_save h
  obtain ⟨htemporary, hnoDirectory⟩ := target?_eq_some.mp hwritten.isTemporary
  have htarget := (target?_eq_some.mp hwritten.isTarget).1
  have hsame := sameDirectories_of_performAll hrun
  refine ⟨hsame, ?_, ?_⟩
  · intro place hchanged
    by_contra hnone
    simp only [not_or, not_and, not_exists] at hnone
    obtain ⟨hnotTarget, hnotBackup, hnotTemporary⟩ := hnone
    -- The temporary file is gone, so it was there before if its location has changed.
    have hunused : files.locate? (Name.temporary name) ≠ some place := by
      intro hplace
      rw [htemporary] at hplace
      cases hplace
      have hgone := hwritten.gone (fun heq => hnotTarget (by rw [heq, htarget]))
      cases hbefore : files.get? temporary with
      | none => exact hchanged (by rw [hgone, hbefore])
      | some item =>
        cases item with
        | directory => simp [isDirectory, hbefore] at hnoDirectory
        | file lost => exact hnotTemporary htemporary hgone lost hbefore
    apply hchanged
    apply get?_of_performAll hrun
    intro pair hpair other hother
    rcases names_savePlan hplan pair hpair hother with rfl | rfl | ⟨hon, hexists, hbackup⟩
    · exact hunused
    · exact hnotTarget
    · exact hnotBackup hon hexists other hbackup
  · intro hne
    rw [htemporary, htarget] at hne
    rw [find?, hsame.locate?, htemporary, Option.bind_some]
    exact hwritten.gone fun heq => hne (by rw [heq])

/-- A directory with two documents, one of which has the name of the other's temporary file. -/
def neighbours : FileSystem where
  items := [(["home"], .directory), (["home", "doc.json"], .file [123, 125]),
    (["home", "doc.tmp"], .file [109])]
  working := ["home"]

/-- Saving one of two neighbours, whose temporary file the other is. -/
theorem save_frame_sample :
    (neighbours.save "doc.json" {} .null).1 = .ok () ∧
      (neighbours.save "doc.json" {} .null).2.get? ["home"] = some .directory ∧
      (neighbours.save "doc.json" {} .null).2.find? "doc.tmp" = none := by
  have hsave : neighbours.save "doc.json" {} .null =
      (.ok (), (neighbours.save "doc.json" {} .null).2) := rfl
  obtain ⟨hsame, -, hgone⟩ := save_frame hsave
  refine ⟨rfl, ?_, hgone (by decide)⟩
  have hhome := hsame.isDirectory ["home"]
  rw [show neighbours.isDirectory ["home"] = true from rfl] at hhome
  simpa [isDirectory] using hhome

/-- A file next to the target can be lost: it has the name of the temporary file. -/
theorem save_loses_neighbour :
    (neighbours.save "doc.json" {} .null).1 = .ok () ∧
      neighbours.locate? "doc.tmp" ≠ neighbours.locate? "doc.json" ∧
      neighbours.locate? "doc.tmp" ≠ neighbours.locate? "doc.json.bak" ∧
      neighbours.read? "doc.tmp" = some [109] ∧
      (neighbours.save "doc.json" {} .null).2.find? "doc.tmp" = none := by
  refine ⟨rfl, by decide, by decide, rfl, rfl⟩

/-! ## Saves that may be refused -/

/-- Tries to save a document. -/
def attempt (files : FileSystem) (request : SaveRequest) : Except SaveError Unit × FileSystem :=
  match files.savePlan request.name request.config request.node with
  | .ok steps => performUpTo request.refusal steps files
  | .error e => (.error e, files)

/-- The file system after attempts one after another. -/
def afterAttempts (files : FileSystem) (requests : List SaveRequest) : FileSystem :=
  requests.foldl (fun files request => (files.attempt request).2) files

/-- The last of the requests that succeeds. -/
def lastFulfilled? (files : FileSystem) : List SaveRequest → Option SaveRequest
  | [] => none
  | request :: rest =>
    match files.attempt request with
    | (.ok (), next) => some ((lastFulfilled? next rest).getD request)
    | (.error _, next) => lastFulfilled? next rest

/-- A save in which the file system refuses nothing of its own accord is the save of the program. -/
theorem attempt_of_no_refusal (files : FileSystem) (name : String) (config : Config) (node : Node) :
    files.attempt ⟨name, config, node, none⟩ = files.save name config node := by
  rw [attempt, save]
  cases files.savePlan name config node with
  | error e => rfl
  | ok steps => exact performUpTo_none steps files

/-- An attempt that succeeds did what the save does. -/
theorem save_of_attempt (h : files.attempt request = (.ok (), after)) :
    files.save request.name request.config request.node = (.ok (), after) := by
  rw [attempt] at h
  rw [save]
  cases hplan : files.savePlan request.name request.config request.node with
  | error e =>
    rw [hplan] at h
    cases h
  | ok steps =>
    rw [hplan] at h
    exact performAll_of_performUpTo_eq_ok h

/-- The steps that write a document leave the target alone unless all of them are made. -/
theorem get?_of_performUpTo_writeSteps (htarget : files.target? name = some place)
    (h : performUpTo refusal (writeSteps name config node) files = (.error e, after)) :
    after.get? place = files.get? place := by
  obtain ⟨hplace, hnoDirectory⟩ := target?_eq_some.mp htarget
  by_cases htemporary : files.locate? (Name.temporary name) = some place
  · -- The temporary file is in place of the target, so there is a single step that writes it.
    have hplain : Name.isCompressed name = false := by
      by_contra hcompressed
      rw [Bool.not_eq_false] at hcompressed
      exact locate?_temporary_ne_of_isCompressed hcompressed hplace htemporary
    rcases performUpTo_append_eq_error h with hcontent | ⟨next, remaining, hcontent, hrename⟩
    · rw [hplain, contentSteps, if_neg Bool.false_ne_true] at hcontent
      rw [(performUpTo_singleton_eq_error hcontent).1]
    · -- Behind it, the file can be given the name that it has.
      exfalso
      have hwritable : files.target? (Name.temporary name) = some place :=
        target?_eq_some.mpr ⟨htemporary, hnoDirectory⟩
      obtain ⟨written, hrun, hbytes⟩ := performAll_contentSteps hwritable (Name.isCompressed name)
        (Utf8.encode (savedText name config node))
      rw [hcontent] at hrun
      cases hrun
      have hsame := sameDirectories_of_performAll hcontent
      have hnext : next.locate? (Name.temporary name) = some place := by
        rw [hsame.locate?, htemporary]
      have hread := read?_eq_some_iff.mpr ((find?_of_locate? hnext).trans hbytes)
      rcases (performUpTo_singleton_eq_error hrename).2 with hstep | hkeeps
      · simp [perform?, rename?, hread, hnext, hsame.target?, htarget] at hstep
      · simp [keepsName, hnext, hsame.locate?, hplace] at hkeeps
  · have helsewhere : ∀ pair ∈ contentSteps (Name.isCompressed name) (Name.temporary name)
        (Utf8.encode (savedText name config node)),
        ∀ other ∈ pair.1.names, files.locate? other ≠ some place := by
      intro pair hpair other hother
      rw [names_contentSteps pair hpair, List.mem_singleton] at hother
      rwa [hother]
    rcases performUpTo_append_eq_error h with hcontent | ⟨next, remaining, hcontent, hrename⟩
    · exact get?_of_performUpTo hcontent helsewhere
    · rw [(performUpTo_singleton_eq_error hrename).1]
      exact get?_of_performAll hcontent helsewhere

/-- **An attempt that fails leaves the target as it was.** -/
theorem find?_of_attempt_error (h : files.attempt request = (.error e, after)) :
    after.find? request.name = files.find? request.name := by
  rw [attempt] at h
  cases hplan : files.savePlan request.name request.config request.node with
  | error fault =>
    rw [hplan] at h
    cases h
    rfl
  | ok steps =>
    rw [hplan] at h
    have hrun : performUpTo request.refusal steps files = (.error e, after) := h
    have hsame := sameDirectories_of_performUpTo hrun
    apply hsame.find?_eq
    intro place hplace
    cases hdirectory : files.isDirectory place with
    | true =>
      have hafter := hsame.isDirectory place
      rw [hdirectory] at hafter
      simp only [isDirectory, beq_iff_eq] at hafter hdirectory
      rw [hafter, hdirectory]
    | false =>
      have htarget := target?_eq_some.mpr ⟨hplace, hdirectory⟩
      rcases savePlan_eq_ok hplan with ⟨rfl, -⟩ | ⟨-, -, backup, hbackup, rfl⟩
      · exact get?_of_performUpTo_writeSteps htarget hrun
      · -- The copy leaves the target alone, too.
        rw [← List.singleton_append] at hrun
        rcases performUpTo_append_eq_error hrun with hcopy | ⟨copied, remaining, hcopy, hwrite⟩
        · rw [(performUpTo_singleton_eq_error hcopy).1]
        · obtain ⟨next, hstep, hdone⟩ := performAll_cons_eq_ok hcopy
          cases hdone
          have hcopied := sameDirectories_of_perform? hstep
          rw [get?_of_performUpTo_writeSteps (by rw [hcopied.target?, htarget]) hwrite]
          apply get?_of_perform? hstep
          intro other hother hsame
          rw [FileStep.names, List.mem_singleton] at hother
          rw [hother] at hsame
          exact locate?_backup_ne hbackup hsame hplace

/-- The name stands for a file with the document: the bytes of the file are those of the tree, and
loading finds the text of the tree in them. -/
def HoldsDocument (files : FileSystem) (name : String) (config : Config) (node : Node) : Prop :=
  ∃ text bytes, Serializes name config node text bytes ∧ files.read? name = some bytes ∧
    files.documentText name = .ok text

/-- The text of a document is read back from the bytes that are saved. -/
theorem documentText_of_read? (h : files.read? name = some (savedBytes name config node)) :
    files.documentText name = .ok (savedText name config node) := by
  have hserializes := serializes_saved name config node
  have hfind := read?_eq_some_iff.mp h
  rw [documentText]
  cases hcompressed : Name.isCompressed name with
  | true =>
    rw [hserializes.compressed hcompressed] at hfind
    simp only [if_true, hfind, Gzip.text?_compress]
  | false =>
    rw [hserializes.plain hcompressed] at h
    rw [if_neg Bool.false_ne_true, readText?, h, Option.bind_some, Utf8.decode?_encode]

/-- A file with the saved bytes holds the document. -/
theorem holdsDocument_of_read? (h : files.read? name = some (savedBytes name config node)) :
    files.HoldsDocument name config node :=
  ⟨_, _, serializes_saved name config node, h, documentText_of_read? h⟩

/-- A file that holds a document and is not compressed has the text of the tree and a line break behind
it, when the text does not end with one. -/
theorem HoldsDocument.read?_of_unended {text : String} (h : files.HoldsDocument name config node)
    (hplain : Name.isCompressed name = false)
    (hrender : (Format.ofName name).render config node = text)
    (hunended : text.toList.getLast? ≠ some '\n') :
    files.read? name = some (Utf8.encode (text ++ "\n")) := by
  obtain ⟨saved, bytes, hserializes, hread, -⟩ := h
  subst hrender
  rw [hread, hserializes.plain hplain, hserializes.unended hunended]

/-- What a request leaves when it succeeds: the document under its name, and in the backup that is
wanted, where there was something to copy, the bytes that the target had. -/
structure Fulfilled (files after : FileSystem) (request : SaveRequest) : Prop where
  document : after.HoldsDocument request.name request.config request.node
  backup : request.config.createBackup = true → (files.find? request.name).isSome = true →
    ∃ backup old, Name.backup? request.name = some backup ∧
      files.find? request.name = some (.file old) ∧ after.find? backup = some (.file old)

/-- An attempt that succeeds leaves the bytes of the document under the name of the target. -/
theorem read?_of_attempt (h : files.attempt request = (.ok (), after)) :
    after.read? request.name = some (savedBytes request.name request.config request.node) := by
  have hsave := save_of_attempt h
  obtain ⟨steps, -, hrun⟩ := save_eq_ok hsave
  obtain ⟨place, temporary, hwritten, -⟩ := written_of_save hsave
  have hplace := (target?_eq_some.mp hwritten.isTarget).1
  have hafter : after.locate? request.name = some place := by
    rw [(sameDirectories_of_performAll hrun).locate?, hplace]
  rw [read?_eq_some_iff, find?_of_locate? hafter]
  exact hwritten.content

/-- **An attempt that succeeds leaves the whole document.** -/
theorem fulfilled_of_attempt (h : files.attempt request = (.ok (), after)) :
    Fulfilled files after request where
  document := holdsDocument_of_read? (read?_of_attempt h)
  backup := by
    intro hon hexists
    have hsave := save_of_attempt h
    obtain ⟨steps, -, hrun⟩ := save_eq_ok hsave
    obtain ⟨-, -, -, hbackup⟩ := written_of_save hsave
    obtain ⟨backup, spot, old, hname, hspot, hold, hcopied⟩ := hbackup hon hexists
    refine ⟨backup, old, hname, hold, ?_⟩
    have hafter : after.locate? backup = some spot := by
      rw [(sameDirectories_of_performAll hrun).locate?, hspot]
    rw [find?_of_locate? hafter]
    exact hcopied

/-- Along attempts for one name, the target has the bytes of the last successful one, and what it had
at first as long as none has succeeded. -/
theorem find?_afterAttempts (files : FileSystem) {requests : List SaveRequest}
    (hname : ∀ request ∈ requests, request.name = name) :
    (files.afterAttempts requests).find? name =
      match files.lastFulfilled? requests with
      | some request => some (.file (savedBytes name request.config request.node))
      | none => files.find? name := by
  induction requests generalizing files with
  | nil => rfl
  | cons request rest ih =>
    have hfirst : request.name = name := hname request List.mem_cons_self
    have hrest := fun next => ih next fun other hother => hname other (List.mem_cons_of_mem _ hother)
    rw [afterAttempts, List.foldl_cons, ← afterAttempts, hrest, lastFulfilled?]
    rcases hattempt : files.attempt request with ⟨result, next⟩
    cases result with
    | error e =>
      have hkept := find?_of_attempt_error hattempt
      rw [hfirst] at hkept
      simp only [hkept]
    | ok =>
      have hbytes := read?_eq_some_iff.mp (read?_of_attempt hattempt)
      rw [hfirst] at hbytes
      cases hlast : next.lastFulfilled? rest with
      | none => simp [hbytes, hlast]
      | some last => simp [hlast]

/-- **Along attempts for one name, the target holds the document of the last successful one**, and what
it held at first as long as none has succeeded. -/
theorem holds_afterAttempts (files : FileSystem) {requests : List SaveRequest}
    (hname : ∀ request ∈ requests, request.name = name) :
    match files.lastFulfilled? requests with
    | some last => (files.afterAttempts requests).HoldsDocument name last.config last.node
    | none => (files.afterAttempts requests).find? name = files.find? name := by
  have hfind := find?_afterAttempts files hname
  cases hlast : files.lastFulfilled? requests with
  | none =>
    rw [hlast] at hfind
    exact hfind
  | some last =>
    rw [hlast] at hfind
    exact holdsDocument_of_read? (read?_eq_some_iff.mpr hfind)

/-- **Saving is all or nothing.**  An attempt that nothing refuses is a save.  Whatever was saved
before, an attempt either succeeds and leaves the whole document, together with a backup where one is
wanted and there was something to copy, or it fails and the target is as it was.  What the target was
before is known from the earlier attempts for its name. -/
theorem attempt_all_or_nothing (start : FileSystem) (earlier : List SaveRequest)
    (request : SaveRequest) :
    (∀ name config node, (start.afterAttempts earlier).attempt ⟨name, config, node, none⟩ =
      (start.afterAttempts earlier).save name config node) ∧
    (∀ after, (start.afterAttempts earlier).attempt request = (.ok (), after) →
      Fulfilled (start.afterAttempts earlier) after request) ∧
    (∀ e after, (start.afterAttempts earlier).attempt request = (.error e, after) →
      after.find? request.name = (start.afterAttempts earlier).find? request.name) ∧
    ((∀ other ∈ earlier, other.name = request.name) →
      match start.lastFulfilled? earlier with
      | some last => (start.afterAttempts earlier).HoldsDocument request.name last.config last.node
      | none => (start.afterAttempts earlier).find? request.name = start.find? request.name) :=
  ⟨attempt_of_no_refusal _, fun _ h => fulfilled_of_attempt h, fun _ _ h => find?_of_attempt_error h,
    fun hname => holds_afterAttempts start hname⟩

/-- A tree with an entry and a sequence. -/
def listed : Node := .mapping [("a", .sequence [.ofInt64 1, .ofBool true])]

/-- A save with a backup that the file system refuses behind the copy. -/
def refusedSave : SaveRequest := ⟨"doc.json", { createBackup := true }, listed, some 1⟩

/-- The same save once more, with nothing to refuse it. -/
def repeatedSave : SaveRequest := ⟨"doc.json", { createBackup := true }, listed, none⟩

/-- A save of the tree in the other format, under the name of a compressed file. -/
def compressedSave : SaveRequest := ⟨"doc.yaml.gz", {}, listed, none⟩

/-- The refused save leaves the old file, the repeated one the text of the tree with a line break behind
it and the old bytes in the backup.  The compressed document is compressed, and its text ends with the
line break of its format. -/
theorem attempt_all_or_nothing_sample :
    (neighbours.afterAttempts [refusedSave]).read? "doc.json" = some [123, 125] ∧
      (neighbours.afterAttempts [refusedSave, repeatedSave]).read? "doc.json" =
        some (Utf8.encode "\x7b\n  \"a\": [\n    1,\n    true\n  ]\n\x7d\n") ∧
      (neighbours.afterAttempts [refusedSave, repeatedSave]).find? "doc.json.bak" =
        some (.file [123, 125]) ∧
      (neighbours.afterAttempts [compressedSave]).read? "doc.yaml.gz" =
        some (Gzip.compress (Utf8.encode "a:\n- 1\n- true\n")) ∧
      (neighbours.afterAttempts [compressedSave]).documentText "doc.yaml.gz" =
        .ok "a:\n- 1\n- true\n" := by
  have hjson : (Format.ofName "doc.json").render { createBackup := true } listed =
      "\x7b\n  \"a\": [\n    1,\n    true\n  ]\n\x7d" := by decide +kernel
  have hyaml : (Format.ofName "doc.yaml.gz").render {} listed = "a:\n- 1\n- true\n" := by
    decide +kernel
  obtain ⟨-, -, hrefused, -⟩ := attempt_all_or_nothing neighbours [] refusedSave
  obtain ⟨-, hdone, -, -⟩ := attempt_all_or_nothing neighbours [refusedSave] repeatedSave
  obtain ⟨-, -, -, hlast⟩ := attempt_all_or_nothing neighbours [compressedSave] compressedSave
  have hattempt : (neighbours.afterAttempts [refusedSave]).attempt repeatedSave =
      (.ok (), neighbours.afterAttempts [refusedSave, repeatedSave]) := rfl
  have hkept := hrefused .temporaryFile _ rfl
  obtain ⟨hdocument, hbackup⟩ := hdone _ hattempt
  have hread := hdocument.read?_of_unended (by decide) hjson (by decide)
  obtain ⟨text, archive, (hpacked : Serializes "doc.yaml.gz" {} listed text archive), harchive,
    hunpacked⟩ := hlast (by simp)
  -- Unlike the text of the other format, this one ends with its own line break.
  have hlines := hpacked.ended (by rw [hyaml]; decide)
  rw [hyaml] at hlines
  rw [hpacked.compressed (by decide), hlines] at harchive
  rw [hlines] at hunpacked
  refine ⟨read?_eq_some_iff.mpr hkept, hread, ?_, harchive, hunpacked⟩
  obtain ⟨backup, old, hname, hold, hcopied⟩ := hbackup rfl rfl
  have hbak : Name.backup? "doc.json" = some "doc.json.bak" := by decide
  obtain rfl : "doc.json.bak" = backup := Option.some.inj (hbak.symm.trans hname)
  obtain rfl : [123, 125] = old := Item.file.inj (Option.some.inj hold)
  exact hcopied

end FileSystem

end TreePath
