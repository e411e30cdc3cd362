import TreePath.Storage.FileSystem

/-!
# What steps do to a file system

A step writes, copies or renames files and never makes or removes a directory.  So the directories
are the same before and after it, and every name keeps its location (`SameDirectories.locate?`).
This is why a whole run of steps can be followed at the locations that its names have before the run.

A step changes nothing at a location that none of its names has (`get?_of_perform?`), and the same is
true of a run (`get?_of_performAll`).  What is at the changed locations afterwards is told by
`write?_eq_some`, `copy?_eq_some` and `rename?_eq_some`.

`performUpTo` is a run in which the file system may refuse a step of its own accord, for want of space
or of permission.  Such a run either makes all of its steps or stops behind some of them
(`exists_prefix_performUpTo`).
-/

set_option autoImplicit false

namespace TreePath

namespace FileSystem

variable {files next after : FileSystem} {place other : Location} {item : Item} {name : String}
  {content : List UInt8}

/-! ## Items at locations -/

/-- An item that was stored is found at its location. -/
theorem lookup_putItem_self (place : Location) (item : Item) (items : List (Location × Item)) :
    (putItem place item items).lookup place = some item := by
  induction items with
  | nil => simp [putItem]
  | cons entry rest ih =>
    obtain ⟨p, i⟩ := entry
    by_cases h : p = place
    · simp [putItem, h]
    · have hne : (place == p) = false := by simpa using fun heq => h heq.symm
      rw [putItem, if_neg h, List.lookup_cons, hne, ih]

/-- Storing an item leaves what is at the other locations. -/
theorem lookup_putItem_of_ne (hne : other ≠ place) (item : Item)
    (items : List (Location × Item)) :
    (putItem place item items).lookup other = items.lookup other := by
  have hother : (other == place) = false := by simpa using hne
  induction items with
  | nil => rw [putItem, List.lookup_cons, hother]
  | cons entry rest ih =>
    obtain ⟨p, i⟩ := entry
    by_cases h : p = place
    · rw [putItem, if_pos h, List.lookup_cons, List.lookup_cons, h, hother]
    · rw [putItem, if_neg h, List.lookup_cons, List.lookup_cons, ih]

/-- What was put at a location other than the root is there. -/
theorem get?_put_self (h : place ≠ []) (files : FileSystem) (item : Item) :
    (files.put place item).get? place = some item := by
  rw [get?, if_neg h]
  exact lookup_putItem_self place item files.items

/-- Putting an item leaves what is at the other locations. -/
theorem get?_put_of_ne (hne : other ≠ place) (files : FileSystem) (item : Item) :
    (files.put place item).get? other = files.get? other := by
  rw [get?, get?, put, lookup_putItem_of_ne hne]

/-- Nothing is at a location whose item was removed. -/
theorem get?_remove_self (h : place ≠ []) (files : FileSystem) :
    (files.remove place).get? place = none := by
  rw [get?, if_neg h, List.lookup_eq_none_iff]
  intro entry hentry
  have hkept : (entry.1 != place) = true := (List.mem_filter.mp hentry).2
  simpa using fun heq : place = entry.1 => by simp [heq] at hkept

/-- Removing an item leaves what is at the other locations. -/
theorem get?_remove_of_ne (hne : other ≠ place) (files : FileSystem) :
    (files.remove place).get? other = files.get? other := by
  have hlookup : ∀ items : List (Location × Item),
      (items.filter fun entry => entry.1 != place).lookup other = items.lookup other := by
    intro items
    induction items with
    | nil => rfl
    | cons entry rest ih =>
      obtain ⟨p, i⟩ := entry
      by_cases h : p = place
      · have hother : (other == p) = false := by simpa [h] using hne
        rw [List.filter_cons_of_neg (by simp [h]), ih, List.lookup_cons, hother]
      · rw [List.filter_cons_of_pos (by simpa using h), List.lookup_cons, List.lookup_cons, ih]
  rw [get?, get?, remove, hlookup]

/-- The root is a directory, so a location that is none is not the root. -/
theorem ne_nil_of_not_isDirectory (h : files.isDirectory place = false) : place ≠ [] := by
  rintro rfl
  exact absurd h (by simp [isDirectory, get?])

/-! ## The same directories -/

/-- Two file systems have their directories at the same locations, and names start alike. -/
structure SameDirectories (files next : FileSystem) : Prop where
  working : next.working = files.working
  isDirectory : ∀ place, next.isDirectory place = files.isDirectory place

namespace SameDirectories

/-- A file system has the directories that it has. -/
theorem refl (files : FileSystem) : SameDirectories files files := ⟨rfl, fun _ => rfl⟩

/-- Two runs that leave the directories alone do so one after the other. -/
theorem trans (h : SameDirectories files next) (hafter : SameDirectories next after) :
    SameDirectories files after :=
  ⟨hafter.working.trans h.working,
    fun place => (hafter.isDirectory place).trans (h.isDirectory place)⟩

/-- The way along the parts of a name depends on directories only. -/
theorem walk? (h : SameDirectories files next) (here : Location) (parts : List String) :
    next.walk? here parts = files.walk? here parts := by
  induction parts generalizing here with
  | nil => rfl
  | cons part rest ih => simp only [FileSystem.walk?, h.isDirectory, ih]

/-- A name keeps its location as long as the directories are the same. -/
theorem locate? (h : SameDirectories files next) (name : String) :
    next.locate? name = files.locate? name := by
  simp only [FileSystem.locate?, startOf, h.working, h.walk?]

/-- A name goes on allowing a file at the same location. -/
theorem target? (h : SameDirectories files next) (name : String) :
    next.target? name = files.target? name := by
  simp only [FileSystem.target?, h.locate?, h.isDirectory]

/-- A name that has no location, or whose location is unchanged, stands for the same as before. -/
theorem find?_eq (h : SameDirectories files next) {name : String}
    (hplace : ∀ place, files.locate? name = some place → next.get? place = files.get? place) :
    next.find? name = files.find? name := by
  rw [find?, find?, h.locate?]
  cases hlocate : files.locate? name with
  | none => rfl
  | some place => exact hplace place hlocate

end SameDirectories

/-- Putting a file at a location that is no directory leaves the directories alone. -/
theorem sameDirectories_put (h : files.isDirectory place = false) (content : List UInt8) :
    SameDirectories files (files.put place (.file content)) where
  working := rfl
  isDirectory := by
    intro other
    by_cases hother : other = place
    · subst hother
      rw [h, isDirectory, get?_put_self (ne_nil_of_not_isDirectory h)]
      rfl
    · rw [isDirectory, isDirectory, get?_put_of_ne hother]

/-- Removing an item that is no directory leaves the directories alone. -/
theorem sameDirectories_remove (h : files.isDirectory place = false) :
    SameDirectories files (files.remove place) where
  working := rfl
  isDirectory := by
    intro other
    by_cases hother : other = place
    · subst hother
      rw [h, isDirectory, get?_remove_self (ne_nil_of_not_isDirectory h)]
      rfl
    · rw [isDirectory, isDirectory, get?_remove_of_ne hother]

/-! ## What an operation needs and what it leaves -/

/-- A name allows a file where it leads to, unless a directory is there. -/
theorem target?_eq_some :
    files.target? name = some place ↔
      files.locate? name = some place ∧ files.isDirectory place = false := by
  rw [target?]
  cases files.locate? name with
  | none => simp
  | some p =>
    by_cases hp : files.isDirectory p
    · simp only [Option.bind_eq_bind, Option.bind_some, if_pos hp, Option.some.injEq]
      constructor
      · intro h
        cases h
      · rintro ⟨rfl, hplace⟩
        rw [hp] at hplace
        cases hplace
    · simp only [Option.bind_eq_bind, Option.bind_some, if_neg hp, Option.some.injEq]
      constructor
      · rintro rfl
        exact ⟨rfl, by simpa using hp⟩
      · exact fun h => h.1

/-- A file can be read when its name stands for a file. -/
theorem read?_eq_some_iff :
    files.read? name = some content ↔ files.find? name = some (.file content) := by
  rw [read?]
  cases files.find? name with
  | none => simp
  | some item => cases item <;> simp

/-- A name stands for what is at its location. -/
theorem find?_of_locate? (hname : files.locate? name = some place) :
    files.find? name = files.get? place := by
  rw [find?, hname, Option.bind_some]

/-- Where a file is there is no directory. -/
theorem not_isDirectory_of_file (h : files.get? place = some (.file content)) :
    files.isDirectory place = false := by
  rw [isDirectory, h]
  rfl

/-- A successful write puts the content where the name allows a file. -/
theorem write?_eq_some (h : files.write? name content = some next) :
    ∃ place, files.target? name = some place ∧ next = files.put place (.file content) := by
  obtain ⟨place, hplace, rfl⟩ := Option.map_eq_some_iff.mp h
  exact ⟨place, hplace, rfl⟩

/-- A successful copy puts the content of the source where the name of the target allows a file. -/
theorem copy?_eq_some {source target : String} (h : files.copy? source target = some next) :
    ∃ content place, files.read? source = some content ∧ files.target? target = some place ∧
      next = files.put place (.file content) := by
  obtain ⟨content, hcontent, hwrite⟩ := Option.bind_eq_some_iff.mp h
  obtain ⟨place, hplace, rfl⟩ := write?_eq_some hwrite
  exact ⟨content, place, hcontent, hplace, rfl⟩

/-- A successful renaming takes the file away from its old location and puts it where the new name
allows a file. -/
theorem rename?_eq_some {source target : String} (h : files.rename? source target = some next) :
    ∃ content old new, files.locate? source = some old ∧ files.get? old = some (.file content) ∧
      files.target? target = some new ∧ next = (files.remove old).put new (.file content) := by
  obtain ⟨content, hcontent, hrest⟩ := Option.bind_eq_some_iff.mp h
  obtain ⟨old, hold, hrest⟩ := Option.bind_eq_some_iff.mp hrest
  obtain ⟨new, hnew, hnext⟩ := Option.bind_eq_some_iff.mp hrest
  rw [read?_eq_some_iff, find?_of_locate? hold] at hcontent
  exact ⟨content, old, new, hold, hcontent, hnew, (Option.some.inj hnext).symm⟩

end FileSystem

/-! ## Steps and runs -/

/-- The names whose locations a step may change. -/
def FileStep.names : FileStep → List String
  | copy _ target => [target]
  | write target _ => [target]
  | rename source target => [source, target]

namespace FileSystem

variable {ε : Type} {files next after : FileSystem} {place : Location} {step : FileStep}
  {steps done left : List (FileStep × ε)} {e : ε} {result : Except ε Unit}

/-- **A step leaves the directories as they are.** -/
theorem sameDirectories_of_perform? (h : files.perform? step = some next) :
    SameDirectories files next := by
  cases step with
  | copy source target =>
    obtain ⟨content, place, -, hplace, rfl⟩ := copy?_eq_some h
    exact sameDirectories_put (target?_eq_some.mp hplace).2 content
  | write target content =>
    obtain ⟨place, hplace, rfl⟩ := write?_eq_some h
    exact sameDirectories_put (target?_eq_some.mp hplace).2 content
  | rename source target =>
    obtain ⟨content, old, new, -, hold, hnew, rfl⟩ := rename?_eq_some h
    have hremoved := sameDirectories_remove (not_isDirectory_of_file hold)
    have hplace := (hremoved.isDirectory new).trans (target?_eq_some.mp hnew).2
    exact hremoved.trans (sameDirectories_put hplace content)

/-- **A step changes nothing at a location that none of its names has.** -/
theorem get?_of_perform? (h : files.perform? step = some next)
    (hplace : ∀ name ∈ step.names, files.locate? name ≠ some place) :
    next.get? place = files.get? place := by
  cases step with
  | copy source target =>
    obtain ⟨content, target', -, htarget, rfl⟩ := copy?_eq_some h
    apply get?_put_of_ne
    rintro rfl
    exact hplace target (by simp [FileStep.names]) (target?_eq_some.mp htarget).1
  | write target content =>
    obtain ⟨target', htarget, rfl⟩ := write?_eq_some h
    apply get?_put_of_ne
    rintro rfl
    exact hplace target (by simp [FileStep.names]) (target?_eq_some.mp htarget).1
  | rename source target =>
    obtain ⟨content, old, new, hold, -, hnew, rfl⟩ := rename?_eq_some h
    have hnotNew : place ≠ new := by
      rintro rfl
      exact hplace target (by simp [FileStep.names]) (target?_eq_some.mp hnew).1
    have hnotOld : place ≠ old := by
      rintro rfl
      exact hplace source (by simp [FileStep.names]) hold
    rw [get?_put_of_ne hnotNew, get?_remove_of_ne hnotOld]

/-- A run whose first step succeeds goes on with the others from the file system that this step left.
-/
theorem performAll_cons_some (h : files.perform? step = some next) (fault : ε)
    (rest : List (FileStep × ε)) :
    performAll ((step, fault) :: rest) files = performAll rest next := by
  rw [performAll, h]

/-- The first step of a successful run succeeds, and so do the others behind it. -/
theorem performAll_cons_eq_ok {fault : ε}
    (h : performAll ((step, fault) :: steps) files = (.ok (), after)) :
    ∃ next, files.perform? step = some next ∧ performAll steps next = (.ok (), after) := by
  rw [performAll] at h
  cases hstep : files.perform? step with
  | none =>
    rw [hstep] at h
    cases h
  | some next =>
    rw [hstep] at h
    exact ⟨next, rfl, h⟩

/-- A successful run makes its first steps successfully, and then the others from where these led. -/
theorem performAll_append_eq_ok (h : performAll (done ++ left) files = (.ok (), after)) :
    ∃ next, performAll done files = (.ok (), next) ∧ performAll left next = (.ok (), after) := by
  induction done generalizing files with
  | nil => exact ⟨files, rfl, h⟩
  | cons pair rest ih =>
    obtain ⟨step, fault⟩ := pair
    obtain ⟨next, hstep, hrest⟩ := performAll_cons_eq_ok h
    rw [performAll_cons_some hstep]
    exact ih hrest

/-- **A run leaves the directories as they are**, whether it succeeds or stops. -/
theorem sameDirectories_of_performAll (h : performAll steps files = (result, after)) :
    SameDirectories files after := by
  induction steps generalizing files with
  | nil =>
    cases h
    exact .refl _
  | cons pair rest ih =>
    obtain ⟨step, fault⟩ := pair
    rw [performAll] at h
    cases hstep : files.perform? step with
    | none =>
      rw [hstep] at h
      cases h
      exact .refl _
    | some next =>
      rw [hstep] at h
      exact (sameDirectories_of_perform? hstep).trans (ih h)

/-- **A run changes nothing at a location that none of its names has**, whether it succeeds or
stops. -/
theorem get?_of_performAll (h : performAll steps files = (result, after))
    (hplace : ∀ pair ∈ steps, ∀ name ∈ pair.1.names, files.locate? name ≠ some place) :
    after.get? place = files.get? place := by
  induction steps generalizing files with
  | nil =>
    cases h
    rfl
  | cons pair rest ih =>
    obtain ⟨step, fault⟩ := pair
    rw [performAll] at h
    cases hstep : files.perform? step with
    | none =>
      rw [hstep] at h
      cases h
      rfl
    | some next =>
      rw [hstep] at h
      -- The names have the same locations after the step.
      have hnext : ∀ pair ∈ rest, ∀ name ∈ pair.1.names, next.locate? name ≠ some place := by
        intro pair hpair name hname
        rw [(sameDirectories_of_perform? hstep).locate?]
        exact hplace pair (List.mem_cons_of_mem _ hpair) name hname
      exact (ih h hnext).trans (get?_of_perform? hstep (hplace _ List.mem_cons_self))

/-! ## Runs that are refused -/

/-- The step gives a file the name that it has.  POSIX lets such a rename succeed and do nothing, so
there is no change that a full disk or a missing permission could refuse.  This is the last step of
a save whose target is its own temporary file. -/
def keepsName (files : FileSystem) : FileStep → Bool
  | .rename source target => files.locate? source == files.locate? target
  | _ => false

/-- Makes changes one after another, up to the first that fails.  After the given number of changes
the file system also refuses, of its own accord, every change that does anything.  The rename of a
file onto itself does nothing and is never refused, whatever the number is (`keepsName`). -/
def performUpTo : Option Nat → List (FileStep × ε) → FileSystem → Except ε Unit × FileSystem
  | _, [], files => (.ok (), files)
  | refusal, (step, fault) :: steps, files =>
    if refusal = some 0 ∧ files.keepsName step = false then (.error fault, files)
    else
      match files.perform? step with
      | some files => performUpTo (refusal.map (· - 1)) steps files
      | none => (.error fault, files)

/-- A run in which the file system refuses nothing of its own accord is one of all steps. -/
theorem performUpTo_none (steps : List (FileStep × ε)) (files : FileSystem) :
    performUpTo none steps files = performAll steps files := by
  induction steps generalizing files with
  | nil => rfl
  | cons pair rest ih =>
    obtain ⟨step, fault⟩ := pair
    rw [performUpTo, performAll, if_neg (by simp)]
    cases files.perform? step with
    | none => rfl
    | some next => exact ih next

/-- A successful run has made all of its steps, wherever a refusal was meant to come. -/
theorem performAll_of_performUpTo_eq_ok {refusal : Option Nat}
    (h : performUpTo refusal steps files = (.ok (), after)) :
    performAll steps files = (.ok (), after) := by
  fun_induction performUpTo refusal steps files with
  | case1 => exact h
  | case2 => cases h
  | case3 refusal step fault rest files hrefusal next hstep ih =>
    rw [performAll_cons_some hstep]
    exact ih h
  | case4 => cases h

/-- A run that may be refused has made the steps in front of the one that it stops at. -/
theorem exists_prefix_of_performUpTo {refusal : Option Nat}
    (h : performUpTo refusal steps files = (result, after)) :
    ∃ done, done <+: steps ∧ performAll done files = (.ok (), after) := by
  fun_induction performUpTo refusal steps files with
  | case1 =>
    cases h
    exact ⟨[], List.nil_prefix, rfl⟩
  | case2 =>
    cases h
    exact ⟨[], List.nil_prefix, rfl⟩
  | case3 refusal step fault rest files hrefusal next hstep ih =>
    obtain ⟨done, hdone, hrun⟩ := ih h
    refine ⟨(step, fault) :: done, (List.prefix_cons_inj _).mpr hdone, ?_⟩
    rw [performAll_cons_some hstep, hrun]
  | case4 =>
    cases h
    exact ⟨[], List.nil_prefix, rfl⟩

/-- A run leaves the directories alone, also when it stops before its end. -/
theorem sameDirectories_of_performUpTo {refusal : Option Nat}
    (h : performUpTo refusal steps files = (result, after)) : SameDirectories files after := by
  obtain ⟨done, -, hrun⟩ := exists_prefix_of_performUpTo h
  exact sameDirectories_of_performAll hrun

/-- A run leaves what is at a location that none of its names has, also when it stops before its end.
-/
theorem get?_of_performUpTo {refusal : Option Nat}
    (h : performUpTo refusal steps files = (result, after))
    (hplace : ∀ pair ∈ steps, ∀ name ∈ pair.1.names, files.locate? name ≠ some place) :
    after.get? place = files.get? place := by
  obtain ⟨done, hdone, hrun⟩ := exists_prefix_of_performUpTo h
  exact get?_of_performAll hrun fun pair hpair => hplace pair (hdone.subset hpair)

/-- A run fails in its first part, or it makes the first part and fails in the second. -/
theorem performUpTo_append_eq_error {refusal : Option Nat}
    (h : performUpTo refusal (done ++ left) files = (.error e, after)) :
    performUpTo refusal done files = (.error e, after) ∨
      ∃ next remaining, performAll done files = (.ok (), next) ∧
        performUpTo remaining left next = (.error e, after) := by
  induction done generalizing refusal files with
  | nil => exact .inr ⟨files, refusal, rfl, h⟩
  | cons pair rest ih =>
    obtain ⟨step, fault⟩ := pair
    rw [List.cons_append, performUpTo] at h
    rw [performUpTo]
    split at h
    next hrefused => exact .inl (by rwa [if_pos hrefused])
    next hrefused =>
      rw [if_neg hrefused, performAll]
      cases hstep : files.perform? step with
      | none =>
        rw [hstep] at h
        exact .inl h
      | some next =>
        rw [hstep] at h
        exact ih h

/-- A step that fails leaves everything as it is.  It is impossible or refused. -/
theorem performUpTo_singleton_eq_error {refusal : Option Nat} {fault : ε}
    (h : performUpTo refusal [(step, fault)] files = (.error e, after)) :
    after = files ∧ (files.perform? step = none ∨ files.keepsName step = false) := by
  rw [performUpTo] at h
  split at h
  next hrefused =>
    cases h
    exact ⟨rfl, .inr hrefused.2⟩
  next =>
    cases hstep : files.perform? step with
    | none =>
      rw [hstep] at h
      cases h
      exact ⟨rfl, .inl rfl⟩
    | some next =>
      rw [hstep] at h
      cases h

end FileSystem

end TreePath
