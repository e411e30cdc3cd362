import TreePath.Storage.Name

/-!
# File systems

A file system has files and directories at locations, which are the names on the way from the root.
The root is always a directory.  A name leads to a location from the root or from the working
directory; everything on the way has to be a directory, but nothing has to be at the location
itself.

Each operation either succeeds as a whole or leaves no file system at all.
-/

set_option autoImplicit false

namespace TreePath

/-- The names on the way from the root. -/
abbrev Location := List String

/-- What is at a location. -/
inductive Item where
  | file (content : List UInt8)
  | directory
  deriving DecidableEq, Repr

/-- Files and directories, and the directory where names start that do not start at the root. -/
structure FileSystem where
  items : List (Location × Item)
  working : Location
  deriving DecidableEq, Repr

namespace FileSystem

/-- What is at a location. -/
def get? (files : FileSystem) (place : Location) : Option Item :=
  if place = [] then some .directory else files.items.lookup place

/-- Stores an item in place of what is there. -/
def putItem (place : Location) (item : Item) : List (Location × Item) → List (Location × Item)
  | [] => [(place, item)]
  | (p, i) :: rest => if p = place then (place, item) :: rest else (p, i) :: putItem place item rest

/-- The file system with an item at a location other than the root. -/
def put (files : FileSystem) (place : Location) (item : Item) : FileSystem :=
  { files with items := putItem place item files.items }

/-- The file system without the item at a location. -/
def remove (files : FileSystem) (place : Location) : FileSystem :=
  { files with items := files.items.filter fun entry => entry.1 != place }

/-- There is a directory at the location. -/
def isDirectory (files : FileSystem) (place : Location) : Bool :=
  files.get? place == some .directory

/-- The longest name of a file or directory, in bytes. -/
def partLimit : Nat := 255

/-- The length of a name that is too long, in bytes. -/
def nameLimit : Nat := 4096

/-- Follows the parts of a name from a location. -/
def walk? (files : FileSystem) : Location → List String → Option Location
  | here, [] => some here
  | here, part :: parts =>
    if files.isDirectory here then
      if Name.isIdle part then walk? files here parts
      else if part = ".." then walk? files here.dropLast parts
      else if partLimit < part.utf8ByteSize then none
      else walk? files (here ++ [part]) parts
    else none

/-- A name that can be followed. -/
def isUsable (name : String) : Bool :=
  !name.isEmpty && name.utf8ByteSize < nameLimit && !name.toList.contains '\x00'

/-- The location where a name starts. -/
def startOf (files : FileSystem) (name : String) : Location :=
  if name.toList.head? = some '/' then [] else files.working

/-- The location of a name. -/
def locate? (files : FileSystem) (name : String) : Option Location :=
  if isUsable name then files.walk? (files.startOf name) (Name.parts name) else none

/-- What a name stands for. -/
def find? (files : FileSystem) (name : String) : Option Item :=
  (files.locate? name).bind files.get?

/-- The content of a file. -/
def read? (files : FileSystem) (name : String) : Option (List UInt8) :=
  match files.find? name with
  | some (.file content) => some content
  | _ => none

/-- The location where a name allows a file. -/
def target? (files : FileSystem) (name : String) : Option Location := do
  let place ← files.locate? name
  if files.isDirectory place then none else some place

/-- Writes a file. -/
def write? (files : FileSystem) (name : String) (content : List UInt8) : Option FileSystem :=
  (files.target? name).map fun place => files.put place (.file content)

/-- Copies a file. -/
def copy? (files : FileSystem) (source target : String) : Option FileSystem := do
  files.write? target (← files.read? source)

/-- Gives a file another name, in place of a file that has it. -/
def rename? (files : FileSystem) (source target : String) : Option FileSystem := do
  let content ← files.read? source
  let old ← files.locate? source
  let new ← files.target? target
  return (files.remove old).put new (.file content)

/-- Makes the directories on the way of the parts that are missing, and says whether the way could be
gone to its end. -/
def makeDirectories (files : FileSystem) : Location → List String → Bool × FileSystem
  | here, [] => (files.isDirectory here, files)
  | here, part :: parts =>
    if Name.isIdle part then makeDirectories files here parts
    else if part = ".." then makeDirectories files here.dropLast parts
    else
      let next := here ++ [part]
      match files.get? next with
      | some .directory => makeDirectories files next parts
      | some (.file _) => (false, files)
      | none =>
        if partLimit < part.utf8ByteSize then (false, files)
        else makeDirectories (files.put next .directory) next parts

/-- Makes the directory of this name and those above it. -/
def makeDirectory (files : FileSystem) (name : String) : Bool × FileSystem :=
  files.makeDirectories (files.startOf name) (Name.parts name)

/-- Makes the directory that a file of this name is in. -/
def makeParent (files : FileSystem) (name : String) : Bool × FileSystem :=
  files.makeDirectories (files.startOf name) (Name.activeParts name).dropLast

/-- Nothing but a working directory. -/
def empty (working : Location) : FileSystem := ⟨[(working, .directory)], working⟩

/-- What is below the working directory, with names from there, sorted; the names of directories end
in a slash. -/
def listing (files : FileSystem) : List (String × Item) :=
  let below := files.items.filterMap fun (place, item) =>
    if files.working.isPrefixOf place && files.working.length < place.length then
      let name := String.intercalate "/" (place.drop files.working.length)
      some (if item == .directory then (name ++ "/", item) else (name, item))
    else none
  below.mergeSort fun a b => a.1 ≤ b.1

end FileSystem

/-- One change of a file system. -/
inductive FileStep where
  | copy (source target : String)
  | write (target : String) (content : List UInt8)
  | rename (source target : String)
  deriving DecidableEq, Repr

namespace FileSystem

/-- Makes a change. -/
def perform? (files : FileSystem) : FileStep → Option FileSystem
  | .copy source target => files.copy? source target
  | .write target content => files.write? target content
  | .rename source target => files.rename? source target

/-- Makes changes one after another, up to the first that fails. -/
def performAll {ε : Type} : List (FileStep × ε) → FileSystem → Except ε Unit × FileSystem
  | [], files => (.ok (), files)
  | (step, fault) :: steps, files =>
    match files.perform? step with
    | some files => performAll steps files
    | none => (.error fault, files)

end FileSystem

end TreePath
