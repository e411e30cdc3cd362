import TreePath.Gzip.Member
import TreePath.Storage.FileSystem
import TreePath.Utf8

/-!
# Saving documents

A document is written to a temporary file, which then takes the name of the target, so that the
target never holds a part of it.  A compressed document is written in three steps, and any of them
may fail.  Where the settings ask for it, the old file is copied first.
-/

set_option autoImplicit false

namespace TreePath

/-- Why a document could not be saved. -/
inductive SaveError where
  /-- the target has no name that a backup could take -/
  | invalidName
  | backup
  | temporaryFile
  /-- the temporary file of a compressed document -/
  | temporaryArchive
  | compressedData
  | compressionEnd
  | replacement
  deriving DecidableEq, Repr

/-- The words for the error. -/
def SaveError.message : SaveError → String
  | invalidName => "Invalid file name"
  | backup => "Failed to create backup"
  | temporaryFile => "Failed to write temp file"
  | temporaryArchive => "Failed to create temp file"
  | compressedData => "Failed to write compressed data"
  | compressionEnd => "Failed to finish compression"
  | replacement => "Failed to rename temp file"

/-- A text with a line break at its end. -/
def endLine (text : String) : String :=
  if text.toList.getLast? = some '\n' then text else text ++ "\n"

/-- The text of a saved document. -/
def savedText (name : String) (config : Config) (node : Node) : String :=
  endLine ((Format.ofName name).render config node)

/-- The bytes of a saved document. -/
def savedBytes (name : String) (config : Config) (node : Node) : List UInt8 :=
  let bytes := Utf8.encode (savedText name config node)
  if Name.isCompressed name then Gzip.compress bytes else bytes

namespace FileSystem

/-- The steps that write a file, with the error of each.  A compressed file is there first, then it
gets its data, and at last its end. -/
def contentSteps (compressed : Bool) (target : String) (bytes : List UInt8) :
    List (FileStep × SaveError) :=
  if compressed then
    [(.write target [], .temporaryArchive), (.write target (Gzip.front bytes), .compressedData),
      (.write target (Gzip.compress bytes), .compressionEnd)]
  else [(.write target bytes, .temporaryFile)]

/-- The steps that write a document, with the error of each. -/
def writeSteps (name : String) (config : Config) (node : Node) : List (FileStep × SaveError) :=
  contentSteps (Name.isCompressed name) (Name.temporary name)
      (Utf8.encode (savedText name config node)) ++
    [(.rename (Name.temporary name) name, .replacement)]

/-- The steps that save a document, with the error of each. -/
def savePlan (files : FileSystem) (name : String) (config : Config) (node : Node) :
    Except SaveError (List (FileStep × SaveError)) :=
  if config.createBackup && (files.find? name).isSome then
    match Name.backup? name with
    | some backup => .ok ((.copy name backup, .backup) :: writeSteps name config node)
    | none => .error .invalidName
  else .ok (writeSteps name config node)

/-- Saves a document. -/
def save (files : FileSystem) (name : String) (config : Config) (node : Node) :
    Except SaveError Unit × FileSystem :=
  match files.savePlan name config node with
  | .ok steps => performAll steps files
  | .error e => (.error e, files)

end FileSystem

end TreePath
