import TreePath.Gzip.Member
import TreePath.Storage.FileSystem
import TreePath.Utf8

/-!
# Loading documents

A document comes from a file, whose name says whether it is compressed, or as bytes from elsewhere,
where the first two bytes say so.  The text inside has to be UTF-8 and is read in a format.
-/

set_option autoImplicit false

namespace TreePath

/-- Why a document could not be loaded. -/
inductive LoadError where
  /-- there is no file of this name that holds text -/
  | unreadableFile (name : String)
  /-- there is nothing of the name of a compressed file -/
  | unopenedFile
  /-- the file is not compressed text -/
  | corruptFile
  /-- the bytes are not compressed text -/
  | corruptBytes
  /-- the bytes are no text -/
  | notText
  /-- the text is no document -/
  | malformed (fault : SyntaxFault)
  deriving DecidableEq, Repr

/-- The words for the error. -/
def LoadError.message : LoadError → String
  | unreadableFile name => "Failed to read file " ++ name
  | unopenedFile => "Failed to open gzipped file"
  | corruptFile => "Failed to decompress gzipped file - file may be corrupted"
  | corruptBytes => "Failed to decompress gzipped input"
  | notText => "Invalid UTF-8 in input"
  | malformed fault => fault.message

/-- The text that compressed bytes stand for. -/
def Gzip.text? (bytes : List UInt8) : Option String := (Gzip.decompress? bytes).bind Utf8.decode?

/-- Reads a document, as an error of loading. -/
def Format.loadText (format : Format) (text : String) : Except LoadError Node :=
  (format.load text).mapError .malformed

/-- The text in bytes that may be compressed. -/
def textOfBytes (bytes : List UInt8) : Except LoadError String :=
  if Gzip.startsWithMagic bytes then
    match Gzip.text? bytes with
    | some text => .ok text
    | none => .error .corruptBytes
  else
    match Utf8.decode? bytes with
    | some text => .ok text
    | none => .error .notText

/-- Loads a document from bytes that may be compressed. -/
def Format.loadBytes (format : Format) (bytes : List UInt8) : Except LoadError Node := do
  format.loadText (← textOfBytes bytes)

namespace FileSystem

/-- The text in a file. -/
def readText? (files : FileSystem) (name : String) : Option String :=
  (files.read? name).bind Utf8.decode?

/-- The text in a file that may be compressed. -/
def documentText (files : FileSystem) (name : String) : Except LoadError String :=
  if Name.isCompressed name then
    match files.find? name with
    | none => .error .unopenedFile
    | some .directory => .error .corruptFile
    | some (.file bytes) =>
      match Gzip.text? bytes with
      | some text => .ok text
      | none => .error .corruptFile
  else
    match files.readText? name with
    | some text => .ok text
    | none => .error (.unreadableFile name)

/-- Loads a document from a file. -/
def load (files : FileSystem) (name : String) : Except LoadError Node := do
  (Format.ofName name).loadText (← files.documentText name)

end FileSystem

end TreePath
