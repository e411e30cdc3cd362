import TreePath.Document

/-!
# File names

A name is a row of parts between slashes.  Its last part, leaving out empty parts and single points,
is the name of the file; two points name a directory instead.  The name decides the format of a
document and whether it is compressed.  It also gives the names of the temporary file and of the
backup that belong to a file.
-/

set_option autoImplicit false

namespace TreePath

namespace Name

/-- The parts of a name, which may be empty. -/
def parts (name : String) : List String := (name.toList.splitOn '/').map String.ofList

/-- A part that stays in the same directory. -/
def isIdle (part : String) : Bool := part == "" || part == "."

/-- The parts up to the last one that is not idle. -/
def activeParts (name : String) : List String :=
  ((parts name).reverse.dropWhile isIdle).reverse

/-- The name of the file itself. -/
def file? (name : String) : Option String :=
  match (activeParts name).getLast? with
  | some ".." => none
  | last => last

/-- A file name cut at its last point, unless the name only begins with it. -/
def cutExtension? (file : String) : Option (String × String) :=
  let backwards := file.toList.reverse
  let extension := backwards.takeWhile (· != '.')
  match backwards.drop extension.length with
  | _ :: c :: stem => some (String.ofList (c :: stem).reverse, String.ofList extension.reverse)
  | _ => none

/-- The extension of a name. -/
def extension? (name : String) : Option String :=
  ((file? name).bind cutExtension?).map (·.2)

/-- Files of this name are compressed. -/
def isCompressed (name : String) : Bool := extension? name == some "gz"

/-- The text ends so. -/
def endsWith (text ending : List Char) : Bool := ending.isSuffixOf text

/-- The name without the extension of compressed files. -/
def withoutCompression (name : List Char) : List Char :=
  if endsWith name ".gz".toList then name.take (name.length - 3) else name

/-- The name with another file in the same directory. -/
def sibling (name file : String) : String :=
  String.intercalate "/" ((activeParts name).dropLast ++ [file])

/-- The name of the temporary file: its extension is another one.  A name without a file stays as it
is, and a stem of one point leaves the name of the directory above. -/
def temporary (name : String) : String :=
  match file? name with
  | none => name
  | some file =>
    match cutExtension? file with
    | none => sibling name (file ++ ".tmp")
    | some (stem, _) => sibling name (if stem = "." then ".." else stem ++ ".tmp")

/-- The name of the backup. -/
def backup? (name : String) : Option String :=
  (file? name).map fun file => sibling name (file ++ ".bak")

end Name

/-- The format of the documents of this name. -/
def Format.ofName (name : String) : Format :=
  let base := Name.withoutCompression name.toList
  if Name.endsWith base ".yaml".toList || Name.endsWith base ".yml".toList then .yaml else .json

end TreePath
