import TreePath.CommandLine.Run

/-!
# The program

The program looks at the files that a command names, plans the command, and makes its steps on the
disk.
-/

set_option autoImplicit false

namespace TreePath

namespace Program

/-- The names of the directories above the working directory. -/
def workingLocation : IO Location := do
  return (Name.parts (← IO.currentDir).toString).filter (!Name.isIdle ·)

/-- There is a directory of this name on the disk. -/
def isDirectory (name : String) : IO Bool :=
  try (← IO.FS.realPath name).isDir
  catch _ => return false

/-- Looks at the parts of a name on the disk, `here` being the location of `path`. -/
def observeParts (files : FileSystem) (here : Location) (path : String) :
    List String → IO FileSystem
  | [] => return files
  | part :: parts => do
    let next := path ++ part ++ "/"
    if Name.isIdle part then observeParts files here next parts
    else if part = ".." then observeParts files here.dropLast next parts
    else
      let place := here ++ [part]
      if ← isDirectory (path ++ part) then
        observeParts (files.put place .directory) place next parts
      else
        try
          let content ← IO.FS.readBinFile (path ++ part)
          return files.put place (.file content.data.toList)
        catch _ => return files

/-- Looks at what a name stands for on the disk. -/
def observe (files : FileSystem) (name : String) : IO FileSystem :=
  observeParts files (files.startOf name) (if name.toList.head? = some '/' then "/" else "")
    (Name.parts name)

/-- What a command may read from the disk. -/
def observeAll (invocation : Invocation) (home : String) : IO FileSystem := do
  let working ← workingLocation
  let files := (List.range working.length).foldl
    (fun files n => files.put (working.take (n + 1)) .directory) (FileSystem.empty working)
  let files ← observe files (invocation.options.settings.getD (settingsName home))
  observe files invocation.file

/-- Makes a step on the disk. -/
def perform : FileStep → IO Unit
  | .copy source target => do
    IO.FS.writeBinFile target (← IO.FS.readBinFile source)
  | .write target content => IO.FS.writeBinFile target ⟨content.toArray⟩
  | .rename source target => IO.FS.rename source target

/-- Makes steps up to the first that fails, and gives its error. -/
def performAll : List (FileStep × CommandError) → IO (Option CommandError)
  | [] => return none
  | (step, error) :: steps => do
    let failed ← try
      perform step
      pure false
    catch _ => pure true
    if failed then return some error else performAll steps

/-- Runs a command on the disk. -/
def run (invocation : Invocation) : IO UInt32 := do
  let home := (← IO.getEnv "HOME").getD ""
  let failure ←
    match invocation.plan (← observeAll invocation home) home with
    | .error e => pure (some e)
    | .ok plan => do
      match ← performAll plan.steps with
      | some e => pure (some e)
      | none => do
        IO.print plan.output
        pure none
  match failure with
  | some e => do
    IO.eprintln ("Error: " ++ e.message)
    return 1
  | none => return 0

end Program

end TreePath

/-- The program, with the words of its command line. -/
def main (words : List String) : IO UInt32 :=
  match TreePath.Request.ofWords words with
  | .run invocation => TreePath.Program.run invocation
  | .help => do
    IO.print TreePath.Request.usage
    return 0
  | .version => do
    IO.print TreePath.Request.versionText
    return 0
  | .misuse => do
    IO.eprint TreePath.Request.usage
    return 2
