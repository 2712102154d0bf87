import ModPackager.CommandLine.Run
import ModPackager.Shell.Compiler

/-!
# The program

The program takes an image of the directories that a run touches, runs on it, and carries the changes
back to the disk. Compile commands run in the shell of this library.
-/

namespace ModPackager.Disk

/-- How deep directories are read. -/
def depthLimit : Nat := 64

/-- The directories on the way to a location. -/
def putParents (files : FileSystem) (location : Location) : FileSystem :=
  (List.range location.length).foldl (fun files count =>
    let place := location.take (count + 1)
    if (files.node? place).isSome then files else files.put place .directory) files

/-- Where a path really leads, or the path itself if it leads nowhere. -/
def realText (text : String) : IO String := do
  try return (← IO.FS.realPath text).toString catch _ => return text

/-- Reads the entries of a directory, at most `fuel` levels deep. -/
def readBelow : Nat → FileSystem → Location → IO FileSystem
  | 0, files, _ => return files
  | fuel + 1, files, location => do
    let dir ← IO.FS.realPath ("/" ++ "/".intercalate location)
    let mut files := files
    for entry in ← dir.readDir do
      let place := location ++ [entry.fileName]
      match (← entry.path.symlinkMetadata).type with
      | .dir => files ← readBelow fuel (files.put place .directory) place
      | .symlink => files := files.put place (.link (← realText entry.path.toString))
      | _ => files := files.put place (.file (← IO.FS.readBinFile entry.path))
    return files

/-- Reads a directory with everything below it, if it is there and not read yet. -/
def readTree (files : FileSystem) (path : Path) : IO FileSystem := do
  match path.absolute? files.workingDir with
  | none => return files
  | some path =>
    let location := FileSystem.namesOf (← realText path.text)
    if (files.node? location).isSome then return files
    else try readBelow depthLimit (putParents files location) location catch _ => return files

/-- The directories that a request names. -/
def namedBy : CommandLine.Request → List Path
  | .build path deployDir _ _ _ => (path.map Path.mk).toList ++ deployDir.toList
  | .scan path _ => (path.map Path.mk).toList
  | .path path deployDir => (path.map Path.mk).toList ++ deployDir.toList

/-- The directories that the settings of a project name. -/
def namedIn (files : FileSystem) (environment : CommandLine.Environment) (dir : Path) : List Path :=
  match Settings.load files dir (environment.lookup deployDirVariable) {} with
  | .ok settings => [settings.buildDir, settings.auxDir] ++ settings.deployDir.toList
  | .error _ => []

/-- Reads every directory that a request touches. -/
def readFor (environment : CommandLine.Environment) (request : CommandLine.Request)
    (workingDir : Path) : IO FileSystem := do
  let start : FileSystem := ⟨[], ← IO.monoMsNow, workingDir⟩
  let named := workingDir :: namedBy request
  let files ← named.foldlM readTree start
  let more := named.flatMap fun dir =>
    match dir.absolute? workingDir with
    | some dir => namedIn files environment dir
    | none => []
  more.foldlM readTree files

/-- The path of a location. -/
def pathOf (location : Location) : String := "/" ++ "/".intercalate location

/-- Removes from the disk what is no longer there. -/
def removeOld (before after : FileSystem) : IO Unit := do
  for (location, node) in before.nodes do
    if after.entry? location != some node.entry && after.entry? location.dropLast == some .directory then
      match node.entry with
      | .directory => IO.FS.removeDirAll (pathOf location)
      | _ => IO.FS.removeFile (pathOf location)

/-- Writes to the disk what is new. -/
def writeNew (before after : FileSystem) : IO Unit := do
  for (location, node) in after.nodes do
    if before.entry? location != some node.entry then
      match node.entry with
      | .directory => IO.FS.createDirAll (pathOf location)
      | .file contents => IO.FS.writeBinFile (pathOf location) contents
      | .link target => IO.FS.writeBinFile (pathOf location) (← IO.FS.readBinFile target)

/-- The variables that a run looks at. -/
def variableNames : List String := [deployDirVariable, "CLICOLOR_FORCE", "NO_COLOR", "RUST_LOG"]

/-- The environment. A terminal gets colours unless they are refused. -/
def environment : IO CommandLine.Environment := do
  let found ← variableNames.filterMapM fun name => do
    return (← IO.getEnv name).map fun value => (name, value)
  let shown ← (← IO.getStdout).isTty
  if shown && found.lookup "NO_COLOR" == none && found.lookup "CLICOLOR_FORCE" == none then
    return ("CLICOLOR_FORCE", "1") :: found
  else return found

end ModPackager.Disk

open ModPackager in
/-- Runs the program. -/
def main (arguments : List String) : IO UInt32 := do
  let environment ← Disk.environment
  let workingDir : Path := ⟨(← IO.currentDir).toString⟩
  let files ←
    match CommandLine.readArguments arguments with
    | .ok request => Disk.readFor environment request workingDir
    | .error _ => pure ⟨[], 0, workingDir⟩
  let (ended, world) := CommandLine.run Shell.compiler environment arguments { files }
  Disk.removeOld files world.files
  Disk.writeNew files world.files
  (← IO.getStdout).putStr ended.output
  (← IO.getStderr).putStr ended.errors
  return ended.code.toUInt32
