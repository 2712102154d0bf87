import ModPackager.Error
import ModPackager.FileSystem.Action
import ModPackager.Report

/-!
# Deployment steps

The steps that lay a mod out below its deploy root. A step ends in an outcome, not in an error, so
that one failure never keeps the later steps from running.
-/

namespace ModPackager

/-- A change of a file system that may end in an error. -/
abbrev DiskAction := EStateM Error FileSystem

/-- A step that changes a file system and says how it went. -/
abbrev Step := StateM FileSystem Outcome

namespace Deploy

open FileAction

/-- A file operation as part of a longer change. -/
def lift {α : Type} (action : FileAction α) : DiskAction α := fun fs =>
  match action fs with
  | .ok value fs => .ok value fs
  | .error fault fs => .error (.io fault) fs

/-- A change as a step. -/
def toStep (action : DiskAction Unit) : Step := fun fs =>
  match action fs with
  | .ok _ fs => (.success, fs)
  | .error e fs => (.failed e.message, fs)

/-! ### Clearing -/

/-- Removes an entry of a directory; of a link only the link. -/
def removeEntry (fs : FileSystem) (path : Path) : FileAction Unit :=
  match fs.resolve false path with
  | .ok (.found _ .directory) => removeTree path
  | _ => removeFile path

/-- Removes what lies in a directory. -/
def clearEntries (root : Path) : FileAction Unit := do
  let fs ← get
  if fs.holdsDirectory root then
    (← readNames root).forM fun name => do removeEntry (← get) (root.child name)

/-- Removes everything below the root, which itself stays. -/
def clearDirectory (root : Path) : Step := fun fs =>
  if fs.holds root then toStep (lift (clearEntries root)) fs
  else (.skipped (root.text ++ " does not exist"), fs)

/-! ### Creating -/

/-- The directory of manifests. -/
def lovelyDir : String := "lovely"

/-- The directory kept for sources, which starts empty. -/
def sourceDir : String := "src"

/-- Makes the directories that every mod has. -/
def createSkeleton (root : Path) : Step :=
  toStep <| lift <| [lovelyDir, sourceDir].forM fun name => createDirectories (root.child name)

/-- Writes a file, in a directory made for it if need be. -/
def writeFile (path : Path) (contents : String) : Step :=
  toStep <| lift do
    createParent path
    writeText path contents

/-! ### Copying -/

/-- A directory on the way down, with the place where it really lies. -/
structure Ancestor where
  path : Path
  location : Location

/-- What an entry of a tree is, links followed. -/
def entryOf (path : Path) : DiskAction (Location × Entry) := do
  match (← get).lookup path with
  | .ok found => return found
  | .error fault => throw (.walk path fault)

/-- Whether a path names a link. -/
def isLink (fs : FileSystem) (path : Path) : Bool :=
  match fs.resolve false path with
  | .ok (.found _ (.link _)) => true
  | _ => false

/-- Copies the entries of a directory into another one, links followed, at most `fuel` levels deep,
and counts the files. A link to one of the directories on the way down is an error. -/
def copyBelow : Nat → List Ancestor → Path → Path → DiskAction Nat
  | 0, _, source, _ => throw (.walk source .nameTooLong)
  | fuel + 1, ancestors, source, target => do
    let names ← lift (readNames source)
    names.foldlM (fun count name => do
      let path := source.child name
      let copy := target.child name
      match ← entryOf path with
      | (location, .directory) =>
        let found := ancestors.find? (·.location == location)
        match found, isLink (← get) path with
        | some ancestor, true => throw (.walkLoop path ancestor.path)
        | _, _ =>
          lift (createDirectories copy)
          return count + (← copyBelow fuel (⟨path, location⟩ :: ancestors) path copy)
      | _ =>
        lift (createParent copy)
        lift (copyFile path copy)
        return count + 1) 0

/-- Enough levels for every tree: each level makes the path longer, and a path that is too long leads
nowhere. -/
def depthLimit : Nat := FileSystem.tooLong

/-- Copies a directory tree into another directory and counts the files. -/
def copyEntries (source root : Path) : DiskAction Nat := do
  let (location, _) ← entryOf source
  copyBelow depthLimit [⟨source, location⟩] source root

/-- How copying went. -/
structure Copied where
  outcome : Outcome
  /-- How many files were copied, if nothing failed. -/
  files : Nat

/-- Copies the build tree below the root. -/
def copyTree (source root : Path) : StateM FileSystem Copied := fun fs =>
  if fs.holdsDirectory source then
    match copyEntries source root fs with
    | .ok files fs => (⟨.success, files⟩, fs)
    | .error e fs => (⟨.failed e.message, 0⟩, fs)
  else (⟨.failed ("build directory " ++ source.text ++ " not found"), 0⟩, fs)

end Deploy

end ModPackager
