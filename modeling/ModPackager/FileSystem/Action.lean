import ModPackager.FileSystem.Resolve

/-!
# File operations

An action changes a file system or fails, and a failure keeps what was changed before it.
-/

namespace ModPackager

/-- A change of a file system that may fail. -/
abbrev FileAction := EStateM IoFault FileSystem

namespace FileAction

open FileSystem

/-- Goes on with the value of a result. -/
def ofResult {α : Type} : Except IoFault α → FileAction α
  | .ok value => pure value
  | .error fault => throw fault

/-! ### Reading -/

/-- The bytes of a file. -/
def readBytes (path : Path) : FileAction ByteArray := do
  match ← ofResult ((← get).lookup path) with
  | (_, .file contents) => return contents
  | _ => throw .isDirectory

/-- The text of a file. -/
def readText (path : Path) : FileAction String := do
  match String.fromUTF8? (← readBytes path) with
  | some text => return text
  | none => throw .notText

/-- The names in a directory. -/
def readNames (path : Path) : FileAction (List String) := do
  match ← ofResult ((← get).lookup path) with
  | (location, .directory) => return (← get).names location
  | _ => throw .notDirectory

/-! ### Writing -/

/-- Puts an entry at a location. -/
def put (location : Location) (entry : Entry) : FileAction Unit :=
  modify fun fs => fs.put location entry

/-- Writes a file, in place of the one that the path leads to. -/
def writeBytes (path : Path) (contents : ByteArray) : FileAction Unit := do
  match ← ofResult ((← get).resolve true path) with
  | .found location (.file _) => put location (.file contents)
  | .found _ _ => throw .isDirectory
  | .vacant location =>
    if endsInSlash path.text then throw .isDirectory else put location (.file contents)

/-- Writes a file of text. -/
def writeText (path : Path) (contents : String) : FileAction Unit :=
  writeBytes path contents.toUTF8

/-- Copies a file. The copy is emptied before the first byte is read, so a file copied onto itself
ends up empty. -/
def copyFile (source target : Path) : FileAction Unit := do
  match ← ofResult ((← get).lookup source) with
  | (_, .file _) =>
    writeBytes target ByteArray.empty
    writeBytes target (← readBytes source)
  | _ => throw .notRegular

/-- Makes a link. -/
def createLink (path : Path) (target : String) : FileAction Unit := do
  match ← ofResult ((← get).resolve false path) with
  | .found _ _ => throw .exists
  | .vacant location => put location (.link target)

/-! ### Directories -/

/-- Makes a directory in one that is there. -/
def createDirectory (path : Path) : FileAction Unit := do
  match ← ofResult ((← get).resolve false path) with
  | .found _ _ => throw .exists
  | .vacant location => put location .directory

/-- The fault of an action, if it fails. -/
def faultOf (action : FileAction Unit) : FileAction (Option IoFault) := fun fs =>
  match action fs with
  | .ok _ fs => .ok none fs
  | .error fault fs => .ok (some fault) fs

/-- Makes a directory, unless one is there already. -/
def ensureDirectory (path : Path) : FileAction Unit := do
  match ← faultOf (createDirectory path) with
  | none => return
  | some fault => if !(← get).holdsDirectory path then throw fault

/-- Makes a directory and the missing ones on the way to it, of which there are fewer than `fuel`. -/
def createParents : Nat → Path → FileAction Unit
  | 0, _ => throw .notFound
  | fuel + 1, path => do
    if path.text.isEmpty then return
    match ← faultOf (ensureDirectory path) with
    | none => return
    | some fault =>
      match fault, path.parent? with
      | .notFound, some parent =>
        createParents fuel parent
        ensureDirectory path
      | _, _ => throw fault

/-- Makes a directory and the missing ones on the way to it. -/
def createDirectories (path : Path) : FileAction Unit :=
  createParents (path.components.length + 2) path

/-- Makes the directory that a path lies in. -/
def createParent (path : Path) : FileAction Unit :=
  match path.parent? with
  | some parent => createDirectories parent
  | none => pure ()

/-! ### Removing -/

/-- Removes a file or a link. -/
def removeFile (path : Path) : FileAction Unit := do
  match ← ofResult ((← get).resolve false path) with
  | .found _ .directory => throw .isDirectory
  | .found location _ => modify fun fs => fs.erase location
  | .vacant _ => throw .notFound

/-- Removes a directory with everything in it; of a link only the link itself. -/
def removeTree (path : Path) : FileAction Unit := do
  match ← ofResult ((← get).resolve false path) with
  | .found _ (.file _) => throw .notDirectory
  | .found location _ => modify fun fs => fs.erase location
  | .vacant _ => throw .notFound

end FileAction

end ModPackager
