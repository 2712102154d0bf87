import ModPackager.Path

/-!
# Files

A file system is held as the list of what lies in it: entries with the names that lead to them from
the root. The root itself is always there and is a directory. Every change carries the time at which it
was made. With the files goes the working directory, from which relative paths start.
-/

namespace ModPackager

/-- Where an entry lies: the names that lead to it from the root. -/
abbrev Location := List String

/-- What lies at a location. -/
inductive Entry
  | file (contents : ByteArray)
  | directory
  /-- A symbolic link with its target as written. -/
  | link (target : String)

/-- Entries are equal when they are of one kind and hold the same bytes or the same target. -/
instance Entry.decidableEq : DecidableEq Entry
  | .file a, .file b => decidable_of_iff (a.data = b.data) (by simp [ByteArray.ext_iff])
  | .link a, .link b => decidable_of_iff (a = b) (by simp)
  | .directory, .directory => .isTrue rfl
  | .file _, .directory | .file _, .link _ | .directory, .file _ | .directory, .link _
  | .link _, .file _ | .link _, .directory => .isFalse nofun

/-- Whether an entry is a directory. -/
def Entry.isDirectory : Entry → Bool
  | .directory => true
  | _ => false

/-- An entry with the time of its last change in milliseconds. -/
structure FileNode where
  entry : Entry
  modified : Nat
deriving DecidableEq

/-- A file system as a program sees it. -/
structure FileSystem where
  nodes : List (Location × FileNode)
  /-- The time now, in milliseconds. -/
  now : Nat
  workingDir : Path
deriving DecidableEq

namespace FileSystem

/-! ### Looking up -/

/-- What lies at a location, with its time. -/
def node? (fs : FileSystem) (location : Location) : Option FileNode := fs.nodes.lookup location

/-- What lies at a location. -/
def entry? (fs : FileSystem) (location : Location) : Option Entry :=
  if location = [] then some .directory else (fs.node? location).map (·.entry)

/-- The names of the entries of a directory: files and links first, then directories, each kind in
the order of names. -/
def names (fs : FileSystem) (location : Location) : List String :=
  let found := fs.nodes.filterMap fun (place, node) =>
    match place.getLast? with
    | some name => if place.dropLast = location then some (name, node.entry.isDirectory) else none
    | none => none
  (found.mergeSort fun (a, x) (b, y) => if x = y then a ≤ b else y).map (·.1)

/-! ### Changing -/

/-- Puts an entry at a location, in place of what lies there. -/
def put (fs : FileSystem) (location : Location) (entry : Entry) : FileSystem :=
  let node : FileNode := ⟨entry, fs.now⟩
  if (fs.node? location).isSome then
    { fs with nodes := fs.nodes.map fun old => if old.1 = location then (location, node) else old }
  else { fs with nodes := fs.nodes ++ [(location, node)] }

/-- Removes what lies at a location, with everything below it. -/
def erase (fs : FileSystem) (location : Location) : FileSystem :=
  { fs with nodes := fs.nodes.filter fun old => !location.isPrefixOf old.1 }

/-- The file system some time later. -/
def later (fs : FileSystem) (milliseconds : Nat) : FileSystem :=
  { fs with now := fs.now + milliseconds }

end FileSystem

end ModPackager
