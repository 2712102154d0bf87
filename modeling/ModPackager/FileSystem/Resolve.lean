import ModPackager.FileSystem.Fault
import ModPackager.FileSystem.Tree
import ModPackager.Path

/-!
# From paths to locations

A path is followed name by name from the root. A link on the way is replaced by its target; at the end
of the path it is followed only if asked for. The number of links on one way is bounded, so that loops
end.
-/

namespace ModPackager

namespace FileSystem

/-- What a path leads to. -/
inductive Target
  | found (location : Location) (entry : Entry)
  /-- Nothing, in a directory that is there. -/
  | vacant (location : Location)

/-- How to go on behind a link: from a location through names, where the flag says that the last one
must be a directory. -/
abbrev Onward := Location → List String → Bool → Except IoFault Target

/-- The names of a path; dots and parents count as names. -/
def namesOf (text : String) : List String :=
  ((Path.pieces text.toList).filter (!·.isEmpty)).map String.ofList

/-- Whether a text ends with a slash. -/
def endsInSlash (text : String) : Bool := text.toList.getLast? == some '/'

/-- The longest name in bytes. -/
def maxName : Nat := 255

/-- The shortest path in bytes that is too long. -/
def tooLong : Nat := 4096

/-- How many links may be followed on one way. -/
def maxLinks : Nat := 40

/-- Follows names from a location, with `onward` for what comes behind a link. -/
def walkWith (fs : FileSystem) (follow : Bool) (onward : Onward) :
    Location → List String → Bool → Except IoFault Target
  | here, [], slash =>
    match fs.entry? here with
    | none => .error .notFound
    | some entry => if slash && !entry.isDirectory then .error .notDirectory else .ok (.found here entry)
  | here, name :: rest, slash =>
    if fs.entry? here != some .directory then .error .notDirectory
    else if name = "." then walkWith fs follow onward here rest slash
    else if name = ".." then walkWith fs follow onward here.dropLast rest slash
    else if maxName < name.utf8ByteSize then .error .nameTooLong
    else
      match fs.entry? (here ++ [name]) with
      | none => if rest.isEmpty then .ok (.vacant (here ++ [name])) else .error .notFound
      | some (.link target) =>
        if rest.isEmpty && !follow && !slash then .ok (.found (here ++ [name]) (.link target))
        else
          let start := if (⟨target⟩ : Path).isAbsolute then [] else here
          onward start (namesOf target ++ rest) (if rest.isEmpty then slash || endsInSlash target else slash)
      | some _ => walkWith fs follow onward (here ++ [name]) rest slash

/-- Follows names from a location, through at most the given number of links. -/
def walk (fs : FileSystem) (follow : Bool) : Nat → Onward
  | 0 => walkWith fs follow fun _ _ _ => .error .tooManyLinks
  | links + 1 => walkWith fs follow (walk fs follow links)

/-- What a path leads to. -/
def resolve (fs : FileSystem) (follow : Bool) (path : Path) : Except IoFault Target :=
  if path.text.toList.contains '\x00' then .error .nulInName
  else if path.text.isEmpty then .error .notFound
  else if tooLong ≤ path.text.utf8ByteSize then .error .nameTooLong
  else
    let text := (fs.workingDir.join path).text
    walk fs follow maxLinks [] (namesOf text) (endsInSlash text)

/-- What lies at the end of a path, links followed. -/
def lookup (fs : FileSystem) (path : Path) : Except IoFault (Location × Entry) := do
  match ← fs.resolve true path with
  | .found location entry => .ok (location, entry)
  | .vacant _ => .error .notFound

/-- What lies at the end of a path, links followed, if anything does. -/
def lookup? (fs : FileSystem) (path : Path) : Option (Location × Entry) := (fs.lookup path).toOption

/-- Whether a path leads to anything. -/
def holds (fs : FileSystem) (path : Path) : Bool := (fs.lookup? path).isSome

/-- Whether a path leads to a file. -/
def holdsFile (fs : FileSystem) (path : Path) : Bool :=
  match fs.lookup? path with
  | some (_, .file _) => true
  | _ => false

/-- Whether a path leads to a directory. -/
def holdsDirectory (fs : FileSystem) (path : Path) : Bool :=
  match fs.lookup? path with
  | some (_, .directory) => true
  | _ => false

/-- The location that a path leads to, links followed. -/
def canonical? (fs : FileSystem) (path : Path) : Option Location := (fs.lookup? path).map (·.1)

/-- The components of the path from the root to a location. -/
def componentsOf (location : Location) : List Path.Component :=
  .root :: location.map Path.Component.normal

/-- When what a path leads to was last changed. -/
def modified? (fs : FileSystem) (path : Path) : Option Nat := do
  let location ← fs.canonical? path
  let node ← fs.node? location
  some node.modified

end FileSystem

end ModPackager
