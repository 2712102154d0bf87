import ModPackager.FileSystem.Resolve
import ModPackager.Glob.Pattern

/-!
# Expanding patterns

A pattern is expanded component by component. A component without wildcards names one entry, any
other one is tried on every entry of a directory. Two stars go down into directories, also through
links; what comes behind them is tried on every entry on the way, so a path that fits in several ways
is found several times.
-/

namespace ModPackager.Glob

/-- What an expansion goes by. -/
structure Search where
  fs : FileSystem
  /-- Whether only directories count. -/
  onlyDirectories : Bool

namespace Search

/-- Whether a path leads to anything, be it a link that leads nowhere. -/
def holds (search : Search) (path : Path) : Bool :=
  search.fs.holds path ||
    match search.fs.resolve false path with
    | .ok (.found _ _) => true
    | _ => false

/-- The path of an entry; the start of a relative pattern goes without a name. -/
def below (path : Path) (name : String) : Path :=
  if path.text = "." then ⟨name⟩ else path.child name

/-- The paths of the entries of a directory, in the order of names. -/
def children (search : Search) (path : Path) : List Path :=
  match search.fs.lookup? path with
  | some (location, .directory) =>
    ((search.fs.names location).mergeSort fun a b => a ≤ b).map (below path)
  | _ => []

/-- The path itself, unless only directories count and it is none. -/
def result (search : Search) (path : Path) : List Path :=
  if search.onlyDirectories && !search.fs.holdsDirectory path then [] else [path]

/-- The dots that a pattern with a leading dot matches. -/
def matchingDots (pattern : Pattern) : List String :=
  if pattern.head? = some (.char '.') then
    ["..", "."].filter fun dots => pattern.matches dots.toList
  else []

/-- Drops all but the last one of several recursive components in a row. -/
def collapse : List Pattern → List Pattern
  | a :: b :: rest => if a.isRecursive && b.isRecursive then collapse (b :: rest) else a :: b :: rest
  | patterns => patterns

/-- Whether a pattern matches the name of an entry. -/
def matchesName (pattern : Pattern) (path : Path) : Bool :=
  path.fileName?.any fun name => pattern.matches name.toList

mutual

/-- What fits below a path. -/
def expand (search : Search) : Nat → List Pattern → Path → List Path
  | 0, _, _ => []
  | _ + 1, [], _ => []
  | fuel + 1, pattern :: rest, path =>
    match pattern.literal? with
    | some name =>
      let next := below path name
      let there :=
        if name = "." || name = ".." then search.fs.holdsDirectory path else search.holds next
      if there then search.arrive fuel rest next else []
    | none =>
      if search.fs.holdsDirectory path then
        ((matchingDots pattern).flatMap fun dots => search.arrive fuel rest (path.child dots))
          ++ (search.children path).flatMap (search.visit fuel (pattern :: rest))
      else []

/-- What fits at a path that the pattern before it has reached. -/
def arrive (search : Search) : Nat → List Pattern → Path → List Path
  | _, [], path => search.result path
  | 0, _, _ => []
  | fuel + 1, patterns, path => search.expand fuel patterns path

/-- What fits at or below an entry, the name of which is still to be tried. -/
def visit (search : Search) : Nat → List Pattern → Path → List Path
  | 0, _, _ => []
  | fuel + 1, patterns, path =>
    match collapse patterns with
    | [] => []
    | pattern :: rest =>
      if pattern.isRecursive then
        let directory := search.fs.holdsDirectory path
        let here :=
          match rest with
          | [] => if directory then [path] else []
          | next :: deeper => if matchesName next path then search.arrive fuel deeper path else []
        here ++ if directory then search.expand fuel (pattern :: rest) path else []
      else if matchesName pattern path then search.arrive fuel rest path
      else []

end

end Search

/-- Enough steps for every path: each level below a directory makes the path longer, and a path that is
too long leads nowhere. -/
def stepLimit (components : Nat) : Nat := 4 * FileSystem.tooLong + 2 * components

/-- The texts between slashes, without an empty one at the end. -/
def componentTexts (text : List Char) : List (List Char) :=
  let pieces := Path.pieces text
  if pieces.getLast? = some [] then pieces.dropLast else pieces

/-- Everything that fits a pattern. -/
def paths (fs : FileSystem) (pattern : List Char) : Except PatternFault (List Path) := do
  let _ ← Pattern.parse pattern
  let absolute := pattern.head? == some '/'
  let body := if absolute then pattern.tail else pattern
  let components ← (componentTexts body).mapM Pattern.parse
  let search : Search := ⟨fs, pattern.getLast? == some '/'⟩
  let patterns := if pattern = ['/'] then [[]] else components
  return search.expand (stepLimit patterns.length) patterns ⟨if absolute then "/" else "."⟩

end ModPackager.Glob
