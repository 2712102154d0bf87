import ModPackager.Text.Lines

/-!
# Paths

A path is its text. What it leads through are its components: repeated and trailing slashes, and dots
other than a leading one, do not count.
-/

namespace ModPackager

/-- A path of a file, as written. -/
structure Path where
  text : String
deriving DecidableEq, Repr

namespace Path

/-- One step of a path. -/
inductive Component
  | root
  /-- A leading dot. -/
  | current
  | parent
  | normal (name : String)
deriving DecidableEq, Repr

/-- The text of a step. -/
def Component.text : Component → String
  | .root => "/"
  | .current => "."
  | .parent => ".."
  | .normal name => name

/-! ### Components -/

/-- The pieces of a text between slashes. -/
def pieces (text : List Char) : List (List Char) := Text.piecesAt '/' text

/-- A piece of a path with the component that it stands for, if it counts. -/
structure Piece where
  text : List Char
  component : Option Component

/-- The component of a piece behind the first slash. -/
def component? (piece : List Char) : Option Component :=
  if piece.isEmpty || piece == ['.'] then none
  else if piece == ['.', '.'] then some .parent
  else some (.normal (String.ofList piece))

/-- Whether a path begins at the root. -/
def isAbsolute (path : Path) : Bool := path.text.toList.head? == some '/'

/-- The first piece of a path: nothing in front of a leading slash, or a leading dot. -/
def firstComponent? (absolute : Bool) (piece : List Char) : Option Component :=
  if absolute then some .root
  else if piece == ['.'] then some .current
  else component? piece

/-- The pieces of a path with their components. -/
def steps (path : Path) : List Piece :=
  match pieces path.text.toList with
  | [] => []
  | first :: rest =>
    ⟨first, firstComponent? path.isAbsolute first⟩ :: rest.map fun piece => ⟨piece, component? piece⟩

/-- The components of a path. -/
def components (path : Path) : List Component := path.steps.filterMap (·.component)

/-! ### Building paths -/

/-- A path below another one. An absolute path stands by itself; joining an empty path leaves a
slash at the end. -/
def join (base path : Path) : Path :=
  if path.isAbsolute || base.text.isEmpty then path
  else if base.text.toList.getLast? == some '/' then ⟨base.text ++ path.text⟩
  else ⟨base.text ++ "/" ++ path.text⟩

/-- The path of an entry of a directory. -/
def child (dir : Path) (name : String) : Path := dir.join ⟨name⟩

/-- A path that goes on through components. -/
def through (base : Path) (components : List Component) : Path :=
  components.foldl (fun path component => path.join ⟨component.text⟩) base

/-- The path of components. -/
def ofComponents (components : List Component) : Path := through ⟨""⟩ components

/-- Puts pieces together again, of which the root alone needs a slash of its own. -/
def ofPieces (pieces : List Piece) : Path :=
  match pieces with
  | [⟨_, some .root⟩] => ⟨"/"⟩
  | _ => ⟨"/".intercalate (pieces.map fun piece => String.ofList piece.text)⟩

/-- Drops the pieces at the end that do not count. -/
def trimEnd (pieces : List Piece) : List Piece :=
  (pieces.reverse.dropWhile (·.component.isNone)).reverse

/-! ### Names and parents -/

/-- The last component, if it is a name. -/
def fileName? (path : Path) : Option String :=
  match path.components.getLast? with
  | some (.normal name) => some name
  | _ => none

/-- What follows the last point of a file name; a leading point begins no extension. -/
def extension? (path : Path) : Option String := do
  let name := (← path.fileName?).toList
  let ending := name.reverse.takeWhile (· != '.')
  if ending.length + 1 < name.length then some (String.ofList ending.reverse) else none

/-- The path without its last component, if that is not the root. -/
def parent? (path : Path) : Option Path :=
  let known := trimEnd path.steps
  match known.getLast? with
  | none => none
  | some ⟨_, some .root⟩ => none
  | some _ => some (ofPieces (trimEnd known.dropLast))

/-- Drops pieces until a number of components is dropped. -/
def dropComponents : Nat → List Piece → List Piece
  | 0, pieces => pieces
  | _ + 1, [] => []
  | count + 1, piece :: rest =>
    if piece.component.isSome then dropComponents count rest else dropComponents (count + 1) rest

/-- Whether a path goes through another one. -/
def startsWith (path base : Path) : Bool := base.components.isPrefixOf path.components

/-- What follows in a path behind another one. -/
def stripPrefix? (path base : Path) : Option Path :=
  if path.startsWith base then
    let rest := dropComponents base.components.length path.steps
    some (ofPieces (trimEnd (rest.dropWhile (·.component.isNone))))
  else none

/-! ### Normal forms -/

/-- The path made absolute in a working directory, without dots and repeated slashes; a slash at the
end stays, and so do two at the start. An empty path stands for nothing. -/
def absolute? (path workingDir : Path) : Option Path :=
  if path.text.isEmpty then none
  else
    let text := path.text.toList
    let doubled := ['/', '/'].isPrefixOf text && !(['/', '/', '/'].isPrefixOf text)
    let found :=
      if !path.isAbsolute then
        workingDir.through (match path.components with
          | .current :: rest => rest
          | components => components)
      else if doubled then through ⟨"//"⟩ path.components.tail
      else ofComponents path.components
    some (if text.getLast? == some '/' then found.join ⟨""⟩ else found)

/-- Folds a step into the steps before it: a dot goes nowhere, and the parent of the root is the
root. -/
def foldStep (before : List Component) (step : Component) : List Component :=
  match step with
  | .current => before
  | .parent =>
    match before.getLast? with
    | none => before
    | some .root => before
    | some _ => before.dropLast
  | _ => before ++ [step]

/-- The components of a path made absolute, with every dot and parent folded away. -/
def normalize (path workingDir : Path) : List Component :=
  (((path.absolute? workingDir).getD path).components).foldl foldStep []

/-! ### Order -/

/-- The rank of a component among those of other kinds. -/
def Component.rank : Component → Nat
  | .root => 0
  | .current => 1
  | .parent => 2
  | .normal _ => 3

/-- The order of components: names after everything else, among themselves as texts. -/
def Component.before : Component → Component → Bool
  | .normal a, .normal b => decide (a < b)
  | a, b => a.rank < b.rank

/-- The order of lists of components, the shorter one first. -/
def stepsBefore : List Component → List Component → Bool
  | [], [] => false
  | [], _ :: _ => true
  | _ :: _, [] => false
  | a :: as, b :: bs => if a = b then stepsBefore as bs else a.before b

/-- The order of paths, component by component. -/
def before (a b : Path) : Bool := stepsBefore a.components b.components

end Path

end ModPackager
