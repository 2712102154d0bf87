import ModPackager.TypeScript.Grammar.Levels

/-!
# Modules and their top-level functions

A module is seen as its items in source order together with the comments that lead each place. Places
are counted in characters from the start of the text.
-/

namespace ModPackager.TypeScript

/-- A function declared at the top of a module. -/
structure TopFunction where
  /-- A default export may leave the name out. -/
  name : Option String
  /-- The place of the function's first token, behind `export` and `default`. -/
  start : Nat
deriving DecidableEq, Repr

/-- An item at the top of a module. -/
structure Item where
  start : Nat
  /-- The function that the item declares, if it declares one. -/
  function : Option TopFunction
deriving DecidableEq, Repr

/-- What a search for annotated functions needs of a module. -/
structure Module where
  text : List Char
  items : List Item
  /-- Comments in order, each with the place that it leads. -/
  comments : List (Nat × Comment)

namespace Module

/-! ### Places -/

/-- The comments that lead a place, in order. -/
def leading (module : Module) (place : Nat) : List Comment :=
  (module.comments.filter (·.1 == place)).map (·.2)

/-- The number of lines that end in a text. A carriage return with a line feed ends one line. -/
def lineEnds : List Char → Nat
  | '\r' :: '\n' :: rest => lineEnds rest + 1
  | c :: rest => if c == '\n' || c == '\r' then lineEnds rest + 1 else lineEnds rest
  | [] => 0

/-- The line of a place; the first line is line 1. -/
def lineAt (module : Module) (place : Nat) : Nat := lineEnds (module.text.take place) + 1

/-! ### Reading -/

/-- Drops a byte order mark. -/
def dropMark : List Char → List Char
  | '\ufeff' :: rest => rest
  | text => text

/-- Drops the line that names an interpreter, up to its end. -/
def dropInterpreter : List Char → List Char
  | '#' :: '!' :: rest => rest.dropWhile fun c => !isLineEnd c
  | text => text

/-- Reads items up to the end of the source. Items that `total` characters of source hold are placed
by their distance from its end. -/
def readItems (g : Grammar) (total : Nat) : Nat → Reader (List Item)
  | 0 => Reader.refuse
  | fuel + 1 => do
    if (← read).atEnd then return []
    let start := total - (← read).start.length
    let head ← g .moduleItem
    let function := head.map fun head => ⟨head.name, total - head.place⟩
    return ⟨start, function⟩ :: (← readItems g total fuel)

/-- Reads a module; `markup` says whether it may hold markup elements. -/
def parse (markup : Bool) (source : String) : Except Refusal Module :=
  let text := dropMark source.toList
  let code := dropInterpreter text
  let total := text.length
  let context : Context := {}
  let cursor := Cursor.ofSource { context with markup } code
  match (readItems (grammar (levelsFor total)) total (total + 1)).run cursor with
  | .ok items moved =>
    let comments := moved.comments.reverse.map fun (remaining, comment) =>
      (total - remaining, comment)
    .ok ⟨text, items, comments⟩
  | .error refusal _ => .error refusal

end Module

end ModPackager.TypeScript
