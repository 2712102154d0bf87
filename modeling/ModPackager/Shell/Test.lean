import ModPackager.Shell.FileTools

/-!
# Tests

The conditions of scripts: tests of files, texts and numbers, joined by "not", "and" and "or".
-/

namespace ModPackager.Shell.Test

/-- Whether a file has content. -/
def hasContent (files : FileSystem) (path : Path) : Bool :=
  match files.lookup? path with
  | some (_, .file contents) => 0 < contents.size
  | some _ => true
  | none => false

/-- Whether a path is a link. -/
def isLink (files : FileSystem) (text : String) : Bool :=
  match entryAt files text with
  | .ok (.link _) => true
  | _ => false

/-- A test of one text. -/
def unary? (files : FileSystem) (operator text : String) : Option Bool :=
  match operator with
  | "-e" => some (files.holds ⟨text⟩)
  | "-f" => some (files.holdsFile ⟨text⟩)
  | "-d" => some (files.holdsDirectory ⟨text⟩)
  | "-L" => some (isLink files text)
  | "-h" => some (isLink files text)
  | "-s" => some (hasContent files ⟨text⟩)
  | "-r" => some (files.holds ⟨text⟩)
  | "-w" => some (files.holds ⟨text⟩)
  | "-x" => some (files.holdsDirectory ⟨text⟩)
  | "-n" => some (!text.isEmpty)
  | "-z" => some text.isEmpty
  | _ => none

/-- A test of two texts, if there is one of that name; it may have no answer. -/
def binary? (files : FileSystem) (operator a b : String) : Option (Option Bool) :=
  let numbers (test : Int → Int → Bool) : Option (Option Bool) :=
    some do return test (← a.toInt?) (← b.toInt?)
  let times (test : Nat → Nat → Bool) : Option (Option Bool) :=
    match files.modified? ⟨a⟩, files.modified? ⟨b⟩ with
    | some x, some y => some (some (test x y))
    | _, _ => some (some false)
  match operator with
  | "=" => some (some (a == b))
  | "==" => some (some (a == b))
  | "!=" => some (some (a != b))
  | "-eq" => numbers fun x y => x == y
  | "-ne" => numbers fun x y => x != y
  | "-lt" => numbers fun x y => x < y
  | "-le" => numbers fun x y => x ≤ y
  | "-gt" => numbers fun x y => y < x
  | "-ge" => numbers fun x y => y ≤ x
  | "-nt" => times fun x y => y < x
  | "-ot" => times fun x y => x < y
  | _ => none

/-- A simple condition at the front of arguments, and what follows it. -/
def primary (files : FileSystem) : List String → Option (Bool × List String)
  | a :: operator :: b :: rest =>
    match binary? files operator a b with
    | some value => value.map (·, rest)
    | none =>
      match unary? files a operator with
      | some value => some (value, b :: rest)
      | none => some (!a.isEmpty, operator :: b :: rest)
  | [a, b] =>
    match unary? files a b with
    | some value => some (value, [])
    | none => some (!a.isEmpty, [b])
  | [a] => some (!a.isEmpty, [])
  | [] => none

mutual

/-- Conditions joined by "or". -/
def anyOf (files : FileSystem) : Nat → List String → Option (Bool × List String)
  | 0, _ => none
  | fuel + 1, arguments => do
    let (value, rest) ← allOf files fuel arguments
    match rest with
    | "-o" :: rest =>
      let (other, rest) ← anyOf files fuel rest
      return (value || other, rest)
    | _ => return (value, rest)

/-- Conditions joined by "and". -/
def allOf (files : FileSystem) : Nat → List String → Option (Bool × List String)
  | 0, _ => none
  | fuel + 1, arguments => do
    let (value, rest) ← one files fuel arguments
    match rest with
    | "-a" :: rest =>
      let (other, rest) ← allOf files fuel rest
      return (value && other, rest)
    | _ => return (value, rest)

/-- A condition, perhaps negated or in brackets. -/
def one (files : FileSystem) : Nat → List String → Option (Bool × List String)
  | 0, _ => none
  | fuel + 1, arguments =>
    match arguments with
    | ["!"] => some (true, [])
    | "!" :: rest => (one files fuel rest).map fun (value, rest) => (!value, rest)
    | "(" :: rest => do
      let (value, rest) ← anyOf files fuel rest
      match rest with
      | ")" :: rest => return (value, rest)
      | _ => none
    | _ => primary files arguments

end

/-- Whether the arguments hold, if they are a condition. No arguments never hold. -/
def holds? (files : FileSystem) (arguments : List String) : Option Bool :=
  match arguments with
  | [] => some false
  | _ =>
    match anyOf files (3 * arguments.length + 3) arguments with
    | some (value, []) => some value
    | _ => none

/-- Tests a condition. -/
def tool (name : String) (arguments : List String) : Script Nat := do
  match holds? (← Script.files) arguments with
  | some value => return if value then 0 else 1
  | none =>
    Script.complain name "unexpected operator"
    return 2

/-- Tests a condition. -/
def test : Tool := tool "test"

/-- Tests a condition that stands before a closing bracket. -/
def bracket : Tool := fun arguments => do
  if arguments.getLast? == some "]" then tool "[" arguments.dropLast
  else
    Script.complain "[" "missing ]"
    return 2

end ModPackager.Shell.Test
