import ModPackager.Glob.Pattern
import ModPackager.Shell.Arithmetic
import ModPackager.Shell.Script
import ModPackager.Shell.Syntax

/-!
# Expanding words

A word becomes any number of fields: parameters and what scripts print are put in, unquoted text from
them is split at blanks, and a field with unquoted wildcards becomes the paths that it matches, in order.
A field that matches nothing stays as it is.
-/

namespace ModPackager.Shell

/-- A character of a field. -/
structure Mark where
  char : Char
  /-- Whether it is not quoted, so that it can be a wildcard. -/
  active : Bool
deriving DecidableEq, Repr

/-- The text of a field. -/
def textOf (marks : List Mark) : String := String.ofList (marks.map (·.char))

/-- Text as part of a field. -/
def marked (active : Bool) (text : List Char) : List Mark := text.map fun c => ⟨c, active⟩

/-! ### Patterns -/

/-- The inside of a bracket and what follows it; a closing bracket at the start does not close it. -/
def bracket? (marks : List Mark) : Option (List Char × List Mark) :=
  match marks with
  | [] => none
  | first :: rest =>
    let inside := rest.takeWhile (·.char != ']')
    match rest.drop inside.length with
    | [] => none
    | _ :: after => some (first.char :: inside.map (·.char), after)

/-- The token of a bracket with the given inside. -/
def bracketToken (inside : List Char) : Glob.Token :=
  match inside with
  | '!' :: others => if others.isEmpty then .within (Glob.charSets inside) else .outside (Glob.charSets others)
  | _ => .within (Glob.charSets inside)

/-- The pattern that at most `fuel` characters stand for. -/
def patternWithin : Nat → List Mark → Glob.Pattern
  | 0, _ => []
  | _ + 1, [] => []
  | fuel + 1, mark :: rest =>
    if !mark.active then .char mark.char :: patternWithin fuel rest
    else
      match mark.char, bracket? rest with
      | '*', _ => .anySequence :: patternWithin fuel rest
      | '?', _ => .anyChar :: patternWithin fuel rest
      | '[', some (inside, after) => bracketToken inside :: patternWithin fuel after
      | c, _ => .char c :: patternWithin fuel rest

/-- The pattern that a field stands for. -/
def patternOf (marks : List Mark) : Glob.Pattern := patternWithin marks.length marks

/-- Whether a field has wildcards. -/
def hasWildcards (marks : List Mark) : Bool :=
  marks.any fun mark => mark.active && "*?[".toList.contains mark.char

/-- Cuts off the shortest or longest beginning that matches a pattern. -/
def cutStart (longest : Bool) (pattern : Glob.Pattern) (text : List Char) : List Char :=
  let counts := List.range (text.length + 1)
  let order := if longest then counts.reverse else counts
  match order.find? fun count => pattern.matches (text.take count) with
  | some count => text.drop count
  | none => text

/-- Cuts off the shortest or longest end that matches a pattern. -/
def cutEnd (longest : Bool) (pattern : Glob.Pattern) (text : List Char) : List Char :=
  let counts := List.range (text.length + 1)
  let order := if longest then counts else counts.reverse
  match order.find? fun count => pattern.matches (text.drop count) with
  | some count => text.take count
  | none => text

/-! ### Paths -/

/-- Whether a path leads to anything, be it a link that leads nowhere. -/
def isThere (files : FileSystem) (text : String) : Bool :=
  match files.resolve false ⟨text⟩ with
  | .ok (.found _ _) => true
  | _ => false

/-- The names in a directory that match, in order. Hidden ones need a leading point in the pattern. -/
def matchingNames (files : FileSystem) (dir : String) (component : List Mark) : List String :=
  match files.lookup? ⟨if dir.isEmpty then "." else dir⟩ with
  | some (location, .directory) =>
    let pattern := patternOf component
    let shown (name : String) : Bool :=
      name.toList.head? != some '.' || pattern.head? == some (.char '.')
    let fitting := (files.names location).filter fun name => shown name && pattern.matches name.toList
    fitting.mergeSort fun a b => a ≤ b
  | _ => []

/-- The parts of a field between slashes. -/
def splitAtSlashes : List Mark → List (List Mark)
  | [] => [[]]
  | mark :: rest =>
    if mark.char == '/' then [] :: splitAtSlashes rest
    else
      match splitAtSlashes rest with
      | part :: more => (mark :: part) :: more
      | [] => [[mark]]

/-- The paths that components behind a directory match. -/
def pathsBelow (files : FileSystem) : List (List Mark) → String → List String
  | [], dir => [dir]
  | [last], dir =>
    if hasWildcards last then (matchingNames files dir last).map (dir ++ ·)
    else if isThere files (dir ++ textOf last) then [dir ++ textOf last]
    else []
  | component :: rest, dir =>
    if hasWildcards component then
      let found := (matchingNames files dir component).map (dir ++ ·)
      (found.filter fun path => files.holdsDirectory ⟨path⟩).flatMap fun path =>
        pathsBelow files rest (path ++ "/")
    else pathsBelow files rest (dir ++ textOf component ++ "/")

/-- The texts that a field becomes. -/
def expandField (files : FileSystem) (field : List Mark) : List String :=
  if hasWildcards field then
    match pathsBelow files (splitAtSlashes field) "" with
    | [] => [textOf field]
    | paths => paths
  else [textOf field]

/-! ### Fields -/

/-- Fields so far, the last of which may go on. -/
structure Fields where
  ended : List (List Mark) := []
  current : Option (List Mark) := none

namespace Fields

/-- Goes on with the current field. -/
def add (fields : Fields) (marks : List Mark) : Fields :=
  { fields with current := some (fields.current.getD [] ++ marks) }

/-- Ends the current field, if there is one. -/
def close (fields : Fields) : Fields := ⟨fields.ended ++ fields.current.toList, none⟩

/-- Goes on with text that is split at blanks. -/
def addSplit (fields : Fields) (text : List Char) : Fields :=
  text.foldl (fun fields c =>
    if " \t\n".toList.contains c then fields.close else fields.add [⟨c, true⟩]) fields

/-- Goes on with text from a parameter or a script. -/
def put (fields : Fields) (quoted : Bool) (text : List Char) : Fields :=
  if quoted then fields.add (marked false text) else fields.addSplit text

/-- Goes on with texts that are fields of their own. -/
def putAll (fields : Fields) : List String → Fields
  | [] => fields
  | [text] => fields.add (marked false text.toList)
  | text :: rest => (fields.add (marked false text.toList)).close.putAll rest

end Fields

/-! ### Parameters -/

/-- The number that the shell is known by. -/
def processNumber : Nat := 4711

/-- The value of a parameter, if it has one. -/
def parameter? (state : State) (name : String) : Option String :=
  match name with
  | "?" => some (toString state.status)
  | "$" => some (toString processNumber)
  | "#" => some (toString (state.arguments.length - 1))
  | "@" => some (" ".intercalate (state.arguments.drop 1))
  | "*" => some (" ".intercalate (state.arguments.drop 1))
  | "-" => some (if state.strict then "e" else "")
  | "!" => none
  | _ =>
    match name.toNat? with
    | some index => state.arguments[index]?
    | none => state.bindings.lookup name

/-- Sets a variable. -/
def State.assign (state : State) (name value : String) : State :=
  { state with bindings := (name, value) :: state.bindings.filter (·.1 != name) }

/-- A printed text without the ends of lines at its end. -/
def withoutFinalLines (text : List Char) : List Char :=
  (text.reverse.dropWhile (· == '\n')).reverse

/-- The digits of an arithmetic expression's value. An expression without one ends the shell. -/
def calculate (expression : List Mark) : Script (List Char) := do
  let state ← Script.state
  let value (name : String) : Int := ((state.bindings.lookup name).bind (·.toInt?)).getD 0
  match Arithmetic.evaluate? value (expression.map (·.char)) with
  | some number => return (toString number).toList
  | none =>
    Script.complain "sh" "1: arithmetic expression: syntax error"
    Script.exit (.code 2)

/-! ### Words -/

/-- How scripts in words are run: what a script prints. -/
abbrev Substitute := List Item → Script (List Char)

mutual

/-- The fields of a word. -/
def fieldsOf (substitute : Substitute) : Nat → Word → Fields → Script Fields
  | 0, _, fields => return fields
  | _ + 1, [], fields => return fields
  | fuel + 1, part :: rest, fields => do
    let fields ←
      match part with
      | .text quoted text => pure (fields.add (marked (!quoted) text))
      | .parameter true "@" .value => pure (fields.putAll ((← Script.state).arguments.drop 1))
      | .parameter quoted name use =>
        pure (fields.put quoted (← valueOf substitute fuel name use))
      | .substitution quoted script =>
        pure (fields.put quoted (withoutFinalLines (← substitute script)))
      | .arithmetic quoted expression =>
        pure (fields.put quoted (← calculate (← fieldOf substitute fuel expression)))
    fieldsOf substitute fuel rest fields

/-- A word as one field. -/
def fieldOf (substitute : Substitute) : Nat → Word → Script (List Mark)
  | 0, _ => return []
  | _ + 1, [] => return []
  | fuel + 1, part :: rest => do
    let first ←
      match part with
      | .text quoted text => pure (marked (!quoted) text)
      | .parameter quoted name use =>
        pure (marked (!quoted) (← valueOf substitute fuel name use))
      | .substitution quoted script =>
        pure (marked (!quoted) (withoutFinalLines (← substitute script)))
      | .arithmetic quoted expression =>
        pure (marked (!quoted) (← calculate (← fieldOf substitute fuel expression)))
    return first ++ (← fieldOf substitute fuel rest)

/-- The text that a parameter gives when it is used. -/
def valueOf (substitute : Substitute) : Nat → String → Use → Script (List Char)
  | 0, _, _ => return []
  | fuel + 1, name, use => do
    let value? := parameter? (← Script.state) name
    let value := (value?.getD "").toList
    let text (word : Word) : Script (List Char) := do
      return (← fieldOf substitute fuel word).map (·.char)
    let counts (orEmpty : Bool) : Bool := value?.isSome && !(orEmpty && value.isEmpty)
    if value?.isNone && (← Script.state).needsValues && use matches .value | .length then
      Script.complain "sh" ("1: " ++ name ++ ": parameter not set")
      Script.exit (.code 2)
    match use with
    | .value => return value
    | .length => return (toString value.length).toList
    | .withoutEnd longest pattern =>
      return cutEnd longest (patternOf (← fieldOf substitute fuel pattern)) value
    | .withoutStart longest pattern =>
      return cutStart longest (patternOf (← fieldOf substitute fuel pattern)) value
    | .orElse orEmpty word => if counts orEmpty then return value else text word
    | .ifThere orEmpty word => if counts orEmpty then text word else return []
    | .orAssign orEmpty word =>
      if counts orEmpty then return value
      else
        let chosen ← text word
        Script.change (·.assign name (String.ofList chosen))
        return chosen

end

/-- The texts that words become. -/
def expandWords (substitute : Substitute) (fuel : Nat) (words : List Word) : Script (List String) := do
  let expanded ← words.mapM fun word => do
    let fields ← fieldsOf substitute fuel word {}
    let files ← Script.files
    return fields.close.ended.flatMap (expandField files)
  return expanded.flatten

/-- The text of a word that is neither split nor matched with paths. -/
def expandText (substitute : Substitute) (fuel : Nat) (word : Word) : Script String := do
  return textOf (← fieldOf substitute fuel word)

end ModPackager.Shell
