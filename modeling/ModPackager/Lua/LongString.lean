import ModPackager.Text.Lines

/-!
# Scripts embedded as Lua strings

A compiled script can be handed to the host as a global string. The string is a long bracket whose
level is raised until the closing bracket does not occur in the script, so no escape is needed. The
search is bounded: a bracket longer than the script cannot occur in it.
-/

namespace ModPackager.Lua

open Text

/-- The closing long bracket of a level. -/
def closing (level : Nat) : List Char := ']' :: (List.replicate level '=' ++ [']'])

/-- The opening long bracket of a level. -/
def opening (level : Nat) : List Char := '[' :: (List.replicate level '=' ++ ['['])

/-- The least level at or above `level` whose closing bracket does not occur, looking at no more than
`fuel` levels. -/
def searchLevel (body : List Char) : Nat → Nat → Nat
  | 0, level => level
  | fuel + 1, level =>
    if occurs (closing level) body then searchLevel body fuel (level + 1) else level

/-- The least level, one or more, whose closing bracket does not occur in `body`. -/
def bracketLevel (body : List Char) : Nat := searchLevel body body.length 1

/-- Upper case letters, digits and underscores; any other character becomes an underscore. -/
def identifierOf (name : String) : String :=
  name.map fun c => if c.isAlphanum || c == '_' then c.toUpper else '_'

/-- The name of the global that holds the script `stem` of the mod with the given name prefix. -/
def globalName (modPrefix stem : String) : String :=
  identifierOf modPrefix ++ "_" ++ identifierOf stem ++ "_CODE_STR"

/-- The chunk that assigns `body`, on lines of its own, to the script's global. -/
def embed (modPrefix stem : String) (body : String) : String :=
  let level := bracketLevel body.toList
  globalName modPrefix stem ++ " = " ++ String.ofList (opening level) ++ "\n" ++ body ++ "\n"
    ++ String.ofList (closing level) ++ "\n"

end ModPackager.Lua
