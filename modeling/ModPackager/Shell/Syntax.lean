/-!
# Shell scripts

A script is a list of items. An item is a chain of pipelines, of which each next one runs if the one
before succeeded, or if it failed. A word is made of parts, which say what of it is quoted.
-/

namespace ModPackager.Shell

/-- How a file is opened for a descriptor. -/
inductive Opening
  | input
  | output
  | append
deriving DecidableEq, Repr

mutual

/-- A part of a word. -/
inductive Part
  | text (quoted : Bool) (text : List Char)
  | parameter (quoted : Bool) (name : String) (use : Use)
  /-- What a script prints. -/
  | substitution (quoted : Bool) (script : List Item)
  /-- The number that an expression stands for. -/
  | arithmetic (quoted : Bool) (expression : List Part)

/-- How a parameter is used. The flags say whether an empty value counts as none. -/
inductive Use
  | value
  | length
  | withoutEnd (longest : Bool) (pattern : List Part)
  | withoutStart (longest : Bool) (pattern : List Part)
  | orElse (orEmpty : Bool) (word : List Part)
  | orAssign (orEmpty : Bool) (word : List Part)
  | ifThere (orEmpty : Bool) (word : List Part)

/-- Where a descriptor leads. -/
inductive Redirection
  | file (descriptor : Nat) (opening : Opening) (target : List Part)
  /-- To where another descriptor leads. -/
  | same (descriptor other : Nat)

/-- A command. -/
inductive Command
  | simple (assignments : List (String × List Part)) (words : List (List Part))
  | subshell (body : List Item)
  | group (body : List Item)
  | each (name : String) (words : List (List Part)) (body : List Item)
  | choose (word : List Part) (arms : List (List (List Part) × List Item))
  | branch (condition consequence alternative : List Item)
  /-- A loop that goes on while its condition has the given success. -/
  | loop (success : Bool) (condition body : List Item)
  | redirected (command : Command) (redirections : List Redirection)

/-- Commands joined by pipes. -/
inductive Pipeline
  | pipeline (negated : Bool) (commands : List Command)

/-- A chain of pipelines; the flags say whether the next one needs success or failure. -/
inductive Item
  | item (background : Bool) (first : Pipeline) (rest : List (Bool × Pipeline))

end

/-- A word. -/
abbrev Word := List Part

end ModPackager.Shell
