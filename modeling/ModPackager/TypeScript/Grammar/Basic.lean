import ModPackager.TypeScript.Cursor

/-!
# Productions and what they give

The grammar is checked, not built: a production gives only what another production, or the search for
top-level functions, asks about what was read. Productions that contain each other are tied together
by a table. A production gets the table of the level below it, so nesting is bounded by the number of
levels, and each production is an ordinary definition.
-/

namespace ModPackager.TypeScript

/-- What kind of expression was read. -/
inductive Shape
  /-- A variable. -/
  | name (id : String)
  /-- An arrow function, which ends the expression it stands in. -/
  | arrow
  | unary
  | update
  | binary
  | conditional
  /-- A call of `new` without arguments. -/
  | bareNew
  /-- A chain with an optional link. -/
  | optionalChain
  /-- An object or array literal; the flag says whether it can be read again as a pattern. -/
  | literal (pattern : Bool)
  | other
deriving DecidableEq, Repr

/-- Whether an expression can be read again as a pattern. Only accessors and methods inside literals
prevent it. -/
def Shape.isPattern : Shape → Bool
  | .literal pattern => pattern
  | _ => true

/-- What kind of binding pattern was read. -/
inductive Binding
  | name (id : String)
  /-- A list or record pattern. -/
  | destructuring
  /-- A pattern with a default value. -/
  | defaulted
  /-- The rest of a list. -/
  | rest
deriving DecidableEq, Repr

/-- The head of a function declaration: its name, and the length of the source from its first token
on. -/
structure FunctionHead where
  name : Option String
  place : Nat
deriving DecidableEq, Repr

/-- Productions that contain each other. -/
inductive Production
  /-- An expression, commas included. -/
  | expression
  /-- An expression without a comma. -/
  | assignment
  | unary
  /-- The callee of `new`. -/
  | callee
  /-- A type. -/
  | type
  /-- A type that is no conditional type. -/
  | plainType
  /-- A type without union, intersection or function arrow outside brackets. -/
  | simpleType
  /-- A binding pattern or name. -/
  | binding
  /-- A statement; the flag says whether it may declare. -/
  | statement (declares : Bool)
  /-- A statement, import or export. -/
  | moduleItem
  /-- A markup element. -/
  | markupElement

/-- What a production gives. -/
@[reducible] def Production.Result : Production → Type
  | .expression | .assignment | .unary | .callee => Shape
  | .type | .plainType | .simpleType | .markupElement => Unit
  | .binding => Binding
  | .statement _ | .moduleItem => Option FunctionHead

/-- A reader for each production. -/
abbrev Grammar := (production : Production) → Reader production.Result

namespace Grammar

variable (g : Grammar)

/-- Reads an expression in which `in` is an operator. -/
def expression : Reader Shape :=
  Reader.within (fun context => { context with includeIn := true }) (g .expression)

/-- Reads an expression without a comma, in which `in` is an operator. -/
def item : Reader Shape :=
  Reader.within (fun context => { context with includeIn := true }) (g .assignment)

/-- Reads a type. -/
def type : Reader Unit := g .type

/-- Reads a binding pattern or name. -/
def binding : Reader Binding := g .binding

end Grammar

namespace Reader

/-- The name that the current word binds. A module refuses keywords as names, apart from those that
only strict code refuses, which are accepted here. -/
def bindingName : Reader String := do
  let cursor ← read
  match cursor.token with
  | .word name =>
    let accepted := name == "this" || name == "yield" || name == "let"
      || (name == "await" && cursor.context.inDeclare)
      || !(keywords.contains name || literalWords.contains name)
    if accepted then
      advance
      return name
    else refuse
  | _ => refuse

/-- A binding name if the current token can be one. -/
def bindingName? : Reader (Option String) := do
  let cursor ← read
  if cursor.isReference || cursor.isWord "this" then
    return some (← bindingName)
  else return none

/-- Reads a private name, whose mark and word stand together. Gives the word. -/
def privateName : Reader String := do
  expect "#"
  let cursor ← read
  unless cursor.adjoins do refuse
  anyWord

/-- Whether the current token can stand after a modifier. -/
def canFollowModifier (cursor : Cursor) : Bool :=
  !cursor.newline && (cursor.isAnyWord
    || match cursor.token with
      | .punctuator text => ["[", openBrace, "*", "...", "#"].contains text
      | .string | .number | .bigInt => true
      | _ => false)

/-- Passes one of the given modifiers if one stands here and modifies what follows. -/
def modifier (allowed : List String) : Reader (Option String) := do
  let cursor ← read
  match cursor.token with
  | .word name =>
    let following := cursor.advance
    let opensBlock := name == "static" && following.isPunctuator openBrace
    if allowed.contains name && canFollowModifier following && !opensBlock then
      advance
      return some name
    else return none
  | _ => return none

/-- Passes a parameter modifier if a parameter follows it. -/
def parameterModifier : Reader Unit := do
  let cursor ← read
  match cursor.token with
  | .word name =>
    let known := ["public", "protected", "private", "readonly"].contains name
    let following := cursor.advance
    if known && (following.isAnyWord || following.isPunctuator openBrace
        || following.isPunctuator "[") then
      advance
  | _ => return ()

end Reader

end ModPackager.TypeScript
