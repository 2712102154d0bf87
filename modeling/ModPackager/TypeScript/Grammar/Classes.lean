import ModPackager.TypeScript.Grammar.Expressions

/-!
# Classes

A member is read by its modifiers first: a modifier that turns out to be a member's name is taken as
that name. What only a checker would refuse, such as modifiers in a wrong order, is accepted.
-/

namespace ModPackager.TypeScript.Grammar

open Reader

variable (g : Grammar)

/-! ### Heads -/

/-- Reads the name of a class. -/
def className : Reader Unit := do
  if ← isWord "let" then refuse
  let _ ← bindingName

/-- Reads the name of a class if there is one. -/
def className? : Reader Unit := do
  let cursor ← read
  if cursor.isReference || cursor.isWord "this" then className

/-- Reads an expression that names a class or interface, with its type arguments; `classExpression`
reads a class. -/
def heritage (classExpression : Reader Unit) : Reader Unit := do
  let _ ← leftHandSide g classExpression
  if ← isPunctuator "<" then typeArguments g

/-- Reads expressions that name interfaces, up to a brace or the next clause. -/
def heritageList (classExpression : Reader Unit) : Reader Unit := do
  let atEnd : Reader Bool := do
    let cursor ← read
    return cursor.isPunctuator openBrace || cursor.isWord "implements" || cursor.isWord "extends"
  loop do
    if ← atEnd then return false
    heritage g classExpression
    if ← eat "," then return true
    unless ← atEnd do expect ","
    return false

/-! ### Members -/

/-- Whether the parameters of a method begin at the cursor. -/
def startsMethod (cursor : Cursor) : Bool := cursor.isPunctuator "(" || cursor.isPunctuator "<"

/-- Whether a property's mark, type, value or end stands at the cursor; `inferred` lets the end of a
line count as an end. -/
def startsPropertyRest (inferred : Bool) (cursor : Cursor) : Bool :=
  ["!", ":", "=", closeBrace].any cursor.isPunctuator
    || if inferred then cursor.atStatementEnd else cursor.isPunctuator ";"

/-- Reads a property after its name and question mark. Its semicolon may be missing. -/
def propertyRest (optional : Bool) : Reader Unit := do
  unless optional do
    let _ ← eat "!"
  annotation? g
  let _ ← initialValue? g
  let _ ← eatSemicolon

/-- Reads the rest of a member whose name was taken for a modifier; says whether it was one. -/
def memberNamedByModifier (inferred : Bool) : Reader Bool := do
  let cursor ← read
  if startsMethod cursor then
    let _ ← functionRest g false false
    return true
  else if startsPropertyRest inferred cursor || cursor.isPunctuator "?" then
    propertyRest g (← eat "?")
    return true
  else return false

/-- Reads the name of a member. Gives it unless it is private, computed or a literal. -/
def memberKey : Reader (Option String) := do
  if ← isPunctuator "#" then
    let _ ← privateName
    return none
  else propertyName g

/-- Reads a constructor after its name. -/
def constructorRest : Reader Unit := do
  typeParameters? g
  expect "("
  separated ")" (constructorParameter g)
  annotation? g
  let _ ← functionBody g false false

/-- Reads the rest of a method that the word `async` begins. -/
def asyncMethod : Reader Unit := do
  let _ ← modifier ["override"]
  let isGenerator ← eat "*"
  let name ← memberKey g
  if name == some "constructor" then refuse
  let _ ← eat "?"
  let _ ← functionRest g true isGenerator

/-- Reads a member after its modifiers. -/
def memberFromKey (isReadonly : Bool) : Reader Unit := do
  let name ← memberKey g
  let isConstructor := name == some "constructor"
  let optional ← eat "?"
  let cursor ← read
  if startsMethod cursor then
    if isReadonly then refuse
    if isConstructor then constructorRest g
    else
      let _ ← functionRest g false false
  else
    let generatorBelow := cursor.newline && cursor.isPunctuator "*"
    let isAccessor := (name == some "get" || name == some "set")
      && !startsPropertyRest false cursor && !generatorBelow
    if isAccessor then
      let _ ← memberKey g
      let _ ← functionRest g false false
    else if startsPropertyRest true cursor then
      if isConstructor then refuse
      propertyRest g optional
    else if name == some "async" then asyncMethod g
    else refuse

/-- Reads a member after the word `static` and what stands before it. -/
def memberAfterStatic (isStatic hasAccess : Bool) : Reader Unit := do
  let modifiers ← takeModifiers [] (← read).bound
  if (isStatic || modifiers.contains "static") && (← isPunctuator openBrace) then block g
  else
    let indexed ←
      if hasAccess || modifiers.contains "abstract" || modifiers.contains "override" then pure false
      else indexSignature? g
    if indexed then return ()
    else if ← eat "*" then
      let _ ← memberKey g
      let _ ← functionRest g false true
    else memberFromKey g (modifiers.contains "readonly")
where
  /-- Passes modifiers and gives them all. -/
  takeModifiers (found : List String) : Nat → Reader (List String)
    | 0 => return found
    | fuel + 1 => do
      match ← modifier ["abstract", "readonly", "override", "static"] with
      | some name => takeModifiers (name :: found) fuel
      | none => return found

/-- Reads a member of a class. -/
def classMember : Reader Unit := do
  if ← eat ";" then return ()
  let declared ← eatWord "declare"
  let access ← modifier ["public", "protected", "private", "in", "out"]
  let declared ← if declared then pure true else eatWord "declare"
  if declared then
    if ← memberNamedByModifier g true then return ()
  let isStatic ← eatWord "static"
  if isStatic then
    if ← memberNamedByModifier g false then return ()
  if ← eatWord "accessor" then
    if ← memberNamedByModifier g true then return ()
  memberAfterStatic g isStatic access.isSome

/-- Reads a class after the word `class`, its name apart. -/
def classRest (classExpression : Reader Unit) : Reader Unit := do
  typeParameters? g
  if ← eatWord "extends" then
    heritage g classExpression
    if ← eat "," then heritageList g classExpression
  if ← eatWord "extends" then heritage g classExpression
  if ← eatWord "implements" then heritageList g classExpression
  if ← eatWord "implements" then heritageList g classExpression
  if ← eatWord "extends" then heritage g classExpression
  expect openBrace
  loop do
    let cursor ← read
    if cursor.atEnd || cursor.isPunctuator closeBrace then return false
    classMember g
    return true
  expect closeBrace

/-- Reads a class from the word `class` on. A class that stands among the heritage of another one is
read a level below. -/
def classFrom (nameRequired : Bool) : Reader Unit := do
  expectWord "class"
  if nameRequired then className else className?
  classRest g nested
where
  /-- Reads a class in the heritage of a class. -/
  nested : Reader Unit := do
    let _ ← g .unary

end ModPackager.TypeScript.Grammar
