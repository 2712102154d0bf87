import ModPackager.TypeScript.Grammar.Types

/-!
# Patterns, parameters and function bodies
-/

namespace ModPackager.TypeScript.Grammar

open Reader

variable (g : Grammar)

/-! ### Patterns -/

/-- Reads the name of a property: a word, a literal or a computed expression. Gives the word. -/
def propertyName : Reader (Option String) := do
  match (← read).token with
  | .word name =>
    advance
    return some name
  | .string | .number | .bigInt =>
    advance
    return none
  | .punctuator "[" =>
    advance
    let _ ← g.expression
    expect "]"
    return none
  | _ => refuse

/-- Reads an initial value if there is one; says whether there was. -/
def initialValue? : Reader Bool := do
  if ← eat "=" then
    let _ ← g.item
    return true
  else return false

/-- Reads a pattern with an optional default value. -/
def bindingElement : Reader Unit := do
  let _ ← g.binding
  let _ ← initialValue? g

/-- Reads one element of a list pattern. -/
def listElement : Reader Unit := do
  if ← eat "..." then
    let _ ← g.binding
  else bindingElement g

/-- Reads a list pattern after its bracket; elements may be left out. -/
def listPattern : Reader Unit := do
  loop do
    let cursor ← read
    if cursor.atEnd || cursor.isPunctuator "]" then return false
    if cursor.isPunctuator "," then advance
    else
      listElement g
      unless ← isPunctuator "]" do expect ","
    return true
  expect "]"

/-- Reads one property of a record pattern. -/
def recordProperty : Reader Unit := do
  if ← eat "..." then
    let _ ← g.binding
  else
    let name ← propertyName g
    if ← eat ":" then bindingElement g
    else
      if name.isNone then refuse
      let _ ← initialValue? g

/-- Reads a binding pattern or name. -/
def bindingPattern : Reader Binding := do
  match (← read).token with
  | .word _ => return .name (← bindingName)
  | .punctuator text =>
    if text == "[" then
      advance
      listPattern g
      if (← read).context.inDeclare then
        let _ ← eat "?"
      return .destructuring
    else if text == openBrace then
      advance
      separated closeBrace (recordProperty g)
      if (← read).context.inDeclare then
        let _ ← eat "?"
      return .destructuring
    else refuse
  | _ => refuse

/-! ### Parameters -/

/-- Reads a parameter that is no rest parameter. -/
def plainParameter : Reader Binding := do
  parameterModifier
  let binding ← g.binding
  let _ ← eat "?"
  annotation? g
  if ← initialValue? g then return .defaulted else return binding

/-- Reads a parameter. -/
def parameter : Reader Unit := do
  if ← eat "..." then
    let _ ← g.binding
    let _ ← initialValue? g
    annotation? g
    let _ ← eat "?"
  else
    let _ ← plainParameter g

/-- Reads parameters between parentheses. -/
def parameters : Reader Unit := do
  expect "("
  separated ")" (parameter g)

/-- Reads a parameter of a constructor; one with an access modifier declares a property and has to
be a name. -/
def constructorParameter : Reader Unit := do
  if ← isPunctuator "..." then parameter g
  else
    let access ← modifier ["public", "protected", "private"]
    let overrides ← modifier ["override"]
    let readonly ← modifier ["readonly"]
    let plain := access.isNone && overrides.isNone && readonly.isNone
    match ← plainParameter g with
    | .destructuring => unless plain do refuse
    | _ => return ()

/-! ### Bodies -/

/-- Circumstances inside the code of a function. -/
def Context.forFunction (isAsync isGenerator : Bool) (context : Context) : Context :=
  { context with
    inAsync := isAsync
    inGenerator := isGenerator
    inConditional := false
    expectColon := false
    includeIn := true
    plainTypes := false }

/-- Reads statements up to the closing brace, which is passed; the end of the source closes too. -/
def blockBody (item : Reader Unit) : Reader Unit := do
  loop do
    let cursor ← read
    if cursor.atEnd || cursor.isPunctuator closeBrace then return false
    item
    return true
  let _ ← eat closeBrace

/-- Reads a block of statements. -/
def block : Reader Unit := do
  expect openBrace
  blockBody do
    let _ ← g (.statement true)

/-- Reads a function's body if there is one; says whether there was. A declaration without a body
ends like a statement. -/
def functionBody (isAsync isGenerator : Bool) : Reader Bool := do
  if !(← isPunctuator openBrace) && (← eatSemicolon) then return false
  within (Context.forFunction isAsync isGenerator) (block g)
  return true

/-- Reads type parameters, parameters, result type and body; says whether there is a body. -/
def functionRest (isAsync isGenerator : Bool) : Reader Bool := do
  typeParameters? g
  within (Context.forFunction isAsync isGenerator) (parameters g)
  if ← isPunctuator ":" then resultType g ":"
  functionBody g isAsync isGenerator

/-- Reads a function declaration from the word `function` on, after the word `async` if `isAsync`
says so. Gives its name. -/
def functionDeclaration (isAsync nameRequired : Bool) : Reader (Option String) := do
  expectWord "function"
  let isGenerator ← eat "*"
  let name ← if nameRequired then some <$> bindingName else bindingName?
  let _ ← functionRest g isAsync isGenerator
  return name

/-- Reads a function expression, which needs a body. -/
def functionExpression (isAsync : Bool) : Reader Shape := do
  expectWord "function"
  let isGenerator ← eat "*"
  let _ ← bindingName?
  unless ← functionRest g isAsync isGenerator do refuse
  return .other

/-- Reads the body of an arrow function; says whether it is a block. -/
def arrowBody (isAsync : Bool) : Reader Bool := do
  if ← isPunctuator openBrace then
    within (Context.forFunction isAsync false) (block g)
    return true
  else
    let change (context : Context) : Context :=
      { context with inAsync := isAsync, inGenerator := false }
    let _ ← within change (g .assignment)
    return false

end ModPackager.TypeScript.Grammar
