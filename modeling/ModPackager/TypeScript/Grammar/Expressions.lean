import ModPackager.TypeScript.Grammar.Functions

/-!
# Expressions

Expressions from the outside in: assignments and arrow functions, conditional and binary expressions,
unary operators, calls and members, and primary expressions. A parenthesised list is read once and
only then taken as an expression or as the parameters of an arrow function.

A missing operand of a unary operator, and a missing left operand of a binary one, are passed over:
reading goes on where the operand failed.
-/

namespace ModPackager.TypeScript.Grammar

open Reader

variable (g : Grammar)

/-! ### Classes of tokens -/

/-- Operators between two operands, the word operators apart. -/
def binaryOperators : List String :=
  ["+", "-", "*", "/", "%", "**", "<<", ">>", ">>>", "<", ">", "<=", ">=", "==", "!=", "===", "!==",
   "&", "|", "^", "&&", "||", "??"]

/-- Operators that assign. -/
def assignmentOperators : List String :=
  ["=", "+=", "-=", "*=", "/=", "%=", "**=", "<<=", ">>=", ">>>=", "&=", "|=", "^=", "&&=", "||=",
   "??="]

/-- The binary operator at the cursor, if there is one. -/
def binaryOperator? (cursor : Cursor) : Option String :=
  match cursor.token with
  | .punctuator _ =>
    if binaryOperators.contains cursor.operator then some cursor.operator else none
  | .word name =>
    if name == "instanceof" || (name == "in" && cursor.context.includeIn) then some name else none
  | _ => none

/-- Whether an expression can begin at the cursor. -/
def startsExpression (cursor : Cursor) : Bool :=
  match cursor.token with
  | .word name =>
    cursor.isReference || literalWords.contains name
      || ["await", "class", "function", "new", "this", "super", "typeof", "void", "delete", "import",
          "yield", "let"].contains name
  | .punctuator text =>
    ["!", "(", "[", openBrace, "++", "--", "~", "+", "-", backQuote, "@", "#", "/", "/=",
      "<"].contains text
  | .string | .number | .bigInt => true
  | _ => false

/-! ### Calls and members -/

/-- Reads one argument or list element, perhaps spread. Gives the shape of its expression. -/
def spreadable : Reader Shape := do
  let _ ← eat "..."
  g.item

/-- Reads arguments between parentheses. -/
def arguments : Reader Unit := do
  expect "("
  within (fun context => { context with expectColon := false }) <| separated ")" do
    let _ ← spreadable g

/-- Reads type arguments that stand alone after an expression. They are taken as such only where what
follows cannot continue a comparison. -/
def loneTypeArguments : Reader (Option Unit) := attempt do
  typeArguments g
  let cursor ← read
  let operator := cursor.operator
  if ["<", ">", "+", "-", "(", backQuote].contains operator then return none
  else if cursor.newline || (binaryOperator? cursor).isSome || !startsExpression cursor then
    return some ()
  else return none

/-- Reads a template after its opening back quote; `strict` refuses malformed escapes. -/
def template (strict : Bool) : Reader Unit :=
  templateParts strict do
    let _ ← g.expression

/-- Reads the rest of an asynchronous arrow function with type parameters. -/
def genericAsyncArrow : Reader (Option Shape) := attempt do
  typeParameters g
  parameters g
  if ← isPunctuator ":" then resultType g ":"
  if (← read).newline then return none
  expect "=>"
  let _ ← arrowBody g true
  return some .arrow

/-- What type arguments after an expression lead to. -/
inductive GenericUse
  /-- An expression that more links can follow. -/
  | link (shape : Shape)
  /-- An expression that ends here. -/
  | done (shape : Shape)

/-- Reads type arguments together with the call or template that they belong to. -/
def genericUse (noCall : Bool) (shape : Shape) : Reader (Option GenericUse) := attempt do
  let asyncHead := !noCall && shape == .name "async" && !(← read).newline
  if asyncHead then
    if let some found ← genericAsyncArrow g then return some (.done found)
  typeArguments g
  let cursor ← read
  if !noCall && cursor.isPunctuator "(" then
    arguments g
    return some (.link (if shape == .optionalChain then shape else .other))
  else if cursor.isPunctuator backQuote then
    template g false
    return some (.link .other)
  else if cursor.isPunctuator "=" || cursor.isWord "as" then return some (.done .other)
  else return none

/-- Reads the link of an optional chain after its mark. A call counts as a member here. -/
def optionalLink : Reader Unit := do
  let cursor ← read
  match cursor.token with
  | .word _ => advance
  | .punctuator text =>
    if text == "[" then
      advance
      let _ ← g.expression
      expect "]"
    else if text == "(" then arguments g
    else if text == "<" then
      typeArguments g
      arguments g
    else if text == "#" then
      let _ ← privateName
    else refuse
  | _ => refuse

/-- Reads one link of a chain, if there is one. -/
def link? (noCall : Bool) (shape : Shape) : Reader GenericUse := do
  let kept : Shape := if shape == .optionalChain then shape else .other
  let cursor ← read
  if cursor.isPunctuator "!" && !cursor.newline then
    advance
    return .link kept
  if cursor.operator == "<" then
    if let some use ← genericUse g noCall shape then return use
    if let some () ← loneTypeArguments g then return .link .other
  let cursor ← read
  match cursor.token with
  | .punctuator text =>
    if text == "?." then
      advance
      optionalLink g
      return .link .optionalChain
    else if text == "[" then
      advance
      let _ ← g.expression
      expect "]"
      return .link kept
    else if text == "(" && !noCall then
      arguments g
      return .link kept
    else if text == "." then
      advance
      if ← isPunctuator "#" then
        let _ ← privateName
      else
        let _ ← anyWord
      return .link kept
    else if text == backQuote then
      template g false
      return .link .other
    else return .done shape
  | _ => return .done shape

/-- Reads the links of a chain, at most `fuel` of them. -/
def linksFrom (noCall : Bool) : Nat → Shape → Reader Shape
  | 0, shape => return shape
  | fuel + 1, shape => do
    match ← link? g noCall shape with
    | .link shape => linksFrom noCall fuel shape
    | .done shape => return shape

/-- Reads the links of a chain. -/
def links (noCall : Bool) (shape : Shape) : Reader Shape := do
  linksFrom g noCall (← read).bound shape

/-! ### Parentheses -/

/-- One item of a parenthesised list. -/
inductive ParenItem
  | expression (shape : Shape) (spread : Bool)
  /-- Only a parameter can look like this. -/
  | pattern

/-- Whether an item can be a parameter. -/
def ParenItem.isParameter : ParenItem → Bool
  | .expression shape _ => shape.isPattern
  | .pattern => true

/-- Reads the branches of a conditional expression after its question mark. -/
def branches : Reader Unit := do
  let _ ← within (fun context =>
    { context with inConditional := true, expectColon := true, includeIn := true }) (g .assignment)
  expect ":"
  let _ ← within (fun context =>
    { context with inConditional := true, expectColon := false }) (g .assignment)

/-- Reads a binary expression, where a left operand may be missing. -/
def binaryFrom (left : Shape) : Reader Shape := do
  operatorsFrom left left (← read).bound
where
  /-- Reads operators and operands; `whole` is the expression so far and `operand` its last operand. -/
  operatorsFrom (whole operand : Shape) : Nat → Reader Shape
    | 0 => return whole
    | fuel + 1 => do
      let cursor ← read
      if !cursor.newline && (cursor.isWord "as" || cursor.isWord "satisfies") then
        advance
        let constant ← if cursor.isWord "as" then eatWord "const" else pure false
        unless constant do g.type
        operatorsFrom .other .other fuel
      else
        match binaryOperator? cursor with
        | none => return whole
        | some operator =>
          if operator == "**" && operand == .unary then refuse
          advanceOver operator
          let right ← g .unary
          operatorsFrom .binary right fuel

/-- Reads a binary expression. -/
def binary : Reader Shape := do
  let left ← try g .unary catch refusal =>
    if (binaryOperator? (← read)).isSome then pure .other else throw refusal
  if left == .arrow then return .arrow else binaryFrom g left

/-- Reads the value of an assignment, if an assignment operator follows `target`. -/
def assignmentTo (target : Shape) : Reader Shape := do
  let cursor ← read
  let operator := match cursor.token with
    | .punctuator _ => cursor.operator
    | _ => ""
  if assignmentOperators.contains operator then
    if operator == "=" && !target.isPattern then refuse
    advanceOver operator
    let _ ← g .assignment
    return .other
  else return target

/-- Reads the type and default value of a parameter. -/
def parameterEnd : Reader Unit := do
  annotation? g
  if ← eat "=" then
    let _ ← g .assignment

/-- Lets an arrow function begin at the current token. -/
def allowArrow : Reader Unit :=
  move (fun cursor => { cursor with arrowStart := cursor.index }) fun _ => List.suffix_rfl

/-- Reads one item between parentheses. -/
def parenItem : Reader ParenItem := do
  allowArrow
  parameterModifier
  let cursor ← read
  let spread := cursor.isPunctuator "..."
  let shape ←
    if cursor.isReference || (spread && cursor.advance.isReference) then
      let _ ← eat "..."
      let shape ← binary g
      if spread then pure shape else assignmentTo g shape
    else spreadable g
  let cursor ← read
  let following := cursor.advance
  let optional := cursor.isPunctuator "?" && [",", ":", ")", "="].any following.isPunctuator
  if optional then
    match shape with
    | .name _ => advance
    | _ => refuse
    parameterEnd g
    return .pattern
  else if cursor.isPunctuator "?" && !spread then
    advance
    branches g
    parameterRest .conditional false
  else parameterRest shape spread
where
  /-- Decides between an expression and a parameter with a type. -/
  parameterRest (shape : Shape) (spread : Bool) : Reader ParenItem := do
    if ← isPunctuator ":" then
      unless shape.isPattern do refuse
      parameterEnd g
      return .pattern
    else return .expression shape spread

/-- Reads the items between parentheses, at most `fuel` of them, after those in `items`. -/
def parenItemsFrom (items : List ParenItem) : Nat → Reader (List ParenItem)
  | 0 => refuse
  | fuel + 1 => do
    let cursor ← read
    if cursor.atEnd || cursor.isPunctuator ")" then
      expect ")"
      return items
    let item ← parenItem g
    unless ← isPunctuator ")" do expect ","
    parenItemsFrom (items ++ [item]) fuel

/-- Reads the rest of an arrow function in a branch of a conditional expression, when a result type
follows its parameters. -/
def arrowInBranch (isAsync expectColon parameters : Bool) : Reader (Option Shape) := attempt do
  resultType g ":"
  expect "=>"
  unless parameters do refuse
  let _ ← arrowBody g isAsync
  if expectColon && !(← isPunctuator ":") then return none
  return some .arrow

/-- Reads the result type of an arrow function, if its arrow follows. -/
def arrowResult : Reader (Option Unit) := attempt do
  resultType g ":"
  if ← isPunctuator "=>" then return some () else return none

/-- Reads a parenthesised expression or an arrow function. `canBeArrow` says whether an arrow
function may stand here, and `isAsync` whether the word `async` stands before it. -/
def parenthesised (canBeArrow isAsync : Bool) : Reader Shape := do
  expect "("
  let fuel := (← read).bound
  let items ← within (fun context => { context with expectColon := false, includeIn := true })
    (parenItemsFrom g [] fuel)
  let parameters := items.all ParenItem.isParameter
  let context := (← read).context
  if context.inConditional && (← isPunctuator ":") then
    if let some found ← arrowInBranch g isAsync context.expectColon parameters then return found
  let result ←
    if !context.expectColon && (← isPunctuator ":") then arrowResult g else pure none
  let hasPattern := items.any fun item => match item with
    | .pattern => true
    | .expression .. => false
  if hasPattern || result.isSome || (← isPunctuator "=>") then
    if (← read).newline || !canBeArrow then refuse
    expect "=>"
    unless parameters do refuse
    let braced ← arrowBody g isAsync
    if braced && (binaryOperator? (← read)).isSome then binaryFrom g .other else return .arrow
  else if isAsync then return .other
  else
    let spread := items.any fun item => match item with
      | .expression _ spread => spread
      | .pattern => false
    if items.isEmpty || spread then refuse
    return .other

/-! ### Literals -/

/-- Reads an array literal after its bracket; elements may be left out. -/
def arrayLiteral : Reader Shape := do
  let fuel := (← read).bound
  elementsFrom fuel true
where
  /-- Reads elements, where `pattern` says whether those before can be read again as patterns. -/
  elementsFrom : Nat → Bool → Reader Shape
    | 0, _ => refuse
    | fuel + 1, pattern => do
      let cursor ← read
      if cursor.atEnd || cursor.isPunctuator "]" then
        expect "]"
        return .literal pattern
      if cursor.isPunctuator "," then
        advance
        elementsFrom fuel pattern
      else
        let shape ← spreadable g
        unless ← isPunctuator "]" do expect ","
        elementsFrom fuel (pattern && shape.isPattern)

/-- Whether a property name can be followed by the current token. -/
def continuesProperty (cursor : Cursor) : Bool :=
  match cursor.token with
  | .punctuator text => ["(", "[", ":", ",", "?", "=", "*", "<", "#"].contains text
  | .word _ | .string | .number | .bigInt => true
  | _ => false

/-- Reads one property of an object literal; says whether it can be read again as a pattern. -/
def property : Reader Bool := do
  if ← eat "..." then return (← g.item).isPattern
  if ← eat "*" then
    let _ ← propertyName g
    let _ ← functionRest g false true
    return false
  parameterModifier
  let name ← propertyName g
  let cursor ← read
  if !continuesProperty cursor && !(name.isSome && cursor.isPunctuator closeBrace) then return true
  if ← eat ":" then return (← g.item).isPattern
  let cursor ← read
  if cursor.isPunctuator "(" || cursor.isPunctuator "<" then
    let _ ← functionRest g false false
    return false
  match name with
  | none => refuse
  | some name =>
    let _ ← eat "?"
    let cursor ← read
    if cursor.isPunctuator "," || cursor.isPunctuator closeBrace then return true
    else if ← eat "=" then
      let _ ← g.item
      return true
    else if ["get", "set", "async"].contains name then
      let isGenerator ← if name == "async" then eat "*" else pure false
      let _ ← propertyName g
      let _ ← functionRest g (name == "async") isGenerator
      return false
    else refuse

/-- Reads an object literal after its brace. -/
def objectLiteral : Reader Shape := do
  let fuel := (← read).bound
  propertiesFrom fuel true
where
  /-- Reads properties, where `pattern` says whether those before can be read again as patterns. -/
  propertiesFrom : Nat → Bool → Reader Shape
    | 0, _ => refuse
    | fuel + 1, pattern => do
      let cursor ← read
      if cursor.atEnd || cursor.isPunctuator closeBrace then
        expect closeBrace
        return .literal pattern
      let again ← property g
      unless ← isPunctuator closeBrace do expect ","
      propertiesFrom fuel (pattern && again)

/-- Reads a regular expression from its opening slash. -/
def regex : Reader Shape := do
  if ← skipTo? true (fun cursor => dropRegex false (cursor.start.drop 1)) fun _ _ h =>
      (suffix_of_dropRegex h).trans (List.drop_suffix 1 _) then return .other
  else
    move (fun cursor => { cursor with token := .malformed, readToken_start := nofun }) fun _ => List.suffix_rfl
    refuse

/-! ### Primary expressions -/

/-- Whether an arrow function may begin at the current token. -/
def canBeArrow (cursor : Cursor) : Bool := cursor.arrowStart == cursor.index

/-- Reads an expression that begins with a variable: the variable itself, or an arrow function with
one parameter. -/
def variableOrArrow : Reader Shape := do
  let arrowAllowed := canBeArrow (← read)
  let name ← anyWord
  let cursor ← read
  if arrowAllowed && name == "async" && cursor.isReference && !cursor.newline then
    let _ ← bindingName
    expect "=>"
    let _ ← arrowBody g true
    return .arrow
  else if arrowAllowed && !cursor.newline && cursor.isPunctuator "=>" then
    advance
    let _ ← arrowBody g false
    return .arrow
  else return .name name

/-- Reads an expression that begins with the word `async`. -/
def asyncExpression : Reader Shape := do
  let cursor ← read
  let arrowAllowed := canBeArrow cursor
  let following := cursor.advance
  if following.isWord "function" && !following.newline then
    advance
    functionExpression g true
  else
    if arrowAllowed && following.isPunctuator "<" then
      let found ← attempt do
        advance
        genericAsyncArrow g
      if let some shape := found then return shape
    if arrowAllowed && following.isPunctuator "(" && !following.newline then
      advance
      parenthesised g arrowAllowed true
    else variableOrArrow g

/-- Reads a primary expression; `classExpression` reads a class. -/
def primary (classExpression : Reader Unit) : Reader Shape := do
  let cursor ← read
  match cursor.token with
  | .string | .number | .bigInt =>
    advance
    return .other
  | .word "this" | .word "null" | .word "true" | .word "false" =>
    advance
    return .other
  | .word "async" => asyncExpression g
  | .word "function" => functionExpression g false
  | .word "class" =>
    classExpression
    return .other
  | .word name =>
    if cursor.isReference || name == "let" then variableOrArrow g else refuse
  | .punctuator text =>
    if text == "(" then parenthesised g (canBeArrow cursor) false
    else if text == "[" then
      advance
      arrayLiteral g
    else if text == openBrace then
      advance
      objectLiteral g
    else if text == backQuote then
      template g true
      return .other
    else if text == "/" || text == "/=" then regex
    else if text == "#" then
      let _ ← privateName
      return .other
    else refuse
  | _ => refuse

/-! ### Members and calls from the left -/

/-- Reads an expression with `new`, `super` or `import` in front, or a primary expression, with the
links that are no calls. -/
def memberOrNew (classExpression : Reader Unit) : Reader Shape := do
  if ← eatWord "new" then
    if ← eat "." then
      expectWord "target"
      links g true .other
    else
      let callee ← g .callee
      if callee == .arrow then return .arrow
      if callee == .optionalChain then refuse
      if ← isPunctuator "<" then
        let _ ← attempt do
          typeArguments g
          if ← isPunctuator "(" then return some () else return none
      if ← isPunctuator "(" then
        arguments g
        links g true .other
      else return .bareNew
  else if ← eatWord "super" then
    let cursor ← read
    if ["(", ".", "["].any cursor.isPunctuator then links g false .other else refuse
  else if ← eatWord "import" then
    if ← eat "." then
      let _ ← anyWord
    else
      unless ← isPunctuator "(" do refuse
      arguments g
    links g true .other
  else
    let shape ← primary g classExpression
    if shape == .arrow then return .arrow
    let instantiated ←
      if (← read).operator == "<" then loneTypeArguments g else pure none
    links g true (if instantiated.isSome then .other else shape)

/-- Reads an expression that can stand on the left of an assignment, calls included. -/
def leftHandSide (classExpression : Reader Unit) : Reader Shape := do
  let cursor ← read
  if cursor.context.markup && cursor.isPunctuator "<" then
    g .markupElement
    expect ">"
    return .other
  let callee ← memberOrNew g classExpression
  if callee == .arrow then return .arrow
  let operator := (← read).operator
  let typed ←
    if operator == "<" || operator == "<<" then attempt do
      typeArguments g
      if ← isPunctuator "(" then return some () else return none
    else pure none
  if callee == .bareNew then
    if typed.isSome then refuse
    return .bareNew
  if ← isPunctuator "(" then
    arguments g
    links g false (if callee == .optionalChain then callee else .other)
  else return callee

/-! ### Unary operators -/

/-- Operators before an operand whose failure is passed over. -/
def unaryOperators : List String := ["+", "-", "~", "!"]

/-- Words that are such operators. -/
def unaryWords : List String := ["delete", "void", "typeof"]

/-- Reads the operand of `await`. Without an operand the word is taken as a name. -/
def awaitExpression : Reader Shape := do
  expectWord "await"
  let cursor ← read
  if cursor.isPunctuator "*" then refuse
  let bare := !cursor.context.inAsync
    && ([")", "]", ";", ","].any cursor.isPunctuator || cursor.atStatementEnd)
  if bare then return .name "await"
  let _ ← g .unary
  return .unary

/-- Reads a type assertion after its opening angle bracket. -/
def typeAssertion : Reader Shape := do
  expect "<"
  unless ← eatWord "const" do g.type
  expect ">"
  let _ ← g .unary
  return .other

/-- Reads a unary expression. -/
def unary (classExpression : Reader Unit) : Reader Shape := do
  let cursor ← read
  let isUnary := match cursor.token with
    | .punctuator text => unaryOperators.contains text
    | .word name => unaryWords.contains name
    | _ => false
  if !cursor.context.markup && cursor.operator == "<" then typeAssertion g
  else if cursor.isPunctuator "++" || cursor.isPunctuator "--" then
    advance
    let _ ← g .unary
    return .update
  else if isUnary then
    advance
    let _ ← orElseHere (g .unary) .other
    return .unary
  else if cursor.isWord "await" then awaitExpression g
  else
    let shape ← leftHandSide g classExpression
    if shape == .arrow then return .arrow
    let cursor ← read
    if !cursor.newline && (cursor.isPunctuator "++" || cursor.isPunctuator "--") then
      advance
      return .update
    else return shape

/-! ### Assignments and sequences -/

/-- Reads a conditional expression. -/
def conditional : Reader Shape := do
  let shape ← binary g
  if shape == .arrow then return .arrow
  if ← eat "?" then
    branches g
    return .conditional
  else return shape

/-- Reads an expression with `yield`. -/
def yieldExpression : Reader Shape := do
  expectWord "yield"
  let cursor ← read
  if cursor.newline || (!cursor.isPunctuator "*" && !startsExpression cursor) then return .other
  let _ ← eat "*"
  let _ ← g .assignment
  return .other

/-- Reads an assignment or an expression that can be its target. -/
def plainAssignment : Reader Shape := do
  let cursor ← read
  if cursor.context.inGenerator && cursor.isWord "yield" then yieldExpression g
  else
    let mayBeArrow := match cursor.token with
      | .word name => !keywords.contains name && !literalWords.contains name
      | .punctuator text => text == "("
      | _ => false
    if mayBeArrow then allowArrow
    match ← conditional g with
    | .arrow => return .arrow
    | .conditional => return .conditional
    | .binary => return .binary
    | .unary => return .unary
    | .update => return .update
    | target => assignmentTo g target

/-- Reads an arrow function with type parameters. -/
def genericArrow : Reader (Option Shape) := attempt do
  typeParameters g
  if (← plainAssignment g) == .arrow then return some .arrow else return none

/-- Reads an expression without a comma. -/
def assignment : Reader Shape := do
  let cursor ← read
  if cursor.operator == "<" then
    if cursor.context.markup then
      let element ← attempt do
        return some (← plainAssignment g)
      if let some shape := element then return shape
    if cursor.advance.isAnyWord then
      if let some found ← genericArrow g then return found
  plainAssignment g

/-- Reads an expression. -/
def sequence : Reader Shape := do
  let first ← g .assignment
  if ← isPunctuator "," then
    loop do
      unless ← eat "," do return false
      let _ ← g .assignment
      return true
    return .other
  else return first

end ModPackager.TypeScript.Grammar
