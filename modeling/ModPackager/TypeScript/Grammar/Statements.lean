import ModPackager.TypeScript.Grammar.Classes

/-!
# Statements and declarations

Some faults are passed over and reading goes on: a missing semicolon after variables, a `catch` or
`finally` without `try`. Names that only sometimes begin a declaration (`type`, `namespace`,
`declare` and others) are read as an expression first, and what follows decides.
-/

namespace ModPackager.TypeScript.Grammar

open Reader

variable (g : Grammar)

/-- Reads an expression between parentheses. -/
def condition : Reader Unit := do
  expect "("
  let _ ← g.expression
  expect ")"

/-- Reads a statement that is no declaration. -/
def substatement : Reader Unit := do
  let _ ← g (.statement false)

/-! ### Variables -/

/-- Whether `let` begins a declaration when the cursor stands after it. -/
def followsLet (cursor : Cursor) : Bool :=
  match cursor.token with
  | .word name =>
    ["let", "yield", "await"].contains name
      || !(hardKeywords.contains name || literalWords.contains name)
  | .punctuator text => text == openBrace || text == "["
  | _ => false

/-- Reads one declared variable. `kind` is the word that declares it; in the head of a loop the value
may be missing before `in` and `of`. -/
def declarator (kind : String) (inLoop : Bool) : Reader Unit := do
  if kind != "var" && (← isWord "let") then refuse
  let binding ← g.binding
  match binding with
  | .name _ =>
    let _ ← eat "!"
  | _ => pure ()
  annotation? g
  let cursor ← read
  if inLoop && (cursor.isWord "in" || cursor.isWord "of") then return ()
  else if ← eat "=" then
    let _ ← g .assignment
  else
    match binding with
    | .name _ => return ()
    | _ => unless cursor.context.inDeclare || kind == "const" do refuse

/-- Reads declared variables after their word. The list may break off after a comma. -/
def declarators (kind : String) (inLoop : Bool) : Reader Unit := loop do
  let cursor ← read
  if cursor.isPunctuator ";" || cursor.atEnd then return false
  within (fun context => { context with includeIn := !inLoop || kind != "var" })
    (declarator g kind inLoop)
  eat ","

/-- Passes tokens up to the end of a statement, after variables without a semicolon. -/
def recoverSemicolon : Reader Unit := do
  let _ ← orElseHere g.expression .other
  loop do
    if ← eatSemicolon then return false
    advance
    return (← read).token != .malformed

/-- Reads a declaration of variables. -/
def variableStatement : Reader Unit := do
  let kind ← anyWord
  declarators g kind false
  unless ← eatSemicolon do recoverSemicolon g

/-- Reads variables that are disposed of at the end of their block, after the word `using`. -/
def disposables : Reader Unit := do
  declarators g "var" false
  expectSemicolon

/-! ### Types, enumerations and namespaces -/

/-- Reads one member of an enumeration. A token in the place of a comma is passed over. -/
def enumMember : Reader Unit := do
  match (← read).token with
  | .string | .number => advance
  | .punctuator "[" =>
    advance
    let _ ← g.expression
    expect "]"
  | _ =>
    let _ ← anyWord
  if ← eat "=" then
    let _ ← g .assignment
  else
    let cursor ← read
    unless cursor.isPunctuator "," || cursor.isPunctuator closeBrace do advance

/-- Reads an enumeration after its word. -/
def enumeration : Reader Unit := do
  let _ ← anyWord
  expect openBrace
  loop do
    if ← isPunctuator closeBrace then return false
    enumMember g
    let _ ← eat ","
    return true
  expect closeBrace

/-- Reads an interface after its word; `classExpression` reads a class. -/
def interfaceRest (classExpression : Reader Unit) : Reader Unit := do
  let _ ← anyWord
  typeParameters? g
  if ← eatWord "extends" then heritageList g classExpression
  if ← isWord "extends" then loop do
    let cursor ← read
    if cursor.atEnd || cursor.isPunctuator openBrace then return false
    advance
    return true
  bracketed (objectType g)

/-- Reads a type alias after its word. -/
def aliasRest : Reader Unit := do
  let _ ← anyWord
  typeParameters? g
  expect "="
  g.type
  expectSemicolon

/-- Reads the block of a namespace. -/
def namespaceBlock : Reader Unit := do
  expect openBrace
  blockBody do
    let _ ← g .moduleItem

/-- Reads a namespace after its word; its name may be dotted. -/
def namespaceRest : Reader Unit := do
  loop do
    let _ ← anyWord
    eat "."
  namespaceBlock g

/-- Reads a module that a string names, or the global scope, from its name on. -/
def ambientModule : Reader Unit := do
  advance
  if ← isPunctuator openBrace then namespaceBlock g else expectSemicolon

/-- Reads a declaration that a word other than a keyword begins, from the word's end on. `certain`
says that nothing but a declaration can stand here. Says whether there was one. -/
def wordDeclaration (word : String) (certain : Bool) : Reader Bool := do
  let cursor ← read
  let sameLine := !cursor.newline
  let named := certain || cursor.isReference
  match word with
  | "abstract" =>
    if certain || (cursor.isWord "class" && sameLine) then
      classFrom g true
      return true
    else return false
  | "enum" =>
    if named then
      enumeration g
      return true
    else return false
  | "interface" =>
    if named then
      interfaceRest g (classFrom g false)
      return true
    else return false
  | "module" =>
    if !certain && !sameLine then return false
    else if cursor.token == .string then
      ambientModule g
      return true
    else if named then
      namespaceRest g
      return true
    else return false
  | "namespace" =>
    if named then
      namespaceRest g
      return true
    else return false
  | "type" =>
    if certain || (cursor.isReference && sameLine) then
      aliasRest g
      return true
    else return false
  | _ => return false

/-! ### Functions and classes -/

/-- Reads a function declaration, after the word `async` if `isAsync` says so, whose first token lies
at `place`. -/
def functionHead (isAsync nameRequired : Bool) (place : Nat) : Reader FunctionHead := do
  return ⟨← functionDeclaration g isAsync nameRequired, place⟩

/-- What a declaration turns out to be. -/
inductive Declared
  | function (head : FunctionHead)
  | other
  | nothing

/-- Reads a declaration after the word `declare`, which lies at `place`. -/
def ambientDeclaration (place : Nat) : Reader Declared :=
  within (fun context => { context with inDeclare := true }) do
    let cursor ← read
    match cursor.token with
    | .word "function" => return .function (← functionHead g false true place)
    | .word "class" =>
      classFrom g true
      return .other
    | .word "const" =>
      if cursor.advance.isWord "enum" then
        advance
        advance
        enumeration g
      else variableStatement g
      return .other
    | .word "var" | .word "let" =>
      variableStatement g
      return .other
    | .word "global" =>
      ambientModule g
      return .other
    | .word name =>
      if ["abstract", "enum", "interface", "module", "namespace", "type"].contains name
          && !(name == "module" && cursor.newline) then
        advance
        let _ ← wordDeclaration g name true
        return .other
      else return .nothing
    | _ => return .nothing

/-! ### Control -/

/-- Reads the rest of a statement that jumps to a label. -/
def jump : Reader Unit := do
  advance
  unless ← eatSemicolon do
    let _ ← anyWord
    expectSemicolon

/-- Reads a loop with its condition at the end, whose semicolon may be missing anywhere. -/
def doLoop : Reader Unit := do
  advance
  substatement g
  expectWord "while"
  condition g
  let _ ← eatSemicolon

/-- What the head of a loop walks over. -/
inductive LoopKind
  | counting
  | keys
  | values
deriving DecidableEq

/-- Reads the rest of a loop's head from `in`, `of` or the first semicolon on. -/
def loopRest : Reader LoopKind := do
  if ← eatWord "of" then
    let _ ← g.item
    return .values
  else if ← eatWord "in" then
    let _ ← g.expression
    return .keys
  else
    expect ";"
    unless ← eat ";" do
      let _ ← g.expression
      expect ";"
    unless ← isPunctuator ")" do
      let _ ← g.expression
    return .counting

/-- Whether what was read of a loop's head from `opening` on is only the word `using`, perhaps after
`await`, and a name with `of` or `in` behind it follows. -/
def disposes (opening current : Cursor) : Bool :=
  let word := if opening.isWord "await" then opening.advance else opening
  let following := current.advance
  word.isWord "using" && word.advance.index == current.index
    && current.isAnyWord && !current.isWord "of" && (following.isWord "of" || following.isWord "in")

/-- Reads the head of a loop between its parentheses. -/
def loopHead : Reader LoopKind := do
  let cursor ← read
  let declares := cursor.isWord "const" || cursor.isWord "var"
    || (cursor.isWord "let" && followsLet cursor.advance)
  if declares then
    declarators g (← anyWord) true
    loopRest g
  else if cursor.isPunctuator ";" then loopRest g
  else
    let shape ← within (fun context => { context with includeIn := false }) (g .expression)
    if disposes cursor (← read) then
      let _ ← bindingName
    else
      let cursor ← read
      if (cursor.isWord "of" || cursor.isWord "in") && !shape.isPattern then refuse
    loopRest g

/-- Reads a loop with a head. Only a loop over values can wait for them. -/
def forLoop : Reader Unit := do
  advance
  let waits ← eatWord "await"
  expect "("
  let kind ← loopHead g
  expect ")"
  substatement g
  if waits && kind != .values then refuse

/-- Reads a choice. -/
def choice : Reader Unit := do
  advance
  condition g
  substatement g
  if ← eatWord "else" then substatement g

/-- Reads the statements of a case, after its colon. -/
def caseBody : Reader Unit := loop do
  let cursor ← read
  if cursor.atEnd || cursor.isWord "case" || cursor.isWord "default"
      || cursor.isPunctuator closeBrace then return false
  let _ ← g (.statement true)
  return true

/-- Reads the cases of a selection, at most `fuel` of them; there is one default at most. -/
def cases (hasDefault : Bool) : Nat → Reader Unit
  | 0 => refuse
  | fuel + 1 => do
    if ← eatWord "case" then
      let _ ← g.expression
      expect ":"
      caseBody g
      cases hasDefault fuel
    else if ← eatWord "default" then
      if hasDefault then refuse
      expect ":"
      caseBody g
      cases true fuel
    else expect closeBrace

/-- Reads a selection. -/
def selection : Reader Unit := do
  advance
  condition g
  expect openBrace
  cases g false (← read).bound

/-- Reads the rest of a statement that returns. -/
def returnRest : Reader Unit := do
  advance
  unless (← read).atStatementEnd do
    let _ ← g.expression
  expectSemicolon

/-- Reads the rest of a statement that throws, which has its value on the same line. -/
def throwRest : Reader Unit := do
  advance
  if (← read).newline then refuse
  let _ ← g.expression
  expectSemicolon

/-- Reads a `catch` clause if there is one. -/
def catchClause? : Reader Unit := do
  if ← eatWord "catch" then
    if ← eat "(" then
      let _ ← g.binding
      annotation? g
      expect ")"
    block g

/-- Reads a `finally` clause if there is one. -/
def finallyClause? : Reader Unit := do
  if ← eatWord "finally" then block g

/-- Reads a guarded block. -/
def guarded : Reader Unit := do
  advance
  block g
  catchClause? g
  finallyClause? g

/-! ### Statements -/

/-- Reads the rest of a statement that begins with a bare name. -/
def afterName (name : String) (place : Nat) : Reader Declared := do
  if name == "declare" then ambientDeclaration g place
  else if name == "global" then
    if ← isPunctuator openBrace then
      namespaceBlock g
      return .other
    else return .nothing
  else if ← wordDeclaration g name false then return .other
  else return .nothing

/-- Reads the end of a statement after an expression. A binary operator in its place is passed over
together with its operands. -/
def expressionEnd : Reader Unit := do
  unless ← eatSemicolon do
    if (binaryOperator? (← read)).isSome then
      let _ ← binaryFrom g .other
    else refuse

/-- Reads a statement that begins with an expression. -/
def expressionStatement : Reader (Option FunctionHead) := do
  let place := (← read).start.length
  match ← g.expression with
  | .name name =>
    if ← eat ":" then
      if ← isWord "function" then
        let _ ← functionDeclaration g false true
      else substatement g
      return none
    else
      match ← afterName g name place with
      | .function head => return some head
      | .other => return none
      | .nothing =>
        expressionEnd g
        return none
  | _ =>
    expressionEnd g
    return none

/-- Reads a statement that its first word decides. Gives nothing if there is no such statement. -/
def keywordStatement : Reader Bool := do
  let cursor ← read
  let done (reader : Reader Unit) : Reader Bool := do
    reader
    return true
  match cursor.token with
  | .word "break" | .word "continue" => done jump
  | .word "debugger" => done do
    advance
    expectSemicolon
  | .word "do" => done (doLoop g)
  | .word "for" => done (forLoop g)
  | .word "class" => done (classFrom g true)
  | .word "if" => done (choice g)
  | .word "return" => done (returnRest g)
  | .word "switch" => done (selection g)
  | .word "throw" => done (throwRest g)
  | .word "catch" => done do
    orElseHere (catchClause? g) ()
    orElseHere (finallyClause? g) ()
  | .word "finally" => done (orElseHere (finallyClause? g) ())
  | .word "try" => done (guarded g)
  | .word "while" | .word "with" => done do
    advance
    condition g
    substatement g
  | .word "var" => done (variableStatement g)
  | .punctuator ";" => done advance
  | .punctuator text => if text == openBrace then done (block g) else return false
  | _ => return false

/-- Reads a declaration that only some places allow. Gives nothing if there is none. -/
def declaration : Reader Bool := do
  let cursor ← read
  let following := cursor.advance
  let sameLine := !following.newline
  match cursor.token with
  | .word "const" =>
    variableStatement g
    return true
  | .word "let" =>
    if followsLet following then
      variableStatement g
      return true
    else return false
  | .word "using" =>
    if sameLine && following.isReference then
      advance
      disposables g
      return true
    else return false
  | .word "await" =>
    let last := following.advance
    if following.isWord "using" && sameLine && last.isReference && !last.newline then
      advance
      advance
      disposables g
      return true
    else return false
  | _ => return false

/-- Reads a statement; `declares` says whether it may declare. -/
def statement (declares : Bool) : Reader (Option FunctionHead) := do
  let cursor ← read
  let following := cursor.advance
  let place := cursor.start.length
  if cursor.isWord "const" && following.isWord "enum" then
    advance
    advance
    enumeration g
    return none
  else if cursor.isWord "function" then return some (← functionHead g false true place)
  else if cursor.isWord "async" && following.isWord "function" && !following.newline then
    advance
    return some (← functionHead g true true place)
  else if ← keywordStatement g then return none
  else if ← (if declares then declaration g else pure false) then return none
  else if ["interface", "type", "enum"].any cursor.isWord && following.isAnyWord
      && !following.newline then
    advance
    let word := match cursor.token with
      | .word name => name
      | _ => ""
    let _ ← wordDeclaration g word true
    return none
  else if cursor.isWord "import" then
    unless following.isPunctuator "(" || following.isPunctuator "." do refuse
    let _ ← g.expression
    let _ ← eatSemicolon
    return none
  else if cursor.isWord "export" then refuse
  else expressionStatement g

end ModPackager.TypeScript.Grammar
