import ModPackager.TypeScript.Grammar.Statements

/-!
# Imports and exports
-/

namespace ModPackager.TypeScript.Grammar

open Reader

variable (g : Grammar)

/-! ### Sources and names -/

/-- Reads the attributes of an import if there are any. -/
def importAttributes? : Reader Unit := do
  let cursor ← read
  if !cursor.newline && (cursor.isWord "with" || cursor.isWord "assert") then
    advance
    expect openBrace
    let _ ← objectLiteral g

/-- Passes a string, which must be there. -/
def expectString : Reader Unit := do
  if (← read).token == .string then advance else refuse

/-- Reads the source of an import or export, from the string on. -/
def sourceRest : Reader Unit := do
  expectString
  importAttributes? g
  expectSemicolon

/-- Reads the source of an import or export, from the word `from` on. -/
def fromSource : Reader Unit := do
  expectWord "from"
  sourceRest g

/-- Reads a name under which something is exported: any word or a string. -/
def exportName : Reader Unit := do
  if (← read).token == .string then advance
  else
    let _ ← anyWord

/-- Reads what an import declared with an equals sign stands for. -/
def importAliasRest : Reader Unit := do
  expect "="
  let cursor ← read
  if cursor.isWord "require" && cursor.advance.isPunctuator "(" then
    advance
    advance
    expectString
    expect ")"
  else entityName
  expectSemicolon

/-! ### Imports -/

/-- Reads the rest of a specifier that begins with the word `type`. Gives the name that it may bind;
nothing when the specifier ends here. -/
def typeSpecifier (boundName : Reader Unit) : Reader (Option String) := do
  let name ← anyWord
  if name != "as" then return some name
  unless (← read).isAnyWord do return none
  let second := (← read).isWord "as"
  boundName
  if second && (← read).isAnyWord then boundName
  return none

/-- Reads a name that an import binds. -/
def importedName : Reader Unit := do
  let _ ← bindingName

/-- Reads one specifier of an import. -/
def importSpecifier : Reader Unit := do
  if (← read).token == .string then
    advance
    expectWord "as"
    importedName
  else
    let first ← anyWord
    let name ←
      if first == "type" && (← read).isAnyWord then typeSpecifier importedName
      else pure (some first)
    match name with
    | none => return ()
    | some name =>
      if ← eatWord "as" then importedName
      else if reservedWords.contains name then refuse

/-- Reads specifiers between braces, which are passed. -/
def specifiers (specifier : Reader Unit) : Reader Unit := do
  expect openBrace
  separated closeBrace specifier

/-- Reads what an import names after its default binding, and its source. -/
def importClause : Reader Unit := do
  if ← eat "*" then
    expectWord "as"
    importedName
  else if ← isPunctuator openBrace then specifiers importSpecifier
  fromSource g

/-- Reads an import behind a first word that names a phase of loading, or is a binding itself. -/
def importInPhase : Reader Unit := do
  let cursor ← read
  if cursor.isPunctuator "*" || cursor.isPunctuator openBrace then importClause g
  else
    if (cursor.isReference && !cursor.isWord "from") || cursor.advance.isWord "from" then importedName
    unless ← isWord "from" do expect ","
    importClause g

/-- Reads an import whose first binding is a word. -/
def importFromWord : Reader Unit := do
  let first ← bindingName
  let cursor ← read
  let following := cursor.advance
  let typeOnly := first == "type"
    && (cursor.isPunctuator "*" || cursor.isPunctuator openBrace)
  if typeOnly then importClause g
  else
    let typed := first == "type" && cursor.isReference
      && (!cursor.isWord "from" || following.isWord "from" || following.isPunctuator "=")
    if typed then importedName
    if ← isPunctuator "=" then importAliasRest
    else if first == "source" || first == "defer" then importInPhase g
    else
      unless ← isWord "from" do expect ","
      importClause g

/-- Reads an import declaration after its word. -/
def importDeclaration : Reader Unit := do
  let cursor ← read
  if cursor.token == .string then sourceRest g
  else if cursor.isReference then importFromWord g
  else importClause g

/-! ### Exports -/

/-- Reads one specifier of an export. -/
def exportSpecifier : Reader Unit := do
  let cursor ← read
  let isType := cursor.isWord "type"
  exportName
  let ended ←
    if isType && (← read).isAnyWord then pure (← typeSpecifier exportName).isNone else pure false
  unless ended do
    if ← eatWord "as" then exportName

/-- Reads the specifiers and the source of an export. -/
def exportClause : Reader Unit := do
  if ← eat "*" then
    if ← eatWord "as" then exportName
    fromSource g
  else
    specifiers exportSpecifier
    if ← isWord "from" then fromSource g
    else
      let _ ← eatSemicolon

/-- Reads a default export after its words. Gives the function if it is one. -/
def defaultExport : Reader (Option FunctionHead) := do
  let cursor ← read
  let following := cursor.advance
  let place := cursor.start.length
  if cursor.isWord "abstract" && following.isWord "class" && !following.newline then
    advance
    classFrom g false
    return none
  else if cursor.isWord "interface" then
    advance
    interfaceRest g (classFrom g false)
    return none
  else if cursor.isWord "class" then
    classFrom g false
    return none
  else if cursor.isWord "async" && following.isWord "function" && !following.newline then
    advance
    return some (← functionHead g true false place)
  else if cursor.isWord "function" then return some (← functionHead g false false place)
  else
    let _ ← g.item
    expectSemicolon
    return none

/-- Reads an exported declaration that a word other than a keyword begins. -/
def exportedWord : Reader (Option Unit) := attempt do
  let word ← anyWord
  if word == "module" && (← read).newline then return none
  if ← wordDeclaration g word true then return some () else return none

/-- Reads a declaration, a default or specifiers after the word `export`. Gives the function if one
is declared. -/
def exportRest : Reader (Option FunctionHead) := do
  let cursor ← read
  let following := cursor.advance
  let place := cursor.start.length
  if cursor.isWord "class" then
    classFrom g true
    return none
  else if cursor.isWord "async" && following.isWord "function" && !following.newline then
    advance
    return some (← functionHead g true true place)
  else if cursor.isWord "function" then return some (← functionHead g false true place)
  else if cursor.isWord "const" && following.isWord "enum" then
    advance
    advance
    enumeration g
    return none
  else if cursor.isWord "var" || cursor.isWord "const"
      || (cursor.isWord "let" && followsLet following) then
    variableStatement g
    return none
  else
    exportClause g
    return none

/-- Reads an export declaration after its word. Gives the function if one is declared. -/
def exportDeclaration : Reader (Option FunctionHead) := do
  if (← read).atEnd then refuse
  let place := (← read).start.length
  if ← eatWord "declare" then
    match ← ambientDeclaration g place with
    | .function head => return some head
    | .other => return none
    | .nothing => pure ()
  if let some () ← exportedWord g then return none
  let cursor ← read
  if ← eatWord "import" then
    if cursor.advance.isWord "type" && cursor.advance.advance.isReference then advance
    let _ ← anyWord
    importAliasRest
    return none
  else if ← eat "=" then
    let _ ← g.expression
    expectSemicolon
    return none
  else if ← eatWord "as" then
    expectWord "namespace"
    let _ ← anyWord
    expectSemicolon
    return none
  else if ← eatWord "type" then
    exportClause g
    return none
  else if ← eatWord "default" then defaultExport g
  else exportRest g

/-! ### Items -/

/-- Reads one item of a module. Gives the function if one is declared. -/
def moduleItem : Reader (Option FunctionHead) := do
  let cursor ← read
  let following := cursor.advance
  if cursor.isWord "import" && !(following.isPunctuator "(" || following.isPunctuator ".") then
    advance
    importDeclaration g
    return none
  else if cursor.isWord "export" then
    advance
    exportDeclaration g
  else g (.statement true)

end ModPackager.TypeScript.Grammar
