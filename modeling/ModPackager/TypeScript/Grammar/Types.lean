import ModPackager.TypeScript.Grammar.Basic

/-!
# Types

The grammar of types: conditional, union, intersection, function, array, tuple, mapped and template
types, type parameters and arguments, members of object types, and annotations.
-/

namespace ModPackager.TypeScript.Grammar

open Reader

variable (g : Grammar)

/-! ### Parameters and arguments -/

/-- Reads a type after a given punctuator, if that punctuator is there. -/
def typeAfter (text : String) : Reader Unit := do
  if ← eat text then g.type

/-- Reads one type parameter. -/
def typeParameter : Reader Unit := do
  loop do
    let found ← modifier
      ["public", "private", "protected", "readonly", "abstract", "const", "override", "in", "out"]
    return found.isSome
  let _ ← anyWord
  if ← eatWord "extends" then g.type
  typeAfter g "="

/-- Reads type parameters between angle brackets. -/
def typeParameters : Reader Unit := do
  expect "<"
  separated ">" (typeParameter g)

/-- Reads type parameters if there are any. -/
def typeParameters? : Reader Unit := do
  if ← isPunctuator "<" then typeParameters g

/-- Reads a type, or types, within brackets, where conditional types are allowed again. -/
def bracketed (reader : Reader Unit) : Reader Unit :=
  within (fun context => { context with plainTypes := false }) reader

/-- Reads type arguments between angle brackets. -/
def typeArguments : Reader Unit := do
  expect "<"
  bracketed (separated ">" g.type)

/-- Reads type arguments on the current line if there are any. -/
def typeArguments? : Reader Unit := do
  let cursor ← read
  if !cursor.newline && cursor.isPunctuator "<" then typeArguments g

/-! ### Annotations -/

/-- Reads a type annotation if there is one. -/
def annotation? : Reader Unit := typeAfter g ":"

/-- Reads a result type, which may be a type predicate, after a given punctuator. -/
def resultType (mark : String) : Reader Unit := do
  expect mark
  let cursor ← read
  let asserts := cursor.isWord "asserts" && cursor.advance.isReference
  if asserts then advance
  let cursor ← read
  let following := cursor.advance
  let predicate := cursor.isReference && following.isWord "is" && !following.newline
  if asserts || predicate then
    let _ ← anyWord
    if predicate then
      expectWord "is"
      g.type
  else g.type

/-! ### Function types -/

/-- Reads one parameter of a signature; it cannot have a default value. -/
def signatureParameter : Reader Unit := do
  if ← eat "..." then
    let _ ← g.binding
    if ← eat "=" then
      let _ ← g .assignment
      refuse
    annotation? g
    let _ ← eat "?"
  else
    parameterModifier
    let _ ← g.binding
    let _ ← eat "?"
    annotation? g
    if ← eat "=" then
      let _ ← g .assignment
      refuse

/-- Reads the parameters of a signature after the opening parenthesis. -/
def signatureParameters : Reader Unit := separated ")" (signatureParameter g)

/-- Whether what follows an opening parenthesis can only be the parameters of a function type. -/
def startsParameters : Reader Bool := do
  advance
  let cursor ← read
  if cursor.isPunctuator ")" || cursor.isPunctuator "..." then return true
  parameterModifier
  let cursor ← read
  let passed ←
    if cursor.isAnyWord then
      advance
      pure true
    else if cursor.isPunctuator openBrace || cursor.isPunctuator "[" then
      let _ ← g.binding
      pure true
    else pure false
  if !passed then return false
  let cursor ← read
  if [":", ",", "?", "="].any cursor.isPunctuator then return true
  if ← eat ")" then isPunctuator "=>" else return false

/-- Reads a function type or, after `new`, a constructor type. -/
def functionType : Reader Unit := do
  typeParameters? g
  expect "("
  signatureParameters g
  resultType g "=>"

/-! ### Members of object types -/

/-- Passes the end of a member. -/
def memberEnd : Reader Unit := do
  unless ← eat "," do expectSemicolon

/-- Reads the name of a member. -/
def memberName : Reader Unit := do
  match (← read).token with
  | .number | .string | .bigInt => advance
  | .punctuator "[" =>
    advance
    let _ ← g.item
    expect "]"
  | .punctuator "#" =>
    let _ ← privateName
  | _ =>
    let _ ← anyWord

/-- Whether an index signature begins here. -/
def startsIndexSignature : Reader Bool := do
  advance
  if (← read).isReference then
    advance
    return (← isPunctuator ":") || (← isPunctuator ",")
  else return false

/-- Reads an index signature if there is one. -/
def indexSignature? : Reader Bool := do
  if (← isPunctuator "[") && (← lookAhead startsIndexSignature) then
    expect "["
    let _ ← anyWord
    unless ← eat "," do expect ":"
    g.type
    expect "]"
    annotation? g
    memberEnd
    return true
  else return false

/-- Reads a call or construct signature. -/
def callSignature : Reader Unit := do
  typeParameters? g
  expect "("
  signatureParameters g
  if ← isPunctuator ":" then resultType g ":"
  memberEnd

/-- Reads an accessor of an object type. -/
def typeAccessor (isReadonly : Bool) : Reader (Option Unit) := do
  if isReadonly then refuse
  let isGetter ← eatWord "get"
  unless isGetter do expectWord "set"
  memberName g
  expect "("
  if isGetter then
    expect ")"
    annotation? g
  else
    if ← isPunctuator ")" then refuse
    signatureParameters g
  memberEnd
  return some ()

/-- Reads a property or method of an object type. -/
def propertySignature (isReadonly : Bool) : Reader Unit := do
  memberName g
  let _ ← eat "?"
  let cursor ← read
  if cursor.isPunctuator "(" || cursor.isPunctuator "<" then
    if isReadonly then refuse
    typeParameters? g
    expect "("
    signatureParameters g
    if ← isPunctuator ":" then resultType g ":"
    memberEnd
  else
    annotation? g
    memberEnd

/-- Reads one member of an object type. -/
def typeMember : Reader Unit := do
  let cursor ← read
  if cursor.isPunctuator "(" || cursor.isPunctuator "<" then callSignature g
  else if cursor.isWord "new"
      && (cursor.advance.isPunctuator "(" || cursor.advance.isPunctuator "<") then
    advance
    callSignature g
  else
    let isReadonly := (← modifier ["readonly"]).isSome
    if ← indexSignature? g then return ()
    match ← attempt (typeAccessor g isReadonly) with
    | some () => return ()
    | none => propertySignature g isReadonly

/-- Reads an object type. -/
def objectType : Reader Unit := do
  expect openBrace
  loop do
    if ← isPunctuator closeBrace then return false
    typeMember g
    return true
  expect closeBrace

/-! ### Mapped types -/

/-- Passes the sign of a modifier in a mapped type if there is one. -/
def eatSign : Reader Bool := do
  if ← eat "+" then return true else eat "-"

/-- Whether a mapped type begins at the opening brace. -/
def startsMappedType : Reader Bool := do
  advance
  if ← eatSign then return ← isWord "readonly"
  let _ ← eatWord "readonly"
  unless ← eat "[" do return false
  unless (← read).isReference do return false
  advance
  isWord "in"

/-- Reads a mapped type. -/
def mappedType : Reader Unit := do
  expect openBrace
  if ← eatSign then expectWord "readonly"
  else
    let _ ← eatWord "readonly"
  expect "["
  let _ ← anyWord
  expectWord "in"
  g.type
  if ← eatWord "as" then g.type
  expect "]"
  if ← eatSign then expect "?"
  else
    let _ ← eat "?"
  annotation? g
  expectSemicolon
  expect closeBrace

/-! ### Names, tuples, templates and imports -/

/-- Reads a dotted name. A name may be missing after the last point. -/
def entityName : Reader Unit := do
  let _ ← anyWord
  loop do
    unless ← eat "." do return false
    if ← isPunctuator "#" then
      let _ ← privateName
      return true
    if (← read).isAnyWord then
      advance
      return true
    else return false

/-- Reads the label of a tuple element. -/
def tupleLabel : Reader (Option Unit) := do
  let _ ← eat "..."
  let _ ← anyWord
  let _ ← eat "?"
  expect ":"
  return some ()

/-- Reads one element of a tuple type. -/
def tupleElement : Reader Unit := do
  let _ ← attempt tupleLabel
  if ← eat "..." then g.type
  else
    g.type
    let _ ← eat "?"

/-- Reads template text and its substitutions after an opening back quote, where each substitution
is read by `substitution`; `strict` refuses malformed escapes. -/
def templateParts (strict : Bool) (substitution : Reader Unit) : Reader Unit := do
  if ← templateText then
    loop do
      substitution
      unless ← isPunctuator closeBrace do refuse
      templateText
where
  /-- Passes the text behind the current token, which the source must not end in and strict reading
  must not find malformed. Says whether a substitution follows. -/
  templateText : Reader Bool := do
    let text := readTemplateText (← read).rest
    if text.ending == .missing || (strict && !text.wellFormed) then refuse
    skipTo false (fun cursor => (readTemplateText cursor.rest).rest) fun cursor =>
      (suffix_readTemplateText cursor.rest).trans cursor.suffix_rest
    return text.ending != .quote

/-- Reads an import type. -/
def importType : Reader Unit := do
  expectWord "import"
  expect "("
  advance
  if ← eat "," then
    if ← isPunctuator openBrace then
      let _ ← g.item
  expect ")"
  if ← eat "." then entityName
  typeArguments? g

/-- Reads a type query. -/
def typeQuery : Reader Unit := do
  expectWord "typeof"
  if ← isWord "import" then importType g
  else
    entityName
    typeArguments? g

/-! ### Types from the inside out -/

/-- Reads a type that no operator or bracket follows yet. -/
def innermostType : Reader Unit := do
  let cursor ← read
  match cursor.token with
  | .string | .number | .bigInt => advance
  | .punctuator "-" =>
    advance
    match (← read).token with
    | .number | .bigInt => advance
    | _ => refuse
  | .punctuator "(" =>
    advance
    bracketed g.type
    expect ")"
  | .punctuator "[" =>
    advance
    bracketed (separated "]" (tupleElement g))
  | .punctuator text =>
    if text == openBrace then
      if ← lookAhead startsMappedType then bracketed (mappedType g) else bracketed (objectType g)
    else if text == backQuote then templateParts true g.type
    else refuse
  | .word "import" => importType g
  | .word "typeof" => typeQuery g
  | .word "this" =>
    advance
    let cursor ← read
    if !cursor.newline && cursor.isWord "is" then
      advance
      g.type
  | .word "asserts" =>
    if cursor.advance.isWord "this" then
      advance
      advance
      if ← eatWord "is" then g.type
    else reference
  | .word name =>
    if ["void", "null", "true", "false", "yield", "await", "let"].contains name
        || !(keywords.contains name) then reference
    else refuse
  | _ => refuse
where
  /-- Reads a name with its type arguments. -/
  reference : Reader Unit := do
    entityName
    typeArguments? g

/-- Reads a type followed by array brackets and indexes. -/
def arrayType : Reader Unit := do
  innermostType g
  loop do
    if (← read).newline then return false
    unless ← eat "[" do return false
    unless ← eat "]" do
      g.type
      expect "]"
    return true

/-- Reads the constraint of an inferred type, unless it turns out to be the condition of a
conditional type. -/
def inferConstraint : Reader (Option Unit) := do
  let isCondition := (← read).context.plainTypes
  expectWord "extends"
  within (fun context => { context with plainTypes := true }) g.type
  if !isCondition && (← isPunctuator "?") then return none else return some ()

/-- Reads a type with operators before it. -/
def simpleType : Reader Unit := do
  let cursor ← read
  if ["keyof", "unique", "readonly"].any cursor.isWord then
    advance
    g .simpleType
  else if ← eatWord "infer" then
    let _ ← anyWord
    let _ ← attempt (inferConstraint g)
  else arrayType g

/-- Reads operands with an operator between them and perhaps one before them. -/
def operands (operator : String) (operand : Reader Unit) : Reader Unit := do
  let _ ← eat operator
  loop do
    operand
    eat operator

/-- Reads a union of intersections. -/
def unionType : Reader Unit := operands "|" (operands "&" (g .simpleType))

/-- Reads a type that is no conditional type. -/
def plainType : Reader Unit := do
  let cursor ← read
  if cursor.isPunctuator "<" then functionType g
  else if cursor.isPunctuator "(" && (← lookAhead (startsParameters g)) then functionType g
  else if cursor.isWord "new" then
    advance
    functionType g
  else if cursor.isWord "abstract" && cursor.advance.isWord "new" then
    advance
    advance
    functionType g
  else unionType g

/-- Reads a type. -/
def anyType : Reader Unit := do
  g .plainType
  let cursor ← read
  if !cursor.context.plainTypes && !cursor.newline && cursor.isWord "extends" then
    advance
    within (fun context => { context with plainTypes := true }) (g .plainType)
    expect "?"
    g.type
    expect ":"
    g.type

end ModPackager.TypeScript.Grammar
