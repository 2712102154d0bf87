import ModPackager.TypeScript.Grammar.Types

/-!
# Markup elements

Elements inside expressions. Text between tags is not made of tokens: it is passed over as raw
source, up to the next tag or substitution.
-/

namespace ModPackager.TypeScript.Grammar

open Reader

variable (g : Grammar)

/-! ### Names and attributes -/

/-- Reads one word of a name in markup, which may hold hyphens. -/
def markupWord : Reader String := do
  unless (← read).isAnyWord do refuse
  let isPart (c : Char) : Bool := isIdentPart c || c == '-'
  let start := (← read).start
  skipTo true (fun cursor => cursor.start.dropWhile isPart) fun _ => List.dropWhile_suffix _
  return String.ofList (start.takeWhile isPart)

/-- Reads a word, perhaps in a name space. -/
def markupName : Reader String := do
  let first ← markupWord
  if ← eat ":" then return first ++ ":" ++ (← markupWord) else return first

/-- Reads the name of an element, which may be dotted. -/
def elementName : Reader String := do
  let first ← markupName
  let fuel := (← read).bound
  membersFrom first fuel
where
  /-- Reads the members after a name. -/
  membersFrom (name : String) : Nat → Reader String
    | 0 => return name
    | fuel + 1 => do
      if ← eat "." then membersFrom (name ++ "." ++ (← markupWord)) fuel else return name

/-- The source behind a quoted attribute value, if its closing quote is there. -/
def behindQuoted? (quote : Char) (source : List Char) : Option (List Char) :=
  match (source.drop 1).dropWhile (· != quote) with
  | _ :: rest => some rest
  | [] => none

theorem suffix_of_behindQuoted? {quote : Char} {source rest : List Char}
    (h : behindQuoted? quote source = some rest) : rest <:+ source := by
  unfold behindQuoted? at h
  split at h
  next c _ heq =>
    obtain rfl := Option.some.inj h
    have hquoted : c :: _ <:+ source.drop 1 := heq ▸ List.dropWhile_suffix _
    exact (List.suffix_cons c _).trans (hquoted.trans (List.drop_suffix 1 source))
  · cases h

/-- Reads a quoted attribute value, which has no escapes. -/
def quotedValue (quote : Char) : Reader Unit := do
  unless ← skipTo? false (fun cursor => behindQuoted? quote cursor.start) fun _ _ => suffix_of_behindQuoted? do
    refuse

/-- Reads the value of an attribute. -/
def attributeValue : Reader Unit := do
  let cursor ← read
  match cursor.start with
  | '\x22' :: _ => quotedValue '\x22'
  | '\x27' :: _ => quotedValue '\x27'
  | _ =>
    if ← eat openBrace then
      let _ ← g.expression
      expect closeBrace
    else if cursor.isPunctuator "<" then
      g .markupElement
      expect ">"
    else refuse

/-- Reads one attribute or spread attribute. -/
def elementAttribute : Reader Unit := do
  if ← eat openBrace then
    expect "..."
    let _ ← g.item
    expect closeBrace
  else
    let _ ← markupName
    if ← eat "=" then attributeValue g

/-- Reads attributes up to the end of a tag. -/
def elementAttributes : Reader Unit := loop do
  let cursor ← read
  if cursor.atEnd || cursor.isPunctuator "/" || cursor.isPunctuator ">" then return false
  elementAttribute g
  return true

/-! ### Elements -/

/-- Passes the children of an element in raw source behind the current token, at most `fuel` of them,
and the opening bracket of the closing tag. -/
def children : Nat → Reader Unit
  | 0 => refuse
  | fuel + 1 => do
    skipTo false (fun cursor => cursor.rest.dropWhile fun c => c != '<' && c != '{') fun cursor =>
      (List.dropWhile_suffix _).trans cursor.suffix_rest
    if ← eat openBrace then
      unless ← isPunctuator closeBrace do
        let _ ← eat "..."
        let _ ← g.expression
      unless ← isPunctuator closeBrace do refuse
      children fuel
    else if ← isPunctuator "<" then
      if (← read).advance.isPunctuator "/" then advance
      else
        g .markupElement
        children fuel
    else refuse

/-- Reads an element up to its last angle bracket, which is left. An element without a name is a
fragment; the names of its tags have to agree. -/
def markupElement : Reader Unit := do
  expect "<"
  if ← isPunctuator ">" then contents none
  else
    let name ← elementName
    if ← isPunctuator "<" then
      let _ ← attempt do
        typeArguments g
        return some ()
    elementAttributes g
    if ← eat "/" then
      unless ← isPunctuator ">" do refuse
    else contents (some name)
where
  /-- Reads the children of an element and its closing tag, which has to bear a given name. -/
  contents (name : Option String) : Reader Unit := do
    unless ← isPunctuator ">" do refuse
    children g ((← read).rest.length + 1)
    expect "/"
    let closing ← if ← isPunctuator ">" then pure none else some <$> elementName
    unless closing == name do refuse
    unless ← isPunctuator ">" do refuse

end ModPackager.TypeScript.Grammar
