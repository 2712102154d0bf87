import ModPackager.TypeScript.Token

/-!
# A place in TypeScript source

A cursor holds the current token and the source from it on. Moving it skips whitespace and comments.
A comment leads the next token when a line ended before the comment, or when the token before it is
of a kind that holds no comments of its own; otherwise it trails that token. Leading comments are
collected with the place of the token they lead.

A reader that fails keeps the place where it failed, since some constructs recover there. The one
form of backtracking is `attempt`, which puts the cursor back.

What lies at a cursor is always the end of what lay at the cursor before: a cursor holds its token in
front of the rest, and a reader comes with the fact that it never stops before its start. So whatever
is made of the operations here reads forward. A word is always the one that the source begins with,
while the grammar may put other tokens in place of the one that was read.
-/

namespace ModPackager.TypeScript

/-- A comment without its delimiters. -/
structure Comment where
  /-- Written between block delimiters, and not up to the end of a line. -/
  block : Bool
  text : String
deriving DecidableEq, Repr

/-! ### Between tokens -/

/-- What lies between two tokens. -/
structure Trivia where
  /-- A line ended somewhere in it. -/
  newline : Bool
  /-- Its comments that lead the next token, in order. -/
  comments : List Comment
  /-- The source from the next token on. -/
  rest : List Char

/-- Puts a comment in front. -/
def Trivia.withComment (trivia : Trivia) (leading : Bool) (comment : Comment) : Trivia :=
  if leading then { trivia with comments := comment :: trivia.comments } else trivia

mutual

/-- Skips whitespace and comments. `newline` says whether a line has ended since the last token, and
`trailing` whether that token holds comments on its own line. -/
def skipTrivia (trailing newline : Bool) : List Char → Trivia
  | '/' :: '/' :: rest => skipLine trailing newline [] rest
  | '/' :: '*' :: rest => skipBlock trailing (newline || !trailing) newline [] rest
  | '<' :: '!' :: '-' :: '-' :: rest => skipLine trailing newline [] rest
  | '-' :: '-' :: '>' :: rest =>
    if newline then skipLine trailing newline [] rest else ⟨newline, [], '-' :: '-' :: '>' :: rest⟩
  | c :: rest =>
    if isLineEnd c then skipTrivia trailing true rest
    else if isGap c then skipTrivia trailing newline rest
    else ⟨newline, [], c :: rest⟩
  | [] => ⟨newline, [], []⟩

/-- Skips a line comment whose text so far is `text`, last character first. -/
def skipLine (trailing newline : Bool) (text : List Char) : List Char → Trivia
  | c :: rest =>
    if isLineEnd c then
      (skipTrivia trailing true rest).withComment (newline || !trailing)
        ⟨false, String.ofList text.reverse⟩
    else skipLine trailing newline (c :: text) rest
  | [] => ⟨newline, [], []⟩

/-- Skips a block comment whose text so far is `text`, last character first; `leading` says whether
it leads the next token. The end of the source closes an open comment. -/
def skipBlock (trailing leading newline : Bool) (text : List Char) : List Char → Trivia
  | '*' :: '/' :: rest =>
    (skipTrivia trailing newline rest).withComment leading ⟨true, String.ofList text.reverse⟩
  | c :: rest => skipBlock trailing leading (newline || isLineEnd c) (c :: text) rest
  | [] => ⟨newline, [], []⟩

end

theorem Trivia.rest_withComment (trivia : Trivia) (leading : Bool) (comment : Comment) :
    (trivia.withComment leading comment).rest = trivia.rest := by
  cases leading <;> rfl

mutual

theorem suffix_skipTrivia (trailing newline : Bool) (source : List Char) :
    (skipTrivia trailing newline source).rest <:+ source := by
  unfold skipTrivia
  split
  next rest => simp [List.suffix_cons_iff, suffix_skipLine trailing newline [] rest]
  next rest => simp [List.suffix_cons_iff, suffix_skipBlock trailing (newline || !trailing) newline [] rest]
  next rest => simp [List.suffix_cons_iff, suffix_skipLine trailing newline [] rest]
  next rest => split <;> simp [List.suffix_cons_iff, suffix_skipLine trailing newline [] rest]
  next rest _ _ _ _ =>
    split
    · simp [List.suffix_cons_iff, suffix_skipTrivia trailing true rest]
    · split <;> simp [List.suffix_cons_iff, suffix_skipTrivia trailing newline rest]
  · exact List.suffix_rfl

theorem suffix_skipLine (trailing newline : Bool) (text source : List Char) :
    (skipLine trailing newline text source).rest <:+ source := by
  unfold skipLine
  split
  next c rest =>
    split
    · simp [List.suffix_cons_iff, Trivia.rest_withComment, suffix_skipTrivia trailing true rest]
    · simp [List.suffix_cons_iff, suffix_skipLine trailing newline (c :: text) rest]
  · exact List.suffix_rfl

theorem suffix_skipBlock (trailing leading newline : Bool) (text source : List Char) :
    (skipBlock trailing leading newline text source).rest <:+ source := by
  unfold skipBlock
  split
  next rest => simp [List.suffix_cons_iff, Trivia.rest_withComment, suffix_skipTrivia trailing newline rest]
  next c rest _ =>
    simp [List.suffix_cons_iff, suffix_skipBlock trailing leading (newline || isLineEnd c) (c :: text) rest]
  · exact List.suffix_rfl

end

/-! ### Cursors -/

/-- Circumstances that change what the grammar accepts. -/
structure Context where
  /-- The word `in` is an operator. -/
  includeIn : Bool := true
  /-- Inside a declaration without code. -/
  inDeclare : Bool := false
  inGenerator : Bool := false
  inAsync : Bool := false
  /-- Inside a branch of a conditional expression. -/
  inConditional : Bool := false
  /-- The conditional expression around still expects its colon. -/
  expectColon : Bool := false
  /-- The type being read is the condition of a conditional type. -/
  plainTypes : Bool := false
  /-- The source may hold markup elements. -/
  markup : Bool := false

/-- A place in the source. -/
structure Cursor where
  token : Token
  /-- The source from the current token on. -/
  start : List Char
  /-- The source after the current token. -/
  rest : List Char
  /-- A line ended between the token before and the current one. -/
  newline : Bool
  /-- Nothing lies between the token before and the current one. -/
  adjoins : Bool
  /-- How many tokens have been passed. -/
  index : Nat
  /-- More steps than a reader can take that passes a token with each but the last one. -/
  bound : Nat
  /-- The token at which an arrow function may begin. -/
  arrowStart : Nat
  /-- Comments found so far, last first, each with the length of the source from the token on that
  it leads. -/
  comments : List (Nat × Comment)
  context : Context
  suffix_rest : rest <:+ start
  /-- A word at the cursor is what the source begins with. -/
  readToken_start : ∀ name, token = .word name → readToken start = (token, rest)

/-- Whether what comes first in the source after a token separates it from the next one. -/
def beginsGap : List Char → Bool
  | '/' :: '/' :: _ | '/' :: '*' :: _ | '<' :: '!' :: '-' :: '-' :: _ => true
  | c :: _ => isLineEnd c || isGap c
  | [] => false

namespace Cursor

/-- Loads the token at the front of `source`, where `trailing` says whether the token before holds
comments on its own line. -/
def load (cursor : Cursor) (trailing : Bool) (source : List Char) : Cursor :=
  let trivia := skipTrivia trailing false source
  let read := readToken trivia.rest
  let comments :=
    if trivia.comments.isEmpty then cursor.comments
    else
      let place := trivia.rest.length
      trivia.comments.foldl (fun found comment => (place, comment) :: found) cursor.comments
  { cursor with
    token := read.1
    rest := read.2
    comments
    start := trivia.rest
    newline := trivia.newline
    adjoins := !beginsGap source
    index := cursor.index + 1
    suffix_rest := suffix_readToken trivia.rest
    readToken_start := fun _ _ => rfl }

theorem suffix_load (cursor : Cursor) (trailing : Bool) (source : List Char) :
    (cursor.load trailing source).start <:+ source := suffix_skipTrivia trailing false source

/-- The cursor at the first token of a source. -/
def ofSource (context : Context) (source : List Char) : Cursor :=
  let empty : Cursor :=
    ⟨.endOfFile, [], [], false, false, 0, source.length + 2, 0, [], context, List.suffix_rfl, nofun⟩
  empty.load false source

/-- Moves to the next token. -/
def advance (cursor : Cursor) : Cursor := cursor.load cursor.token.holdsTrailingComment cursor.rest

theorem suffix_advance (cursor : Cursor) : cursor.advance.start <:+ cursor.start :=
  (cursor.suffix_load _ _).trans cursor.suffix_rest

/-- Whether the current token is a given punctuator. An angle bracket counts as it stands. -/
def isPunctuator (cursor : Cursor) (text : String) : Bool := cursor.token == .punctuator text

/-- Whether the current token is a given word. -/
def isWord (cursor : Cursor) (name : String) : Bool := cursor.token == .word name

/-- Whether the source ends here. -/
def atEnd (cursor : Cursor) : Bool := cursor.token == .endOfFile

/-- Whether the current token is any word. -/
def isAnyWord (cursor : Cursor) : Bool :=
  match cursor.token with
  | .word _ => true
  | _ => false

/-- Whether the current token can refer to a variable. -/
def isReference (cursor : Cursor) : Bool :=
  match cursor.token with
  | .word name => !reservedWords.contains name
  | _ => false

/-- The operator at the cursor; angle brackets that stand together form one. -/
def operator (cursor : Cursor) : String :=
  match cursor.token with
  | .punctuator text => if text == "<" || text == ">" then angleOperator cursor.start else text
  | .word name => name
  | _ => ""

/-- Moves over the operator at the cursor, which angle brackets may have to be put together for. -/
def advanceOver (cursor : Cursor) (operator : String) : Cursor :=
  match cursor.token with
  | .punctuator text =>
    if text == operator then cursor.advance
    else cursor.load false (cursor.start.drop operator.length)
  | _ => cursor.advance

theorem suffix_advanceOver (cursor : Cursor) (operator : String) :
    (cursor.advanceOver operator).start <:+ cursor.start := by
  unfold advanceOver
  split
  · split
    · exact cursor.suffix_advance
    · exact (cursor.suffix_load _ _).trans (List.drop_suffix _ _)
  · exact cursor.suffix_advance

/-- Whether a statement may end before the current token. -/
def atStatementEnd (cursor : Cursor) : Bool :=
  cursor.newline || cursor.atEnd || cursor.isPunctuator ";" || cursor.isPunctuator closeBrace

end Cursor

/-! ### Readers -/

/-- Where and that the source breaks the grammar; the place is the length of what is left. -/
structure Refusal where
  remaining : Nat
deriving DecidableEq, Repr

/-- What reading comes to, with the place where it stops. -/
abbrev Outcome := EStateM.Result Refusal Cursor

/-- The place where reading stops. -/
def Outcome.stop {α : Type} : Outcome α → Cursor
  | .ok _ cursor => cursor
  | .error _ cursor => cursor

/-- A reader of source, which never goes back. A reader that fails keeps its place. -/
structure Reader (α : Type) where
  run : Cursor → Outcome α
  forward : ∀ cursor, (run cursor).stop.start <:+ cursor.start

namespace Reader

instance : Monad Reader where
  pure result := ⟨fun cursor => .ok result cursor, fun _ => List.suffix_rfl⟩
  bind reader next :=
    { run cursor :=
        match reader.run cursor with
        | .ok result moved => (next result).run moved
        | .error refusal moved => .error refusal moved
      forward cursor := by
        have hreader := reader.forward cursor
        split
        next result moved heq =>
          rw [heq] at hreader
          exact ((next result).forward moved).trans hreader
        next heq =>
          rw [heq] at hreader
          exact hreader }

/-- A reader looks at the cursor without moving it. -/
instance : MonadReaderOf Cursor Reader where
  read := ⟨fun cursor => .ok cursor cursor, fun _ => List.suffix_rfl⟩

/-- What recovers from a refusal goes on where the reader refused. -/
instance : MonadExceptOf Refusal Reader where
  throw refusal := ⟨fun cursor => .error refusal cursor, fun _ => List.suffix_rfl⟩
  tryCatch reader recover :=
    { run cursor :=
        match reader.run cursor with
        | .ok result moved => .ok result moved
        | .error refusal moved => (recover refusal).run moved
      forward cursor := by
        have hreader := reader.forward cursor
        split
        next heq =>
          rw [heq] at hreader
          exact hreader
        next refusal moved heq =>
          rw [heq] at hreader
          exact ((recover refusal).forward moved).trans hreader }

/-- Changes the cursor without going back. -/
def move (step : Cursor → Cursor) (h : ∀ cursor, (step cursor).start <:+ cursor.start) : Reader Unit :=
  ⟨fun cursor => .ok () (step cursor), h⟩

/-- Goes on with source that is not made of tokens passed over; `trailing` says whether what is passed
holds comments on its own line. -/
def skipTo (trailing : Bool) (behind : Cursor → List Char) (h : ∀ cursor, behind cursor <:+ cursor.start) :
    Reader Unit :=
  move (fun cursor => cursor.load trailing (behind cursor)) fun cursor =>
    (cursor.suffix_load trailing _).trans (h cursor)

/-- Passes over source as `skipTo` does if there is such source; says whether there was. -/
def skipTo? (trailing : Bool) (behind? : Cursor → Option (List Char))
    (h : ∀ cursor rest, behind? cursor = some rest → rest <:+ cursor.start) : Reader Bool where
  run cursor :=
    match behind? cursor with
    | some rest => .ok true (cursor.load trailing rest)
    | none => .ok false cursor
  forward cursor := by
    split
    next rest heq => exact (cursor.suffix_load trailing rest).trans (h cursor rest heq)
    · exact List.suffix_rfl

/-- Refuses the current token. -/
def refuse {α : Type} : Reader α := do
  throw ⟨(← read).start.length⟩

/-- Moves to the next token. -/
def advance : Reader Unit := move Cursor.advance Cursor.suffix_advance

/-- Whether the current token is a given punctuator. -/
def isPunctuator (text : String) : Reader Bool := return (← read).isPunctuator text

/-- Whether the current token is a given word. -/
def isWord (name : String) : Reader Bool := return (← read).isWord name

/-- Whether the token after the current one passes a test. -/
def next (test : Cursor → Bool) : Reader Bool := return test (← read).advance

/-- Passes a given punctuator if it is there. -/
def eat (text : String) : Reader Bool := do
  if ← isPunctuator text then
    advance
    return true
  else return false

/-- Passes the operator at the cursor, which angle brackets may have to be put together for. -/
def advanceOver (operator : String) : Reader Unit :=
  move (·.advanceOver operator) (·.suffix_advanceOver operator)

/-- Passes a given word if it is there. -/
def eatWord (name : String) : Reader Bool := do
  if ← isWord name then
    advance
    return true
  else return false

/-- Passes a given punctuator, which must be there. -/
def expect (text : String) : Reader Unit := do
  unless ← eat text do refuse

/-- Passes a given word, which must be there. -/
def expectWord (name : String) : Reader Unit := do
  unless ← eatWord name do refuse

/-- Passes the end of a statement if it is there: a semicolon, or a place where one may be missing. -/
def eatSemicolon : Reader Bool := do
  let cursor ← read
  if cursor.isPunctuator ";" then
    advance
    return true
  else return cursor.atStatementEnd

/-- Passes the end of a statement, which must be there. -/
def expectSemicolon : Reader Unit := do
  unless ← eatSemicolon do refuse

/-- Passes any word and gives its name. -/
def anyWord : Reader String := do
  match (← read).token with
  | .word name =>
    advance
    return name
  | _ => refuse

/-- Runs a reader and puts the cursor back unless it gives a result. -/
def attempt {α : Type} (reader : Reader (Option α)) : Reader (Option α) where
  run cursor :=
    match reader.run cursor with
    | .ok (some result) moved => .ok (some result) moved
    | .ok none _ => .ok none cursor
    | .error _ _ => .ok none cursor
  forward cursor := by
    have hreader := reader.forward cursor
    split
    next heq =>
      rw [heq] at hreader
      exact hreader
    · exact List.suffix_rfl
    · exact List.suffix_rfl

/-- Runs a test and puts the cursor back in any case; failing counts as no. -/
def lookAhead (test : Reader Bool) : Reader Bool where
  run cursor :=
    match test.run cursor with
    | .ok answer _ => .ok answer cursor
    | .error _ _ => .ok false cursor
  forward cursor := by split <;> exact List.suffix_rfl

/-- Runs a reader in changed circumstances. -/
def within {α : Type} (change : Context → Context) (reader : Reader α) : Reader α where
  run cursor :=
    let restore (moved : Cursor) : Cursor := { moved with context := cursor.context }
    match reader.run { cursor with context := change cursor.context } with
    | .ok result moved => .ok result (restore moved)
    | .error refusal moved => .error refusal (restore moved)
  forward cursor := by
    have hreader := reader.forward { cursor with context := change cursor.context }
    dsimp only
    split
    next heq =>
      rw [heq] at hreader
      exact hreader
    next heq =>
      rw [heq] at hreader
      exact hreader

/-- Repeats a step while it answers yes, at most `fuel` times. -/
def repeatWhile (step : Reader Bool) : Nat → Reader Unit
  | 0 => refuse
  | fuel + 1 => do
    if ← step then repeatWhile step fuel

/-- Repeats a step while it answers yes. Each such step passes a token, so the length of the source
bounds their number. -/
def loop (step : Reader Bool) : Reader Unit := do
  repeatWhile step (← read).bound

/-- Items with commas between them up to a closing punctuator, which is passed; a comma may end the
list. -/
def separated (close : String) (item : Reader Unit) : Reader Unit := do
  loop do
    let cursor ← read
    if cursor.atEnd || cursor.isPunctuator close then return false
    item
    unless ← isPunctuator close do expect ","
    return true
  expect close

/-- Gives a result when a reader fails, where the reader failed. -/
def orElseHere {α : Type} (reader : Reader α) (result : α) : Reader α :=
  try reader catch _ => return result

end Reader

end ModPackager.TypeScript
