import ModPackager.Shell.Syntax

/-!
# Reading scripts

The grammar of shell scripts: words with quotes and parameters, redirections, pipelines, chains, groups,
loops over words, conditions and choices by pattern. A text outside the grammar is no script.
-/

namespace ModPackager.Shell

/-- Reads something from the front of a text. -/
abbrev Reader := StateT (List Char) Option

namespace Reader

/-! ### Characters -/

/-- The rest of the text. -/
def rest : Reader (List Char) := get

/-- Drops a text from the front if it is there. -/
def skip? (text : String) : Reader Bool := do
  let chars ← rest
  if text.toList.isPrefixOf chars then
    set (chars.drop text.length)
    return true
  else return false

/-- Drops a text from the front, where it must be. -/
def need (text : String) : Reader Unit := do
  if !(← skip? text) then failure

/-- Takes characters from the front as long as a test holds. -/
def takeWhile (test : Char → Bool) : Reader (List Char) := do
  let chars ← rest
  set (chars.dropWhile test)
  return chars.takeWhile test

/-- Takes the characters up to one, which is dropped. -/
def takeUntil (last : Char) : Reader (List Char) := do
  let taken ← takeWhile (· != last)
  need (String.singleton last)
  return taken

/-- Drops blanks, comments and continued lines. -/
def dropBlanks : List Char → List Char
  | ' ' :: rest => dropBlanks rest
  | '\t' :: rest => dropBlanks rest
  | '\\' :: '\n' :: rest => dropBlanks rest
  | '#' :: rest => rest.dropWhile (· != '\n')
  | chars => chars

/-- Skips blanks and comments. -/
def blanks : Reader Unit := modify dropBlanks

/-- Drops blanks, comments and ends of lines, on at most `fuel` lines. -/
def dropLines : Nat → List Char → List Char
  | 0, chars => chars
  | fuel + 1, chars =>
    match dropBlanks chars with
    | '\n' :: rest => dropLines fuel rest
    | chars => chars

/-- Skips blanks, comments and ends of lines. -/
def lines : Reader Unit := modify fun chars => dropLines chars.length chars

/-- The characters that end a word. -/
def endsWord (c : Char) : Bool := " \t\n;&|<>()".toList.contains c

/-- Whether a character can stand in a name. -/
def isNameChar (c : Char) : Bool := c.isAlphanum || c == '_'

/-! ### Words with a meaning of their own -/

/-- The words that no command begins with. -/
def closingWords : List String := ["then", "elif", "else", "fi", "do", "done", "esac", "\x7d"]

/-- The unquoted text in front. -/
def bareWord : Reader String := return String.ofList ((← rest).takeWhile (!endsWord ·))

/-- Drops a word from the front if it is there. -/
def keyword? (word : String) : Reader Bool := do
  if (← bareWord) = word then skip? word else return false

/-- Drops a word from the front, behind blanks and ends of lines. -/
def keyword (word : String) : Reader Unit := do
  lines
  if !(← keyword? word) then failure

/-- A name. -/
def name : Reader String := do
  let taken ← takeWhile isNameChar
  match taken with
  | [] => failure
  | c :: _ => if c.isDigit then failure else return String.ofList taken

/-- The name of a parameter. -/
def parameterName : Reader String := do
  match ← rest with
  | c :: rest =>
    if "$?#@*!-".toList.contains c || c.isDigit then
      set rest
      return String.singleton c
    else name
  | [] => failure

/-- Whether a name stands in front. -/
def startsParameter : List Char → Bool
  | c :: _ => "$?#@*!-".toList.contains c || isNameChar c
  | [] => false

/-- The expression up to its two closing parentheses, inside of `depth` others, and what follows. -/
def arithmeticText? : Nat → List Char → Option (List Char × List Char)
  | 0, ')' :: ')' :: rest => some ([], rest)
  | _, [] => none
  | depth, c :: rest => do
    let inside := if c == '(' then depth + 1 else if c == ')' then depth - 1 else depth
    let (text, after) ← arithmeticText? inside rest
    return (c :: text, after)

/-- The script up to the closing back quote, and what follows. -/
def backQuoted? : List Char → Option (List Char × List Char)
  | [] => none
  | '\x60' :: rest => some ([], rest)
  | '\\' :: c :: rest => do
    let (text, after) ← backQuoted? rest
    return ((if "$\x60\\".toList.contains c then [c] else ['\\', c]) ++ text, after)
  | c :: rest => do
    let (text, after) ← backQuoted? rest
    return (c :: text, after)

/-- The descriptor that a redirection is for, and what it does: open a file, or follow another
descriptor. -/
def redirectionSign? : Reader (Option (Nat × Option Opening)) := do
  let before ← rest
  let digits ← takeWhile Char.isDigit
  let number (usual : Nat) := ((String.ofList digits).toNat?).getD usual
  let signs : List (String × Nat × Option Opening) :=
    [(">>", 1, some .append), (">&", 1, none), (">|", 1, some .output), (">", 1, some .output),
      ("<&", 0, none), ("<", 0, some .input)]
  match signs.find? fun sign => sign.1.toList.isPrefixOf (before.drop digits.length) with
  | some (sign, usual, opening) =>
    need sign
    return some (number usual, opening)
  | none =>
    set before
    return none

/-- The name of an assignment, if one stands in front. -/
def assignment? : Reader (Option String) := do
  let before ← rest
  let taken ← takeWhile isNameChar
  match taken with
  | c :: _ => if !c.isDigit && (← skip? "=") then return some (String.ofList taken)
  | [] => pure ()
  set before
  return none

/-! ### The grammar -/

mutual

/-- The parts of a word up to a character that ends it. -/
def parts : Nat → (Char → Bool) → Reader Word
  | 0, _ => failure
  | fuel + 1, ends => do
    match ← rest with
    | [] => return []
    | '\x27' :: after =>
      set after
      let text ← takeUntil '\x27'
      return .text true text :: (← parts fuel ends)
    | '\x22' :: after =>
      set after
      let inside ← quotedParts fuel
      return (.text true [] :: inside) ++ (← parts fuel ends)
    | '\\' :: '\n' :: after =>
      set after
      parts fuel ends
    | '\\' :: c :: after =>
      set after
      return .text true [c] :: (← parts fuel ends)
    | '$' :: after =>
      set after
      return (← dollar fuel false) :: (← parts fuel ends)
    | '\x60' :: after =>
      set after
      return (← oldSubstitution fuel false) :: (← parts fuel ends)
    | c :: after =>
      if ends c then return []
      else
        set after
        return .text false [c] :: (← parts fuel ends)

/-- The parts up to the closing quote. -/
def quotedParts : Nat → Reader Word
  | 0 => failure
  | fuel + 1 => do
    match ← rest with
    | [] => failure
    | '\x22' :: after =>
      set after
      return []
    | '\\' :: '\n' :: after =>
      set after
      quotedParts fuel
    | '\\' :: c :: after =>
      set after
      let text := if "$\x60\x22\\".toList.contains c then [c] else ['\\', c]
      return .text true text :: (← quotedParts fuel)
    | '$' :: after =>
      set after
      return (← dollar fuel true) :: (← quotedParts fuel)
    | '\x60' :: after =>
      set after
      return (← oldSubstitution fuel true) :: (← quotedParts fuel)
    | c :: after =>
      set after
      return .text true [c] :: (← quotedParts fuel)

/-- What follows a dollar sign. -/
def dollar : Nat → Bool → Reader Part
  | 0, _ => failure
  | fuel + 1, quoted => do
    if ← skip? "((" then
      let (text, after) ← arithmeticText? 0 (← rest)
      match ← parts fuel (fun _ => false) text with
      | (expression, []) =>
        set after
        return .arithmetic quoted expression
      | _ => failure
    else if ← skip? "(" then
      let script ← items fuel
      need ")"
      return .substitution quoted script
    else if ← skip? "\x7b" then
      if ← skip? "#" then
        let name ← parameterName
        need "\x7d"
        return .parameter quoted name .length
      else
        let name ← parameterName
        let use ← use fuel
        need "\x7d"
        return .parameter quoted name use
    else if startsParameter (← rest) then return .parameter quoted (← parameterName) .value
    else return .text quoted ['$']

/-- A script behind an opening back quote. -/
def oldSubstitution : Nat → Bool → Reader Part
  | 0, _ => failure
  | fuel + 1, quoted => do
    let (text, after) ← backQuoted? (← rest)
    match ← items fuel text with
    | (script, []) =>
      set after
      return .substitution quoted script
    | _ => failure

/-- How a parameter in braces is used. -/
def use : Nat → Reader Use
  | 0 => failure
  | fuel + 1 => do
    let word : Reader Word := parts fuel (· == '\x7d')
    if ← skip? "%%" then return .withoutEnd true (← word)
    else if ← skip? "%" then return .withoutEnd false (← word)
    else if ← skip? "##" then return .withoutStart true (← word)
    else if ← skip? "#" then return .withoutStart false (← word)
    else
      let orEmpty ← skip? ":"
      if ← skip? "-" then return .orElse orEmpty (← word)
      else if ← skip? "=" then return .orAssign orEmpty (← word)
      else if ← skip? "+" then return .ifThere orEmpty (← word)
      else if orEmpty then failure
      else return .value

/-- A word that is not empty text. -/
def word : Nat → Reader Word
  | 0 => failure
  | fuel + 1 => do
    blanks
    match ← rest with
    | [] => failure
    | c :: _ => if endsWord c then failure else parts fuel endsWord

/-- Words up to the end of the line or of the command. -/
def words : Nat → Reader (List Word)
  | 0 => failure
  | fuel + 1 => do
    blanks
    match ← rest with
    | [] => return []
    | c :: _ => if endsWord c then return [] else return (← word fuel) :: (← words fuel)

/-- A redirection, if one stands in front. -/
def redirection? : Nat → Reader (Option Redirection)
  | 0 => failure
  | fuel + 1 => do
    match ← redirectionSign? with
    | none => return none
    | some (descriptor, some opening) => return some (.file descriptor opening (← word fuel))
    | some (descriptor, none) =>
      match (String.ofList (← takeWhile Char.isDigit)).toNat? with
      | some other => return some (.same descriptor other)
      | none => failure

/-- The redirections behind a command. -/
def redirections : Nat → Reader (List Redirection)
  | 0 => failure
  | fuel + 1 => do
    blanks
    match ← redirection? fuel with
    | none => return []
    | some first => return first :: (← redirections fuel)

/-- The words of a simple command that has words already or not, with its redirections. -/
def simple : Nat → Bool → Reader (List (String × Word) × List Word × List Redirection)
  | 0, _ => failure
  | fuel + 1, started => do
    blanks
    match ← redirection? fuel with
    | some first =>
      let (assignments, words, redirections) ← simple fuel started
      return (assignments, words, first :: redirections)
    | none =>
      match ← rest with
      | [] => return ([], [], [])
      | c :: _ =>
        if endsWord c then return ([], [], [])
        else if let some name ← if started then pure none else assignment? then
          let value ← parts fuel endsWord
          let (assignments, words, redirections) ← simple fuel false
          return ((name, value) :: assignments, words, redirections)
        else
          let first ← word fuel
          let (assignments, words, redirections) ← simple fuel true
          return (assignments, first :: words, redirections)

/-- The alternatives of a pattern. -/
def alternatives : Nat → Reader (List Word)
  | 0 => failure
  | fuel + 1 => do
    let first ← word fuel
    blanks
    if ← skip? "|" then return first :: (← alternatives fuel) else return [first]

/-- The arms of a choice. -/
def arms : Nat → Reader (List (List Word × List Item))
  | 0 => failure
  | fuel + 1 => do
    lines
    if ← keyword? "esac" then return []
    let _ ← skip? "("
    let patterns ← alternatives fuel
    need ")"
    let body ← items fuel
    lines
    if ← skip? ";;" then return (patterns, body) :: (← arms fuel)
    keyword "esac"
    return [(patterns, body)]

/-- What follows the first condition of a branch. -/
def branches : Nat → Reader Command
  | 0 => failure
  | fuel + 1 => do
    let condition ← items fuel
    keyword "then"
    let consequence ← items fuel
    lines
    if ← keyword? "elif" then
      return .branch condition consequence
        [.item false (.pipeline false [← branches fuel]) []]
    else if ← keyword? "else" then
      let alternative ← items fuel
      keyword "fi"
      return .branch condition consequence alternative
    else
      keyword "fi"
      return .branch condition consequence []

/-- A command without redirections behind it, unless it is a simple one. -/
def bareCommand : Nat → Reader Command
  | 0 => failure
  | fuel + 1 => do
    blanks
    if closingWords.contains (← bareWord) then failure
    else if ← skip? "(" then
      let body ← items fuel
      need ")"
      return .subshell body
    else if ← keyword? "\x7b" then
      let body ← items fuel
      keyword "\x7d"
      return .group body
    else if ← keyword? "if" then branches fuel
    else if ← keyword? "while" then loop fuel true
    else if ← keyword? "until" then loop fuel false
    else if ← keyword? "for" then
      blanks
      let counter ← name
      lines
      let list ← if ← keyword? "in" then words fuel else pure [[.parameter true "@" .value]]
      blanks
      let _ ← skip? ";"
      keyword "do"
      let body ← items fuel
      keyword "done"
      return .each counter list body
    else if ← keyword? "case" then
      let subject ← word fuel
      keyword "in"
      return .choose subject (← arms fuel)
    else
      match ← simple fuel false with
      | ([], [], []) => failure
      | (assignments, words, []) => return .simple assignments words
      | (assignments, words, redirections) =>
        return .redirected (.simple assignments words) redirections

/-- The rest of a loop that goes on while its condition has the given success. -/
def loop : Nat → Bool → Reader Command
  | 0, _ => failure
  | fuel + 1, success => do
    let condition ← items fuel
    keyword "do"
    let body ← items fuel
    keyword "done"
    return .loop success condition body

/-- A command with the redirections behind it. -/
def command : Nat → Reader Command
  | 0 => failure
  | fuel + 1 => do
    let command ← bareCommand fuel
    match ← redirections fuel with
    | [] => return command
    | redirections => return .redirected command redirections

/-- Commands joined by pipes. -/
def commands : Nat → Reader (List Command)
  | 0 => failure
  | fuel + 1 => do
    let first ← command fuel
    blanks
    let chars ← rest
    if ['|'].isPrefixOf chars && !(['|', '|'].isPrefixOf chars) then
      need "|"
      lines
      return first :: (← commands fuel)
    else return [first]

/-- A pipeline. -/
def pipeline : Nat → Reader Pipeline
  | 0 => failure
  | fuel + 1 => do
    blanks
    let negated ← keyword? "!"
    return .pipeline negated (← commands fuel)

/-- What follows in a chain. -/
def chain : Nat → Reader (List (Bool × Pipeline))
  | 0 => failure
  | fuel + 1 => do
    blanks
    if ← skip? "&&" then
      lines
      let next ← pipeline fuel
      return (true, next) :: (← chain fuel)
    else if ← skip? "||" then
      lines
      let next ← pipeline fuel
      return (false, next) :: (← chain fuel)
    else return []

/-- Items up to something that ends a list of them. -/
def items : Nat → Reader (List Item)
  | 0 => failure
  | fuel + 1 => do
    lines
    match ← rest with
    | [] => return []
    | c :: after =>
      if c == ')' || (c == ';' && after.head? == some ';') || closingWords.contains (← bareWord) then
        return []
      else
        let first ← pipeline fuel
        let others ← chain fuel
        blanks
        match ← rest with
        | '&' :: after =>
          set after
          return .item true first others :: (← items fuel)
        | ';' :: ';' :: _ => return [.item false first others]
        | ';' :: after =>
          set after
          return .item false first others :: (← items fuel)
        | '\n' :: _ => return .item false first others :: (← items fuel)
        | _ => return [.item false first others]

end

end Reader

/-- Reads a script. -/
def parse? (script : String) : Option (List Item) :=
  let chars := script.toList
  match Reader.items (8 * chars.length + 32) chars with
  | some (items, []) => some items
  | _ => none

end ModPackager.Shell
