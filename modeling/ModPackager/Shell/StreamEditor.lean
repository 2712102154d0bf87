import ModPackager.Shell.FileTools
import ModPackager.Shell.Regex

/-!
# Editing lines

The program that goes through lines and runs commands on each of them: replacing what a regular
expression finds, deleting and printing lines, and putting text around them. A command may be for some
lines only, named by their number or by what they hold.
-/

namespace ModPackager.Shell.StreamEditor

/-! ### Commands -/

/-- A replacement: what to find, what to put there, and which matches to replace. -/
structure Edit where
  pattern : Regex
  replacement : List Char
  /-- The number of the first match that is replaced. -/
  firstMatch : Nat
  /-- Whether the later ones are replaced too. -/
  everywhere : Bool
  /-- Whether a line in which something was replaced is printed. -/
  prints : Bool

/-- What names a line. -/
inductive Address
  | number (line : Nat)
  | last
  | holding (pattern : Regex)

/-- What is done with a line. -/
inductive Deed
  | edit (edit : Edit)
  | translate (table : List (Char × Char))
  | delete
  | print
  | quit
  | printNumber
  | insert (text : List Char)
  | append (text : List Char)
  | change (text : List Char)

/-- A command: the line or the range of lines that it is for, and what it does. -/
structure Command where
  first : Option Address
  last : Option Address
  negated : Bool
  deed : Deed

/-! ### Replacing -/

/-- What is put in place of a match with the given groups. -/
def replacementFor (found : List Char) (groups : List (Nat × List Char)) : List Char → List Char
  | '\\' :: 'n' :: rest => '\n' :: replacementFor found groups rest
  | '\\' :: 't' :: rest => '\t' :: replacementFor found groups rest
  | '\\' :: c :: rest =>
    let text :=
      if c.isDigit then if c == '0' then found else (groups.lookup (c.toNat - '0'.toNat)).getD []
      else [c]
    text ++ replacementFor found groups rest
  | '&' :: rest => found ++ replacementFor found groups rest
  | c :: rest => c :: replacementFor found groups rest
  | [] => []

/-- Replaces in what is left of a line, before which `seen` matches stand; no match may be empty where
one has ended. Says whether anything was replaced. -/
def Edit.applyFrom (edit : Edit) : Nat → Bool → Bool → Nat → List Char → List Char × Bool
  | 0, _, _, _, text => (text, false)
  | fuel + 1, atStart, ended, seen, text =>
    let spot : Regex.Spot := ⟨text, atStart, []⟩
    let later? := (edit.pattern.matchAt? spot).filter fun later =>
      !ended || later.rest.length < text.length
    match later?, text with
    | none, [] => ([], false)
    | none, c :: rest =>
      let (others, replaced) := edit.applyFrom fuel false false seen rest
      (c :: others, replaced)
    | some later, _ =>
      let found := spot.upTo later
      let counts := edit.firstMatch ≤ seen + 1
      let put := if counts then replacementFor found later.groups edit.replacement else found
      if counts && !edit.everywhere then (put ++ later.rest, true)
      else
        let (others, replaced) :=
          match found, later.rest with
          | [], [] => ([], false)
          | [], c :: rest =>
            let (others, replaced) := edit.applyFrom fuel false false (seen + 1) rest
            (c :: others, replaced)
          | _, rest => edit.applyFrom fuel false true (seen + 1) rest
        (put ++ others, counts || replaced)

/-- Replaces in a line; says whether anything was replaced. -/
def Edit.apply (edit : Edit) (line : List Char) : List Char × Bool :=
  edit.applyFrom (2 * line.length + 2) true false 0 line

/-! ### Going through lines -/

/-- A line with its place. -/
structure Line where
  number : Nat
  isLast : Bool
  text : List Char

/-- Whether an address names a line. -/
def Address.names (line : Line) : Address → Bool
  | .number n => line.number == n
  | .last => line.isLast
  | .holding pattern => pattern.occursIn line.text

/-- Whether a range goes on behind the line that it begins with. -/
def Address.liesBehind (line : Line) : Address → Bool
  | .number n => line.number < n
  | .last => !line.isLast
  | .holding _ => true

/-- Whether a command is for a line, where `inside` says whether its range has begun before; also
whether the range goes on. -/
def Command.selects (command : Command) (inside : Bool) (line : Line) : Bool × Bool :=
  let (selected, goesOn) : Bool × Bool :=
    match command.first, command.last with
    | none, _ => (true, false)
    | some first, none => (first.names line, false)
    | some first, some final =>
      if inside then (true, !(final.names line))
      else (first.names line, first.names line && final.liesBehind line)
  (selected != command.negated, goesOn)

/-- What has become of a line so far. -/
structure Progress where
  text : List Char
  /-- What has been printed before the line itself. -/
  printed : List Char := []
  /-- What is to be printed behind it. -/
  behind : List Char := []
  deleted : Bool := false
  quits : Bool := false

/-- Text as a line of its own. -/
def asLine (text : List Char) : List Char := text ++ ['\n']

/-- Does something with a line. -/
def Deed.run (line : Line) (progress : Progress) : Deed → Progress
  | .edit replacing =>
    let (text, replaced) := replacing.apply progress.text
    let shown := if replaced && replacing.prints then asLine text else []
    { progress with text, printed := progress.printed ++ shown }
  | .translate table =>
    { progress with text := progress.text.map fun c => (table.lookup c).getD c }
  | .delete => { progress with deleted := true }
  | .print => { progress with printed := progress.printed ++ asLine progress.text }
  | .quit => { progress with quits := true }
  | .printNumber =>
    { progress with printed := progress.printed ++ asLine (toString line.number).toList }
  | .insert text => { progress with printed := progress.printed ++ asLine text }
  | .append text => { progress with behind := progress.behind ++ asLine text }
  | .change text =>
    { progress with printed := progress.printed ++ asLine text, deleted := true }

/-- Runs commands on a line, each with whether its range has begun; gives them back as the next line
finds them. -/
def runCommands (line : Line) (progress : Progress) :
    List (Command × Bool) → Progress × List (Command × Bool)
  | [] => (progress, [])
  | (command, inside) :: rest =>
    if progress.deleted || progress.quits then (progress, (command, inside) :: rest)
    else
      let (selected, goesOn) := command.selects inside { line with text := progress.text }
      let progress := if selected then command.deed.run line progress else progress
      let (progress, others) := runCommands line progress rest
      (progress, (command, goesOn) :: others)

/-- Runs commands on lines from a number on; `quiet` keeps what becomes of them from being printed. -/
def editLines (quiet : Bool) (number : Nat) (commands : List (Command × Bool)) :
    List (List Char) → List Char
  | [] => []
  | text :: rest =>
    let line : Line := ⟨number, rest.isEmpty, text⟩
    let (progress, commands) := runCommands line { text } commands
    let shown := if quiet || progress.deleted then [] else asLine progress.text
    let others := if progress.quits then [] else editLines quiet (number + 1) commands rest
    progress.printed ++ shown ++ progress.behind ++ others

/-- Edits text. If its last line does not end, neither does what becomes of it. -/
def editText (quiet : Bool) (commands : List Command) (text : List Char) : List Char :=
  let ends := text.getLast? == some '\n'
  let whole := if ends then text.dropLast else text
  let lines := if text.isEmpty then [] else Text.piecesAt '\n' whole
  let edited := editLines quiet 1 (commands.map fun command => (command, false)) lines
  if ends then edited else edited.dropLast

/-! ### Reading commands -/

/-- The text up to a separator that no backslash stands before, and what follows it. -/
def untilSeparator? (separator : Char) : List Char → Option (List Char × List Char)
  | [] => none
  | '\\' :: c :: rest => do
    let (text, after) ← untilSeparator? separator rest
    return ((if c == separator then [c] else ['\\', c]) ++ text, after)
  | c :: rest =>
    if c == separator then some ([], rest)
    else (untilSeparator? separator rest).map fun (text, after) => (c :: text, after)

/-- Reads an address, if one stands in front. Fails if it is not complete. -/
def address? (extended : Bool) : List Char → Option (Option Address × List Char)
  | '$' :: rest => some (some .last, rest)
  | '/' :: rest => do
    let (pattern, rest) ← untilSeparator? '/' rest
    return (some (.holding (← Regex.parse? ⟨extended, false⟩ pattern)), rest)
  | text =>
    let digits := text.takeWhile Char.isDigit
    some ((String.ofList digits).toNat?.map .number, text.drop digits.length)

/-- Reads a replacement after its letter. -/
def edit? (extended : Bool) : List Char → Option (Deed × List Char)
  | [] => none
  | separator :: rest => do
    let (pattern, rest) ← untilSeparator? separator rest
    let (replacement, rest) ← untilSeparator? separator rest
    let flags := rest.takeWhile fun c => c.isDigit || "gIip".toList.contains c
    let anyCase := flags.contains 'I' || flags.contains 'i'
    let edit : Edit := {
      pattern := ← Regex.parse? ⟨extended, anyCase⟩ pattern
      replacement
      firstMatch := ((String.ofList (flags.filter Char.isDigit)).toNat?).getD 1
      everywhere := flags.contains 'g'
      prints := flags.contains 'p' }
    return (.edit edit, rest.drop flags.length)

/-- Reads a table of characters after its letter. -/
def translation? : List Char → Option (Deed × List Char)
  | [] => none
  | separator :: rest => do
    let (old, rest) ← untilSeparator? separator rest
    let (new, rest) ← untilSeparator? separator rest
    if old.length = new.length then return (.translate (old.zip new), rest) else none

/-- The text of a command, up to the end of its line. -/
def textArgument (text : List Char) : List Char × List Char :=
  let start := text.dropWhile (· == ' ')
  let body :=
    match start with
    | '\\' :: '\n' :: body => body
    | '\\' :: body => body
    | _ => start
  (body.takeWhile (· != '\n'), body.dropWhile (· != '\n'))

/-- Reads what a command does. -/
def deed? (extended : Bool) : List Char → Option (Deed × List Char)
  | 's' :: rest => edit? extended rest
  | 'y' :: rest => translation? rest
  | 'd' :: rest => some (.delete, rest)
  | 'p' :: rest => some (.print, rest)
  | 'q' :: rest => some (.quit, rest)
  | '=' :: rest => some (.printNumber, rest)
  | 'i' :: rest => let (text, rest) := textArgument rest; some (.insert text, rest)
  | 'a' :: rest => let (text, rest) := textArgument rest; some (.append text, rest)
  | 'c' :: rest => let (text, rest) := textArgument rest; some (.change text, rest)
  | _ => none

/-- Reads commands, at most `fuel` of them. -/
def commands? (extended : Bool) : Nat → List Char → Option (List Command)
  | 0, _ => none
  | fuel + 1, text =>
    match text.dropWhile fun c => " ;\n".toList.contains c with
    | [] => some []
    | '#' :: rest => commands? extended fuel (rest.dropWhile (· != '\n'))
    | start => do
      let (first, rest) ← address? extended start
      let (last, rest) ←
        match rest with
        | ',' :: rest => do
          let (last, rest) ← address? extended rest
          if last.isSome && first.isSome then some (last, rest) else none
        | _ => some (none, rest)
      let rest := rest.dropWhile (· == ' ')
      let negated := rest.head? == some '!'
      let (deed, rest) ← deed? extended ((if negated then rest.tail else rest).dropWhile (· == ' '))
      let rest := rest.dropWhile (· == ' ')
      if rest.head?.all fun c => c == ';' || c == '\n' then
        return ⟨first, last, negated, deed⟩ :: (← commands? extended fuel rest)
      else none

/-! ### The program -/

/-- What the program is asked to do. -/
structure Request where
  quiet : Bool := false
  extended : Bool := false
  inPlace : Bool := false
  /-- Whether each file counts by itself. -/
  apart : Bool := false
  scripts : List String := []
  operands : List String := []

/-- Takes in the letters of an option. -/
def Request.withLetters (request : Request) (letters : List Char) : Request :=
  { request with
    quiet := request.quiet || letters.contains 'n'
    extended := request.extended || letters.contains 'E' || letters.contains 'r'
    apart := request.apart || letters.contains 's' }

/-- Reads arguments. -/
def Request.ofArguments (request : Request) : List String → Request
  | [] => request
  | "--" :: rest => { request with operands := request.operands ++ rest }
  | argument :: rest =>
    match argument.toList with
    | '-' :: 'i' :: _ => ofArguments { request with inPlace := true } rest
    | '-' :: letter :: letters =>
      let request := request.withLetters (letter :: letters)
      if (letter :: letters).getLast? == some 'e' then
        match rest with
        | script :: rest => ofArguments { request with scripts := request.scripts ++ [script] } rest
        | [] => request
      else ofArguments request rest
    | _ => ofArguments { request with operands := request.operands ++ [argument] } rest

/-- Reads a file; a file that cannot be read is complained about. -/
def readFile (name : String) : Script (Option (List Char)) := do
  match ← Script.attempt (FileAction.readText ⟨name⟩) with
  | .ok text => return some text.toList
  | .error fault =>
    Script.complain "sed" ("can\x27t read " ++ name ++ ": " ++ reasonOf fault)
    return none

/-- Puts a line end behind text that has none. -/
def ended (text : List Char) : List Char :=
  if text.isEmpty || text.getLast? == some '\n' then text else asLine text

/-- Joins the texts of files, in which the last line of each one but the last ends. -/
def joinFiles : List (List Char) → List Char
  | [] => []
  | [text] => text
  | text :: rest => ended text ++ joinFiles rest

/-- Edits a file where it is. -/
def editFile (edit : List Char → List Char) (name : String) : Script Bool := do
  match ← readFile name with
  | none => return false
  | some text =>
    tryFile "sed" (cannot "write" name)
      (FileAction.writeText ⟨name⟩ (String.ofList (edit text)))

/-- Edits files, or the input if there are none. -/
def editFiles (request : Request) (edit : List Char → List Char) (names : List String) :
    Script Nat := do
  if names.isEmpty then
    let text := (String.fromUTF8? ⟨(← Script.state).input.toArray⟩).getD ""
    Script.printText (String.ofList (edit text.toList))
    return 0
  else if request.inPlace then
    return if (← forEach names (editFile edit)) = 0 then 0 else 2
  else
    let texts ← names.mapM readFile
    let found := texts.filterMap id
    let edited := if request.apart then joinFiles (found.map edit) else edit (joinFiles found)
    Script.printText (String.ofList edited)
    return if texts.all Option.isSome then 0 else 2

/-- Edits files, or the input if there are none, with the commands among the arguments. -/
def sed : Tool := fun arguments => do
  let request := ({} : Request).ofArguments arguments
  let (scripts, names) : List String × List String :=
    match request.scripts, request.operands with
    | [], script :: names => ([script], names)
    | scripts, names => (scripts, names)
  let script := ("\n".intercalate scripts).toList
  match if scripts.isEmpty then none else commands? request.extended (script.length + 1) script with
  | none =>
    Script.complain "sed" "no commands"
    return 1
  | some commands => editFiles request (editText request.quiet commands) names

end ModPackager.Shell.StreamEditor
