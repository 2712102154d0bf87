import ModPackager.CommandLine.Refusal
import ModPackager.Text.Similarity

/-!
# Reading arguments

Arguments are read from left to right. The value of an option is checked when the next argument of
another kind begins, so an earlier fault is found first. Behind two dashes everything is a value.
-/

namespace ModPackager.CommandLine

/-! ### Numbers -/

/-- The largest number that an option takes. -/
def largestNumber : Nat := UInt64.size - 1

/-- Reads digits behind a number. -/
def digitsFrom (value : Nat) : List Char → Except NumberFault Nat
  | [] => .ok value
  | c :: rest =>
    if !c.isDigit then .error .invalidDigit
    else
      let value := 10 * value + (c.toNat - '0'.toNat)
      if largestNumber < value then .error .tooLarge else digitsFrom value rest

/-- Reads a number, with or without a plus sign. -/
def readNumber (text : String) : Except NumberFault Nat :=
  match text.toList with
  | [] => .error .empty
  | ['+'] => .error .invalidDigit
  | '+' :: digits => digitsFrom 0 digits
  | digits => digitsFrom 0 digits

/-! ### Forms of arguments -/

/-- What an argument looks like. -/
inductive Form
  | dashes
  /-- A long option, perhaps with a value attached. -/
  | long (name : String) (value : Option String)
  /-- Short options in a row. -/
  | short (letters : List Char)
  | value
deriving DecidableEq, Repr

/-- The form of an argument. -/
def formOf (argument : String) : Form :=
  match argument.toList with
  | ['-', '-'] => .dashes
  | '-' :: '-' :: rest =>
    let name := rest.takeWhile (· != '=')
    .long (String.ofList name)
      (if name.length < rest.length then some (String.ofList (rest.drop (name.length + 1))) else none)
  | '-' :: c :: rest => .short (c :: rest)
  | _ => .value

/-! ### Progress -/

/-- What has been begun and is not checked yet. -/
inductive Begun
  | nothing
  | option (option : OptionSpec) (value : Option String)
  | path
deriving DecidableEq, Repr

/-- What has been read of a command so far. -/
structure Progress where
  /-- The options with their values, in order. -/
  given : List (String × String) := []
  path : Option String := none
  begun : Begun := .nothing
  /-- Whether the path has been taken. -/
  pathTaken : Bool := false
  /-- Whether everything that follows is a value. -/
  onlyValues : Bool := false
deriving DecidableEq, Repr

/-- Reading a command ends in a result or ends the command line. -/
abbrev Reading := Except Ending

section
variable (verb : Verb)

/-- Refuses the command line. -/
def refuse {α : Type} (complaint : Complaint) : Reading α := .error (.refused (.command verb) complaint)

/-- Takes an option with its value. -/
def takeOption (progress : Progress) (option : OptionSpec) (value : String) : Reading Progress := do
  if progress.given.any (·.1 = option.long) then refuse verb (.repeated option)
  else
    match option.kind with
    | .flag => pure ()
    | .text _ => if value.isEmpty then refuse verb (.missingValue option)
    | .number _ =>
      match readNumber value with
      | .ok _ => pure ()
      | .error fault => refuse verb (.invalidNumber option value fault)
    return { progress with given := progress.given ++ [(option.long, value)] }

/-- Checks what has been begun. -/
def finishBegun (progress : Progress) : Reading Progress :=
  let rest := { progress with begun := .nothing }
  match progress.begun with
  | .nothing => .ok rest
  | .path => .ok { rest with pathTaken := true }
  | .option option none => refuse verb (.missingValue option)
  | .option option (some value) => takeOption verb rest option value

/-- Whether the usage has to show what can be given as a choice. -/
def Progress.isUsed (progress : Progress) : Bool := !progress.given.isEmpty || progress.pathTaken

/-- What has been taken once what was begun is checked, where a fault in it does not count. -/
def settled (progress : Progress) : Progress :=
  match finishBegun verb progress with
  | .ok progress => progress
  | .error _ => progress

/-- Takes a flag; the one for help ends the command line. -/
def takeFlag (progress : Progress) (option : OptionSpec) : Reading Progress := do
  let progress ← finishBegun verb progress
  if option = helpOption then .error (.help (.command verb)) else takeOption verb progress option ""

/-- The refusal of an unknown long option, with a tip. -/
def unknownLong {α : Type} (progress : Progress) (name : String) : Reading α :=
  let similar := (Text.similarWords name (verb.options.map (·.long))).getLast?
  let tip := (similar.map Tip.similar).getD .asValue
  let used := (settled verb progress).isUsed || similar.isSome
  refuse verb (.unknownArgument ("--" ++ name) (some tip) used)

/-- Reads a long option. -/
def readLong (progress : Progress) (name : String) (value : Option String) : Reading Progress :=
  match verb.options.find? (·.long = name) with
  | none => unknownLong verb progress name
  | some option =>
    match option.kind, value with
    | .flag, none => takeFlag verb progress option
    | .flag, some value => refuse verb (.unexpectedValue option value progress.isUsed)
    | _, none => do return { (← finishBegun verb progress) with begun := .option option none }
    | _, some value => do takeOption verb (← finishBegun verb progress) option value

/-- Reads short options in a row. -/
def readShort (progress : Progress) : List Char → Reading Progress
  | [] => .ok progress
  | c :: rest =>
    match verb.options.find? (·.short = some c) with
    | some option => do readShort (← takeFlag verb progress option) rest
    | none => refuse verb (.unknownArgument ("-" ++ String.singleton c) (some .asValue) false)

/-- Reads a value, of which a command takes only one. -/
def readValue (progress : Progress) (value : String) : Reading Progress :=
  match progress.path with
  | some _ => refuse verb (.unknownArgument value none false)
  | none => do
    return { (← finishBegun verb progress) with path := some value, begun := .path }

/-- Reads an argument of a command. -/
def readArgument (progress : Progress) (argument : String) : Reading Progress :=
  if progress.onlyValues then readValue verb progress argument
  else
    match formOf argument, progress.begun with
    | .dashes, _ => .ok { progress with onlyValues := true }
    | .long name value, _ => readLong verb progress name value
    | .short letters, _ => readShort verb progress letters
    | .value, .option option none => .ok { progress with begun := .option option (some argument) }
    | .value, _ => readValue verb progress argument

end

/-- What is asked for when everything has been read. -/
def Progress.request (progress : Progress) : Verb → Request
  | .build =>
    .build progress.path (progress.given.lookup "deploy-dir" |>.map Path.mk)
      (progress.given.lookup "compiler-timeout" |>.bind fun text => (readNumber text).toOption)
      (progress.given.lookup "strict").isSome (progress.given.lookup "json").isSome
  | .scan => .scan progress.path (progress.given.lookup "json").isSome
  | .path => .path progress.path (progress.given.lookup "deploy-dir" |>.map Path.mk)

/-- Reads the arguments of a command. -/
def readCommand (verb : Verb) (arguments : List String) : Reading Request := do
  let progress ← arguments.foldlM (readArgument verb) {}
  return (← finishBegun verb progress).request verb

/-! ### The program -/

/-- Shows the help of a command that is named by what follows. -/
def readHelp {α : Type} (scope : Scope) : List String → Reading α
  | [] => .error (.help scope)
  | name :: rest =>
    match scope, Scope.ofCommand? name with
    | .program, some inner => readHelp inner rest
    | _, _ => .error (.refused scope (.unknownCommand name []))

/-- The command that has an option similar to an unknown one and comes first in what follows. -/
def commandTip? (name : String) (rest : List String) : Option Tip :=
  let found := Verb.all.filterMap fun verb => do
    let long ← (Text.similarWords name (verb.options.map (·.long))).getLast?
    let place ← rest.findIdx? (· = verb.name)
    return (place, Tip.ofCommand verb.name long)
  let first := found.foldl (fun (best : Option (Nat × Tip)) entry =>
    match best with
    | none => some entry
    | some other => if entry.1 < other.1 then some entry else some other) none
  first.map (·.2)

/-- Refuses an argument of the program. -/
def refuseArgument {α : Type} (argument : String) (tip : Option Tip) : Reading α :=
  .error (.refused .program (.unknownArgument argument tip false))

/-- Reads a long option of the program. -/
def readProgramLong {α : Type} (name : String) (value : Option String) (rest : List String) :
    Reading α :=
  match Scope.program.options.find? (·.long = name), value with
  | some option, none => .error (if option = helpOption then .help .program else .version)
  | some option, some value => .error (.refused .program (.unexpectedValue option value false))
  | none, _ =>
    match (Text.similarWords name (Scope.program.options.map (·.long))).getLast? with
    | some long => refuseArgument ("--" ++ name) (some (.similar long))
    | none => refuseArgument ("--" ++ name) (commandTip? name rest)

/-- Reads a short option of the program. -/
def readProgramShort {α : Type} (letter : Char) : Reading α :=
  match Scope.program.options.find? (·.short = some letter) with
  | some option => .error (if option = helpOption then .help .program else .version)
  | none => refuseArgument ("-" ++ String.singleton letter) none

/-- Refuses a command that there is not. -/
def unknownCommand {α : Type} (name : String) : Reading α :=
  .error (.refused .program (.unknownCommand name (Text.similarWords name commandNames)))

/-- Reads the arguments of the program. -/
def readArguments : List String → Reading Request
  | [] => .error .nothingAsked
  | first :: rest =>
    match Scope.ofCommand? first with
    | some (.command verb) => readCommand verb rest
    | some _ => readHelp .program rest
    | none =>
      match formOf first, rest with
      | .dashes, [] => .error .nothingAsked
      | .dashes, hidden :: _ =>
        if (Scope.ofCommand? hidden).isSome then refuseArgument hidden (some .hiddenCommand)
        else unknownCommand hidden
      | .long name value, rest => readProgramLong name value rest
      | .short (letter :: _), _ => readProgramShort letter
      | _, _ => unknownCommand first

end ModPackager.CommandLine
