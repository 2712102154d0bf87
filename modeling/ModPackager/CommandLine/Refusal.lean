import ModPackager.CommandLine.Help

/-!
# Command lines that lead to no run

A command line may ask for help or the version, or it may be refused. A refusal says what is wrong with
which argument, perhaps with a tip, and how the command is used.
-/

namespace ModPackager.CommandLine

/-- Why a text is no number. -/
inductive NumberFault
  | empty
  | invalidDigit
  | tooLarge
deriving DecidableEq, Repr

/-- The text of the fault. -/
def NumberFault.message : NumberFault → String
  | .empty => "cannot parse integer from empty string"
  | .invalidDigit => "invalid digit found in string"
  | .tooLarge => "number too large to fit in target type"

/-- What may help with an unknown argument. -/
inductive Tip
  /-- It can be given as a value. -/
  | asValue
  /-- There is a similar option. -/
  | similar (long : String)
  /-- A command has such an option. -/
  | ofCommand (command long : String)
  /-- It is a command that two dashes hide. -/
  | hiddenCommand
deriving DecidableEq, Repr

/-- What is wrong. The flags `given` say whether the usage shows what can be given as a choice. -/
inductive Complaint
  | unknownArgument (argument : String) (tip : Option Tip) (given : Bool)
  /-- There is no such command; similar ones are named. -/
  | unknownCommand (name : String) (similar : List String)
  | missingValue (option : OptionSpec)
  | invalidNumber (option : OptionSpec) (value : String) (fault : NumberFault)
  | repeated (option : OptionSpec)
  | unexpectedValue (option : OptionSpec) (value : String) (given : Bool)
deriving DecidableEq, Repr

/-- How a command line ends without a run. -/
inductive Ending
  | help (scope : Scope)
  /-- Nothing was asked for, so the help is shown. -/
  | nothingAsked
  | version
  | refused (scope : Scope) (complaint : Complaint)
deriving DecidableEq, Repr

/-! ### Texts -/

/-- Text between quotes. -/
def quotedSpan (style : Style) (text : String) : StyledText :=
  [plain "\x27", style.span text, plain "\x27"]

/-- What is wrong, in words. -/
def Complaint.statement : Complaint → StyledText
  | .unknownArgument argument _ _ =>
    [plain "unexpected argument "] ++ quotedSpan .invalid argument ++ [plain " found"]
  | .unknownCommand name _ => [plain "unrecognized subcommand "] ++ quotedSpan .invalid name
  | .missingValue option =>
    [plain "a value is required for "] ++ quotedSpan .invalid option.display ++
      [plain " but none was supplied"]
  | .invalidNumber option value fault =>
    [plain "invalid value "] ++ quotedSpan .invalid value ++ [plain " for "] ++
      quotedSpan .literal option.display ++ [plain (": " ++ fault.message)]
  | .repeated option =>
    [plain "the argument "] ++ quotedSpan .invalid option.display ++
      [plain " cannot be used multiple times"]
  | .unexpectedValue option value _ =>
    [plain "unexpected value "] ++ quotedSpan .invalid value ++ [plain " for "] ++
      quotedSpan .literal option.display ++ [plain " found; no more were expected"]

/-- The text of a tip about an argument. -/
def Tip.text (argument : String) : Tip → StyledText
  | .asValue =>
    [plain "to pass "] ++ quotedSpan .invalid argument ++ [plain " as a value, use "] ++
      quotedSpan .valid ("-- " ++ argument)
  | .similar long =>
    [plain "a similar argument exists: "] ++ quotedSpan .valid ("--" ++ long)
  | .ofCommand command long => quotedSpan .valid (command ++ " --" ++ long) ++ [plain " exists"]
  | .hiddenCommand =>
    [plain "subcommand "] ++ quotedSpan .valid argument ++
      [plain " exists; to use it, remove the "] ++ quotedSpan .invalid "--" ++
      [plain " before it"]

/-- The names of similar commands. -/
def similarCommands (names : List String) : StyledText :=
  let start :=
    if names.length = 1 then "a similar subcommand exists: " else "some similar subcommands exist: "
  plain start :: [plain ", "].intercalate (names.map (quotedSpan .valid))

/-- The tip of a complaint, if there is one. -/
def Complaint.tip? : Complaint → Option StyledText
  | .unknownArgument argument tip _ => tip.map (Tip.text argument)
  | .unknownCommand _ similar => if similar.isEmpty then none else some (similarCommands similar)
  | _ => none

/-- The usage that a complaint shows, if any. -/
def Complaint.usage? (scope : Scope) : Complaint → Option StyledText
  | .unknownArgument _ _ given => some (scope.usage given)
  | .unknownCommand _ _ => some (scope.usage false)
  | .repeated _ => some (scope.usage false)
  | .unexpectedValue _ _ given => some (scope.usage given)
  | .missingValue _ => none
  | .invalidNumber _ _ _ => none

/-- The text of a refusal. -/
def refusalText (scope : Scope) (complaint : Complaint) : StyledText :=
  let tip :=
    match complaint.tip? with
    | some tip => [plain "\n\n  ", Style.valid.span "tip:", plain " "] ++ tip
    | none => []
  let usage :=
    match complaint.usage? scope with
    | some usage => plain "\n\n" :: usage
    | none => []
  let hint :=
    if scope = .help then [plain "\n"]
    else
      [plain "\n\nFor more information, try "] ++ quotedSpan .literal ("--" ++ helpOption.long) ++
        [plain ".\n"]
  [Style.error.span "error:", plain " "] ++ complaint.statement ++ tip ++ usage ++ hint

/-- The text that a command line ends with. -/
def Ending.text : Ending → StyledText
  | .help scope => scope.helpText
  | .nothingAsked => Scope.program.helpText
  | .version => [plain (programName ++ " " ++ programVersion ++ "\n")]
  | .refused scope complaint => refusalText scope complaint

/-- Whether the text is an error rather than what was asked for. -/
def Ending.isError : Ending → Bool
  | .help _ => false
  | .version => false
  | _ => true

/-- The exit code of a command line that leads to no run. -/
def Ending.exitCode (ending : Ending) : Nat := if ending.isError then 2 else 0

end ModPackager.CommandLine
