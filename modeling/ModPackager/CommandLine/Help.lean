import ModPackager.CommandLine.Commands
import ModPackager.CommandLine.Styled

/-!
# Help

The help of a scope says what it does, how it is used, what it takes, and shows examples. Names stand
in a column as wide as the longest of them.
-/

namespace ModPackager.CommandLine

/-- The name of the argument that commands take. -/
def pathArgument : String := "PATH"

namespace Scope

/-! ### Usage -/

/-- What may follow the command. -/
def arguments : Scope → List String
  | .program => ["<COMMAND>"]
  | .command _ => ["[OPTIONS]", "[" ++ pathArgument ++ "]"]
  | .help => ["[COMMAND]..."]

/-- Everything that a command takes, as one choice. -/
def choice : Scope → List String
  | .command verb =>
    ["<" ++ "|".intercalate (pathArgument :: verb.ownOptions.map OptionSpec.display) ++ ">"]
  | scope => scope.arguments

/-- The usage of a scope; once something has been given, as the choice of what can be. -/
def usage (scope : Scope) (given : Bool) : StyledText :=
  let arguments := if given then scope.choice else scope.arguments
  [Style.usage.span "Usage:", plain " ", Style.literal.span scope.commandText] ++
    arguments.flatMap fun argument => [plain " ", Style.placeholder.span argument]

end Scope

/-! ### Sections -/

/-- A line of a section: what is described, and the description. -/
abbrev Row := StyledText × String

/-- A section with its heading. -/
def titledRows (heading : String) (rows : List Row) : StyledText :=
  let column := (rows.map fun row => widthOf row.1).foldl max 0 + 2
  let lines := rows.map fun (left, right) => [plain "  "] ++ padTo column left ++ [plain right]
  Style.heading.span (heading ++ ":") :: lines.flatMap fun line => plain "\n" :: line

/-- How an option is written. -/
def OptionSpec.left (option : OptionSpec) : StyledText :=
  let short :=
    match option.short with
    | some c => [Style.literal.span ("-" ++ String.singleton c), plain ", "]
    | none => [plain "    "]
  let value :=
    match option.valueName? with
    | some name => [Style.placeholder.span " ", Style.placeholder.span ("<" ++ name ++ ">")]
    | none => []
  short ++ [Style.literal.span ("--" ++ option.long)] ++ value

/-- The section of options. -/
def optionSection (options : List OptionSpec) : StyledText :=
  titledRows "Options" (options.map fun option => (option.left, option.help))

/-- The section of commands. -/
def commandSection : StyledText :=
  titledRows "Commands" <|
    (Verb.all.map fun verb => ([Style.literal.span verb.name], verb.about)) ++
      [([Style.literal.span helpName], "Print this message or the help of the given subcommand(s)")]

/-- The section of an argument. -/
def argumentSection (name help : String) : StyledText :=
  titledRows "Arguments" [([Style.placeholder.span name], help)]

/-- How wide the commands of examples are. -/
def exampleWidth : Nat := 38

/-- Examples with a heading. -/
def exampleSection (heading : String) (examples : List (String × String)) : StyledText :=
  Style.title.span heading :: examples.flatMap fun (command, about) =>
    let filled := String.ofList (List.replicate (exampleWidth - command.length) ' ')
    [plain "\n  ", Style.sample.span (command ++ filled), plain ("  " ++ about)]

/-! ### The help of a scope -/

namespace Scope

/-- What a scope does. -/
def about : Scope → String
  | .program => "Package TypeScript mods for the Lovely loader"
  | .command verb => verb.about
  | .help => "Print this message or the help of the given subcommand(s)"

/-- The sections behind the usage. -/
def sections : Scope → List StyledText
  | .program => [commandSection, optionSection [helpOption, versionOption],
      exampleSection "Examples:" [
        ("lovepack build", "Scan, render and deploy the mod"),
        ("lovepack scan", "Preview the generated patches"),
        ("lovepack path", "Show the deploy directory")],
      exampleSection "Annotating a hook:" [
        ("/** @lovelyType pattern", "Patch strategy (required)"),
        (" *  @lovelyTarget game.lua", "Host file to patch"),
        (" *  @lovelyPattern function love.load", "Where to insert"),
        (" *  @lovelyPosition after */", "before, after or at")]]
  | .command verb => [
      argumentSection ("[" ++ pathArgument ++ "]") "Project directory (defaults to current directory)",
      optionSection verb.options, exampleSection "Examples:" verb.examples]
  | .help => [argumentSection "[COMMAND]..." "Print help for the subcommand(s)"]

/-- The help of a scope. -/
def helpText (scope : Scope) : StyledText :=
  [plain (scope.about ++ "\n\n")] ++ scope.usage false ++
    (scope.sections.flatMap fun part => plain "\n\n" :: part) ++ [plain "\n"]

end Scope

end ModPackager.CommandLine
