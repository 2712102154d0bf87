import ModPackager.Path

/-!
# Commands

What can be asked for on the command line: three commands with their arguments and options, and what
the help says about each.
-/

namespace ModPackager.CommandLine

/-- What is asked for. -/
inductive Request
  /-- To build and deploy. -/
  | build (path : Option String) (deployDir : Option Path) (compilerTimeout : Option Nat)
      (strict json : Bool)
  /-- To show the manifest. -/
  | scan (path : Option String) (json : Bool)
  /-- To show the deploy root. -/
  | path (path : Option String) (deployDir : Option Path)
deriving DecidableEq, Repr

/-- The name of the program. -/
def programName : String := "lovepack"

/-- Its version. -/
def programVersion : String := "0.1.0"

/-! ### Options -/

/-- What an option takes. -/
inductive OptionKind
  | flag
  | text (valueName : String)
  | number (valueName : String)
deriving DecidableEq, Repr

/-- An option. -/
structure OptionSpec where
  long : String
  short : Option Char := none
  kind : OptionKind := .flag
  help : String
deriving DecidableEq, Repr

/-- How the value of an option is called, if it takes one. -/
def OptionSpec.valueName? (option : OptionSpec) : Option String :=
  match option.kind with
  | .flag => none
  | .text name => some name
  | .number name => some name

/-- How messages call an option. -/
def OptionSpec.display (option : OptionSpec) : String :=
  "--" ++ option.long ++
    match option.valueName? with
    | some name => " <" ++ name ++ ">"
    | none => ""

/-- The option for help. -/
def helpOption : OptionSpec where
  long := "help"
  short := some 'h'
  help := "Print help"

/-- The option for the version. -/
def versionOption : OptionSpec where
  long := "version"
  short := some 'V'
  help := "Print version"

/-! ### Commands -/

/-- A command. -/
inductive Verb
  | build
  | scan
  | path
deriving DecidableEq, Repr

namespace Verb

/-- All commands. -/
def all : List Verb := [.build, .scan, .path]

/-- The name of a command. -/
def name : Verb → String
  | .build => "build"
  | .scan => "scan"
  | .path => "path"

/-- What a command does. -/
def about : Verb → String
  | .build => "Scan annotations, write manifests and deploy the mod"
  | .scan => "Print the patch manifest without deploying anything"
  | .path => "Print the resolved deploy directory"

/-- The options of a command apart from help. -/
def ownOptions : Verb → List OptionSpec
  | .build => [
      { long := "deploy-dir", kind := .text "DIR",
        help := "Deploy into this directory instead of the platform Mods folder" },
      { long := "compiler-timeout", kind := .number "SECS",
        help := "Bound on each auxiliary compiler run, in seconds" },
      { long := "strict", help := "Exit with an error if any deployment step failed" },
      { long := "json", help := "Output the report as JSON" }]
  | .scan => [{ long := "json", help := "Output descriptors as JSON" }]
  | .path => [{ long := "deploy-dir", kind := .text "DIR", help := "Explicit deploy directory" }]

/-- The options of a command. -/
def options (verb : Verb) : List OptionSpec := verb.ownOptions ++ [helpOption]

/-- The examples of a command, each with what it does. -/
def examples : Verb → List (String × String)
  | .build => [
      ("lovepack build", "Build and deploy the current project"),
      ("lovepack build ./my-mod", "Build a specific project"),
      ("lovepack build --deploy-dir ./out", "Deploy somewhere other than the Mods folder"),
      ("lovepack build --compiler-timeout 300", "Give the Lua compiler more time"),
      ("lovepack build --strict", "Exit non-zero if any step failed"),
      ("lovepack build --json", "Print the run report as JSON")]
  | .scan => [
      ("lovepack scan", "Print the patch manifest for this project"),
      ("lovepack scan ./my-mod --json", "Print patch descriptors as JSON")]
  | .path => [
      ("lovepack path", "Print where the mod will be deployed"),
      ("lovepack path --deploy-dir ./out", "Check an explicit deploy directory")]

end Verb

/-- The command that shows help. -/
def helpName : String := "help"

/-- The names of all commands. -/
def commandNames : List String := Verb.all.map Verb.name ++ [helpName]

/-- What a part of the command line belongs to. -/
inductive Scope
  | program
  | command (verb : Verb)
  /-- The command that shows help. -/
  | help
deriving DecidableEq, Repr

namespace Scope

/-- The options that can be given in a scope. -/
def options : Scope → List OptionSpec
  | .program => [helpOption, versionOption]
  | .command verb => verb.options
  | .help => []

/-- What is typed to get into a scope. -/
def commandText : Scope → String
  | .program => programName
  | .command verb => programName ++ " " ++ verb.name
  | .help => programName ++ " " ++ helpName

/-- The scope of a command name, if the program has such a command. -/
def ofCommand? (name : String) : Option Scope :=
  if name = helpName then some .help
  else (Verb.all.find? fun verb => verb.name = name).map .command

end Scope

end ModPackager.CommandLine
