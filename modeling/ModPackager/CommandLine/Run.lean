import ModPackager.CommandLine.Arguments
import ModPackager.CommandLine.Printing
import ModPackager.Pipeline

/-!
# Running a command

A command line is read, the command acts on the world, and what it has to say goes to the output and the
error output. What it noted on the way is shown on the error output as far as the environment asks for
it.
-/

namespace ModPackager.CommandLine

/-- The variables of an environment. -/
abbrev Environment := List (String × String)

namespace Environment

/-- Whether colours are asked for where nobody looks. -/
def forcesColour (environment : Environment) : Bool :=
  (environment.lookup "CLICOLOR_FORCE").any (· != "0")

/-- Whether colours are refused. -/
def refusesColour (environment : Environment) : Bool :=
  (environment.lookup "NO_COLOR").any (!·.isEmpty)

end Environment

/-- What a command leaves behind. -/
structure Ended where
  code : Nat
  output : String := ""
  errors : String := ""
deriving DecidableEq, Repr

/-- The exit code of a run that found no time limit to wait for. -/
def clockCode : Nat := 101

/-! ### Commands -/

/-- A path made absolute in the working directory. -/
def absolute (path : Path) : Pipeline.Run Path := do
  match path.absolute? (← get).files.workingDir with
  | some path => return path
  | none => throw (.failed (.io .emptyPath))

/-- The project directory: the given one, or the working directory. -/
def projectDir (path : Option String) : Pipeline.Run Path := do
  match path with
  | some text => absolute ⟨text⟩
  | none => absolute (← get).files.workingDir

/-- The settings of a project. -/
def settingsOf (environment : Environment) (dir : Path) (overrides : Overrides) :
    Pipeline.Run Settings := do
  Pipeline.require <|
    Settings.load (← get).files dir (environment.lookup deployDirVariable) overrides

/-- Builds and deploys. -/
def build (compiler : Compiler) (environment : Environment) (palette : Palette)
    (path : Option String) (deployDir : Option Path) (timeout : Option Nat) (strict json : Bool) :
    Pipeline.Run Ended := do
  let dir ← projectDir path
  let deployDir ← deployDir.mapM absolute
  let settings ← settingsOf environment dir ⟨deployDir, timeout⟩
  let report ← Pipeline.run compiler settings
  let text := if json then report.toJson.render ++ "\n" else reportText palette report
  if strict && report.hasFailures then return ⟨1, if json then text else text ++ strictText, ""⟩
  else return ⟨0, text, ""⟩

/-- Shows the manifest, or what it is made of. -/
def scan (environment : Environment) (palette : Palette) (path : Option String) (json : Bool) :
    Pipeline.Run Ended := do
  let settings ← settingsOf environment (← projectDir path) {}
  let result ← Pipeline.require (Scan.scanProject (← get).files settings)
  modify fun world => { world with log := world.log ++ result.events }
  if json then return ⟨0, (scanJson result).render ++ "\n", ""⟩
  else
    let manifest := Manifest.renderPatches result.descriptors settings.honorMatchIndent
    return ⟨0, manifest ++ "\n", scanText palette result⟩

/-- Shows the deploy root. -/
def showPath (environment : Environment) (path : Option String) (deployDir : Option Path) :
    Pipeline.Run Ended := do
  let dir ← projectDir path
  let settings ← settingsOf environment dir ⟨← deployDir.mapM absolute, none⟩
  let files := (← get).files
  let _ ← Pipeline.require (Package.load files dir)
  return ⟨0, (← Pipeline.require (settings.deployRoot files)).text ++ "\n", ""⟩

/-- Does what is asked for. -/
def perform (compiler : Compiler) (environment : Environment) (palette : Palette) :
    Request → Pipeline.Run Ended
  | .build path deployDir timeout strict json =>
    build compiler environment palette path deployDir timeout strict json
  | .scan path json => scan environment palette path json
  | .path path deployDir => showPath environment path deployDir

/-! ### The program -/

/-- What is shown of what a run has noted. -/
def shownLog (environment : Environment) (log : List Log.Event) : String :=
  Log.render (Log.rulesOf (environment.lookup "RUST_LOG")) (!environment.refusesColour) log

/-- How a command line ends that leads to no run. -/
def endWithout (environment : Environment) (ending : Ending) : Ended :=
  let coloured := environment.forcesColour && !environment.refusesColour
  let text := renderStyled coloured ending.text
  if ending.isError then ⟨ending.exitCode, "", text⟩ else ⟨ending.exitCode, text, ""⟩

/-- Runs the program with arguments. -/
def run (compiler : Compiler) (environment : Environment) (arguments : List String)
    (world : World) : Ended × World :=
  match readArguments arguments with
  | .error ending => (endWithout environment ending, world)
  | .ok request =>
    let palette : Palette := ⟨environment.forcesColour⟩
    match perform compiler environment palette request { world with log := [] } with
    | .ok ended world =>
      ({ ended with errors := shownLog environment world.log ++ ended.errors }, world)
    | .error (.failed e) world =>
      (⟨1, errorText palette e, shownLog environment world.log⟩, world)
    | .error .clockOverflow world =>
      (⟨clockCode, "", shownLog environment world.log ++ "overflow when adding duration to instant\n"⟩,
        world)

end ModPackager.CommandLine
