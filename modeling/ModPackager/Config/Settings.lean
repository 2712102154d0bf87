import ModPackager.Config.File
import ModPackager.Error
import ModPackager.FileSystem.Action
import ModPackager.Text.Lines

/-!
# Settings

The settings of a run come from the configuration file, the environment and the command line, the
later ones winning. Paths in them are taken from the project directory.
-/

namespace ModPackager

/-- What the command line sets. -/
structure Overrides where
  deployDir : Option Path := none
  timeoutSecs : Option Nat := none
deriving DecidableEq, Repr

/-- The settings of a run. -/
structure Settings where
  /-- The directory of the package document. -/
  projectDir : Path
  /-- The pattern, below the project directory, of the scanned sources. -/
  sources : String
  /-- The compiled build tree, which is copied into the deploy root. -/
  buildDir : Path
  /-- The directory of auxiliary scripts. -/
  auxDir : Path
  /-- The deploy root, if one is set. -/
  deployDir : Option Path
  /-- The name of the host application. -/
  hostApp : String
  /-- Whether manifests keep the scanned indentation flags. -/
  honorMatchIndent : Bool
  compiler : CompilerSettings
deriving DecidableEq, Repr

/-- What stands for the auxiliary directory in the compiler's arguments. -/
def auxDirPlaceholder : String := "$\x7baux_dir\x7d"

/-- The compiler's arguments for an auxiliary directory. -/
def CompilerSettings.resolvedArgs (settings : CompilerSettings) (auxDir : Path) : List String :=
  settings.args.map fun arg => Text.replace arg auxDirPlaceholder auxDir.text

/-- The time limit of one run of the compiler in milliseconds. -/
def CompilerSettings.timeoutMs (settings : CompilerSettings) : Nat := settings.timeoutSecs * 1000

/-- The name of the configuration file. -/
def configFileName : String := "lovepack.toml"

/-- The environment variable that sets the deploy root. -/
def deployDirVariable : String := "LOVEPACK_DEPLOY_DIR"

/-- Reads the configuration file of a project, if there is one. -/
def ConfigFile.load (projectDir : Path) : FileAction (Option (Except Fault ConfigFile)) := do
  let path := projectDir.child configFileName
  if (← get).holds path then
    return some (ConfigFile.parse (← FileAction.readText path))
  else return none

namespace Settings

/-- The settings from a configuration file, a deploy root of the environment, and the command
line. -/
def ofSources (projectDir : Path) (file : ConfigFile) (deployVariable : Option Path)
    (overrides : Overrides) : Settings :=
  let compiler := file.compiler.getD {}
  let chosen := overrides.deployDir <|> deployVariable <|> file.deployDir.map Path.mk
  { projectDir
    sources := file.sources.getD "src/**/*.ts"
    buildDir := projectDir.child (file.buildDir.getD "build")
    auxDir := projectDir.child (file.auxDir.getD "extra_lua")
    deployDir := chosen.map projectDir.join
    hostApp := file.hostApp.getD "Balatro"
    honorMatchIndent := file.honorMatchIndent.getD false
    compiler := { compiler with timeoutSecs := overrides.timeoutSecs.getD compiler.timeoutSecs } }

/-- The settings of a project, where an empty environment variable counts as not set. -/
def load (fs : FileSystem) (projectDir : Path) (deployText? : Option String) (overrides : Overrides) :
    Except Error Settings :=
  let deployVariable := (deployText?.filter (!·.isEmpty)).map Path.mk
  match ConfigFile.load projectDir fs with
  | .error fault _ => .error (.io fault)
  | .ok (some (.error .malformed)) _ => .error .configMalformed
  | .ok (some (.error (.unsuitable message))) _ => .error (.configUnsuitable message)
  | .ok (some (.ok file)) _ => .ok (ofSources projectDir file deployVariable overrides)
  | .ok none _ => .ok (ofSources projectDir {} deployVariable overrides)

end Settings

end ModPackager
