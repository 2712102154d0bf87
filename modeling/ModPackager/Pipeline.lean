import ModPackager.AuxScript.Run
import ModPackager.Config.DeployRoot
import ModPackager.Digest.Sha256
import ModPackager.Project.Load
import ModPackager.Project.Metadata
import ModPackager.Scan.Events

/-!
# Building and deploying a mod

A run loads the package, finds the deploy root and scans the sources; if one of these fails, nothing is
changed. Then it lays the mod out below the deploy root, step by step. Every step is recorded in the
report, and a step that fails never keeps the later ones from running.
-/

namespace ModPackager

/-- Why a run ends without a report. -/
inductive Abort
  | failed (e : Error)
  | clockOverflow
deriving DecidableEq, Repr

namespace Pipeline

/-- A part of a run. -/
abbrev Run := EStateM Abort World

/-- The part of the program that these events come from. -/
def logSource : String := "lovepack::pipeline"

/-- The part of the program that the events of deployment steps come from. -/
def stepSource : String := "lovepack::deploy"

/-- Goes on with a result, if it is one. -/
def require {α : Type} : Except Error α → Run α
  | .ok value => pure value
  | .error e => throw (.failed e)

/-- Notes an event. -/
def note (level : Log.Level) (message : String) (fields : List (String × String)) : Run Unit :=
  modify (·.note logSource level message fields)

/-! ### Steps -/

/-- Runs a deployment step and records it. Events call the step by its kind. -/
def takeStep (name kind : String) (path : Path) (step : Step) (report : Report) : Run Report := do
  let (outcome, world) := (← get).onFiles step
  set (AuxScript.noteStep stepSource kind path outcome world)
  return report.record name outcome

/-- Notes how copying went. -/
def noteCopy (source : Path) (present : Bool) (copied : Deploy.Copied) (world : World) : World :=
  match copied.outcome with
  | .failed reason =>
    if present then AuxScript.noteStep stepSource "copy" source copied.outcome world
    else
      world.note stepSource .warn reason [("step", Text.quoted "copy"), ("path", source.text)]
  | _ => world.note stepSource .debug "copied build tree" [("files", toString copied.files)]

/-- Copies the build tree and records it. -/
def takeCopy (source root : Path) (report : Report) : Run Report := do
  let world ← get
  let present := world.files.holdsDirectory source
  let (copied, world) := world.onFiles (Deploy.copyTree source root)
  set (noteCopy source present copied world)
  return report.record "copy" copied.outcome

/-- Compiles and deploys the auxiliary scripts and records their steps. -/
def takeScripts (compiler : Compiler) (settings : Settings) (root : Path) (modPrefix : String)
    (report : Report) : Run Report := fun world =>
  match AuxScript.transpile compiler settings root modPrefix world with
  | .ok summary world =>
    .ok { report with steps := report.steps ++ summary.steps, auxScripts := summary.deployed } world
  | .error _ world => .error .clockOverflow world

/-! ### The run -/

/-- The name of the manifest of patches. -/
def patchesName : String := "patches.toml"

/-- What is about to be deployed. -/
structure Plan where
  root : Path
  metadata : Metadata
  scan : Scan.Result
  /-- The text of the manifest of patches. -/
  manifest : String

/-- Finds out what to deploy, and where. -/
def prepare (settings : Settings) : Run Plan := do
  let files := (← get).files
  let metadata := Metadata.ofPackage (← require (Package.load files settings.projectDir))
  let root ← require (settings.deployRoot files)
  note .info "building mod" [("id", metadata.id), ("deploy_root", root.text)]
  let scan ← require (Scan.scanProject files settings)
  modify fun world => { world with log := world.log ++ scan.events }
  return ⟨root, metadata, scan, Manifest.renderPatches scan.descriptors settings.honorMatchIndent⟩

/-- The report of a run before its first step. -/
def Plan.report (plan : Plan) : Report where
  deployRoot := plan.root.text
  descriptors := plan.scan.descriptors.length
  skippedSources := plan.scan.skipped
  manifestDigest := Sha256.ofText plan.manifest
  metadataDigest := Sha256.ofText plan.metadata.render

/-- Carries a plan out. -/
def carryOut (compiler : Compiler) (settings : Settings) (plan : Plan) : Run Report := do
  let root := plan.root
  let patches := (root.child Deploy.lovelyDir).child patchesName
  let metadata := root.child plan.metadata.fileName
  let report ← takeStep "clear" "clear" root (Deploy.clearDirectory root) plan.report
  let report ← takeStep "skeleton" "skeleton" root (Deploy.createSkeleton root) report
  let report ← takeStep patchesName "write" patches (Deploy.writeFile patches plan.manifest) report
  let report ←
    takeStep plan.metadata.fileName "write" metadata
      (Deploy.writeFile metadata plan.metadata.render) report
  let report ← takeCopy settings.buildDir root report
  takeScripts compiler settings root plan.metadata.modPrefix report

/-- Notes how a run ended. -/
def noteEnd (report : Report) : Run Unit :=
  if report.hasFailures then
    note .warn "deployment finished with failures" [("failed", toString report.failedSteps.length)]
  else note .info "deployment finished" [("descriptors", toString report.descriptors)]

/-- Builds and deploys a mod. -/
def run (compiler : Compiler) (settings : Settings) : Run Report := do
  let report ← carryOut compiler settings (← prepare settings)
  noteEnd report
  return report

end Pipeline

end ModPackager
