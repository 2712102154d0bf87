import ModPackager.AuxScript.Job
import ModPackager.Config.Settings
import ModPackager.Deploy
import ModPackager.Lua.LongString
import ModPackager.Patch.Manifest
import ModPackager.World

/-!
# Compiling and deploying scripts

Jobs run one after another. Each one starts the compiler anew, which compiles the whole auxiliary
directory, and deploys only its own output. A job that fails is recorded and the next one runs. At the
end the outputs that the compiler left behind are removed.
-/

namespace ModPackager

/-- The time limit of a run lies beyond what the clock can count. -/
structure ClockOverflow where
deriving DecidableEq, Repr

/-- A part of a job. -/
abbrev JobAction := EStateM Error World

namespace JobAction

/-- A file operation as part of a job. -/
def lift {α : Type} (action : FileAction α) : JobAction α := fun world =>
  match action world.files with
  | .ok value files => .ok value { world with files }
  | .error fault files => .error (.io fault) { world with files }

end JobAction

/-- What became of a job. -/
structure JobRun where
  job : Job
  /-- The name of the deployed file, or why there is none. -/
  result : Except Error String

namespace JobRun

/-- The step that reports the job. -/
def step (run : JobRun) : StepReport where
  name := "aux:" ++ run.job.fileName
  outcome :=
    match run.result with
    | .ok _ => .success
    | .error e => .failed e.message

/-- The name of the deployed file, if there is one. -/
def deployed? (run : JobRun) : Option String := run.result.toOption

end JobRun

namespace AuxScript

/-- The part of the program that these events come from. -/
def logSource : String := "lovepack::transpile"

/-! ### Time -/

/-- How far in the past, in milliseconds, an output may seem to have been written. -/
def clockSlack : Nat := 2000

/-- The seconds that the clock, of 64 bits with a sign, can count. -/
def clockLimit : Nat := UInt64.size / 2

/-- When a run that starts now must be done. -/
def deadline? (now timeoutSecs : Nat) : Option Nat :=
  if now / 1000 + timeoutSecs < clockLimit then some (now + timeoutSecs * 1000) else none

/-- The pause after a number of looks for the output. -/
def pause (settings : CompilerSettings) (looks : Nat) : Nat :=
  min (10 * Nat.pow 2 (min looks 6)) (max settings.pollIntervalMs 1)

/-! ### The parts of a job -/

/-- The absolute auxiliary directory, and whether the script is to be embedded. -/
def prepare (settings : Settings) (job : Job) : JobAction (Path × Bool) := do
  match settings.auxDir.absolute? (← get).files.workingDir with
  | none => throw (.io .emptyPath)
  | some auxDir => return (auxDir, ← JobAction.lift job.embeds)

/-- Notes what the compiler printed. -/
def noteOutput (job : Job) (output errors : String) (world : World) : World :=
  let noteText (level : Log.Level) (text : String) (world : World) : World :=
    if (Text.trim text.toList).isEmpty then world
    else world.note logSource level (String.ofList (Text.trimEnd text.toList)) [("file", job.fileName)]
  noteText .warn errors (noteText .info output world)

/-- Runs the compiler until the deadline. -/
def invoke (compiler : Compiler) (settings : Settings) (job : Job) (auxDir : Path) (deadline : Nat) :
    JobAction Unit := do
  let args := settings.compiler.resolvedArgs auxDir
  modify fun world => world.note logSource .debug "invoking compiler"
    [("file", job.fileName), ("program", settings.compiler.program), ("args", Log.listText args)]
  let world ← get
  let (completion, world) :=
    compiler ⟨settings.compiler.program, args, settings.projectDir⟩ (deadline - world.now) world
  set world
  match completion with
  | .notStarted fault => throw (.compilerSpawn settings.compiler.program fault)
  | .timedOut => throw (.compilerTimedOut job.fileName settings.compiler.timeoutSecs)
  | .exited status output errors =>
    modify (noteOutput job output errors)
    if status != .code 0 then
      throw (.compilerFailed job.fileName status (String.ofList (Text.trim errors.toList)))

/-- Whether the output was written no earlier than at a time. -/
def isFresh (fs : FileSystem) (output : Path) (time : Nat) : Bool :=
  (fs.modified? output).any (time ≤ ·)

/-- Waits until the output was written no earlier than at a time, looking for it at most `fuel`
times. -/
def awaitOutput (settings : CompilerSettings) (job : Job) (time deadline : Nat) :
    Nat → Nat → JobAction Unit
  | 0, _ => throw (.compilerTimedOut job.fileName settings.timeoutSecs)
  | fuel + 1, looks => do
    let world ← get
    if isFresh world.files job.output time then return
    if deadline ≤ world.now then throw (.compilerTimedOut job.fileName settings.timeoutSecs)
    set (world.wait (pause settings looks))
    awaitOutput settings job time deadline fuel (looks + 1)

/-- A file operation for which a missing file means that the output is gone. -/
def onOutput {α : Type} (job : Job) (action : FileAction α) : JobAction α := fun world =>
  match action world.files with
  | .ok value files => .ok value { world with files }
  | .error .notFound files =>
    .error (.compilerOutputMissing job.fileName job.output) { world with files }
  | .error fault files => .error (.io fault) { world with files }

/-- Puts the output in its place, embedded in a string if asked for. -/
def deployOutput (modPrefix : String) (job : Job) (embedded : Bool) : JobAction Unit := do
  if embedded then
    let body ← onOutput job (FileAction.readText job.output)
    JobAction.lift (FileAction.writeText job.output (Lua.embed modPrefix job.stem body))
  JobAction.lift (FileAction.createParent job.deployPath)
  onOutput job (FileAction.copyFile job.output job.deployPath)
  JobAction.lift (FileAction.removeFile job.output)

/-- Runs a job that started at a time and must be done by another. -/
def attempt (compiler : Compiler) (settings : Settings) (modPrefix : String) (job : Job)
    (started deadline : Nat) : JobAction String := do
  let (auxDir, embedded) ← prepare settings job
  invoke compiler settings job auxDir deadline
  awaitOutput settings.compiler job (started - clockSlack) deadline (deadline - started + 1) 0
  deployOutput modPrefix job embedded
  return job.targetName

/-! ### Jobs -/

/-- Notes what became of a job. -/
def noteRun (run : JobRun) (world : World) : World :=
  match run.result with
  | .ok deployed =>
    world.note logSource .info "auxiliary script deployed"
      [("file", run.job.fileName), ("deployed", deployed)]
  | .error e =>
    world.note logSource .warn "auxiliary script failed"
      [("file", run.job.fileName), ("error", e.message)]

/-- Runs a job and records what became of it. -/
def runJob (compiler : Compiler) (settings : Settings) (modPrefix : String) (job : Job) :
    EStateM ClockOverflow World JobRun := fun world =>
  match deadline? world.now settings.compiler.timeoutSecs with
  | none => .error {} world
  | some deadline =>
    let (result, world) : Except Error String × World :=
      match attempt compiler settings modPrefix job world.now deadline world with
      | .ok deployed world => (.ok deployed, world)
      | .error e world => (.error e, world)
    .ok ⟨job, result⟩ (noteRun ⟨job, result⟩ world)

/-- Removes the output of a job if it is still there. -/
def removeLeftover (job : Job) (world : World) : World :=
  if world.files.holdsFile job.output then
    match FileAction.removeFile job.output world.files with
    | .ok _ files =>
      { world with files }.note logSource .debug "removed leftover staging output"
        [("file", job.output.text)]
    | .error _ _ => world
  else world

/-- Runs jobs in order and then removes what the compiler left behind. -/
def runJobs (compiler : Compiler) (settings : Settings) (modPrefix : String) (jobs : List Job) :
    EStateM ClockOverflow World (List JobRun) := do
  let runs ← jobs.mapM (runJob compiler settings modPrefix)
  modify fun world => jobs.foldl (fun world job => removeLeftover job world) world
  return runs

/-! ### The whole directory -/

/-- What became of the auxiliary scripts. -/
structure Summary where
  runs : List JobRun
  /-- Why the directory could not be listed, if so. -/
  unlisted : Option IoFault := none
  /-- How writing the manifest went, if there was one to write. -/
  manifest : Option Outcome := none

/-- The name of the manifest of scripts. -/
def manifestName : String := "extra_lua.toml"

/-- The names of the deployed files in the order of jobs. -/
def Summary.deployed (summary : Summary) : List String := summary.runs.filterMap (·.deployed?)

/-- The steps that report the scripts. -/
def Summary.steps (summary : Summary) : List StepReport :=
  match summary.unlisted with
  | some fault => [⟨"aux", .failed (Error.io fault).message⟩]
  | none =>
    summary.runs.map (·.step) ++ (summary.manifest.map (StepReport.mk manifestName)).toList

/-- Notes a step that failed. -/
def noteStep (source step : String) (path : Path) (outcome : Outcome) (world : World) : World :=
  match outcome with
  | .failed reason =>
    world.note source .warn "deployment step failed"
      [("step", Text.quoted step), ("path", path.text), ("error", reason)]
  | _ => world

/-- Compiles and deploys the scripts of the auxiliary directory, and writes their manifest if any was
deployed. -/
def transpile (compiler : Compiler) (settings : Settings) (deployRoot : Path) (modPrefix : String) :
    EStateM ClockOverflow World Summary := do
  match discoverJobs (← get).files settings.auxDir deployRoot with
  | .error fault =>
    modify fun world => world.note logSource .warn "could not list auxiliary scripts"
      [("dir", settings.auxDir.text), ("error", (Error.io fault).message)]
    return { runs := [], unlisted := some fault }
  | .ok jobs =>
    if !(← get).files.holdsDirectory settings.auxDir then
      modify fun world => world.note logSource .debug "no auxiliary directory"
        [("dir", settings.auxDir.text)]
    let runs ← runJobs compiler settings modPrefix jobs
    let summary : Summary := { runs }
    if summary.deployed.isEmpty then return summary
    let path := (deployRoot.child Deploy.lovelyDir).child manifestName
    let (outcome, world) :=
      (← get).onFiles (Deploy.writeFile path (Manifest.renderScripts summary.deployed))
    set (noteStep "lovepack::deploy" "write" path outcome world)
    return { summary with manifest := some outcome }

end AuxScript

end ModPackager
