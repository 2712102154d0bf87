import ModPackager.AuxScript.Run
import ModPackager.Proofs.FileSystem.Action

/-!
# The parts of compiling scripts

What a run of the scripts comes to, taken apart: a job that succeeds has gone through each of its parts
(`attempt_inv`), every job leaves one run (`mapM_jobs`), and a directory that can be listed has its jobs run and
then what they deployed listed (`transpile_cases`). Nothing in it fails but a time limit that the clock cannot
count (`transpile_overflow`).
-/

namespace ModPackager

open FileSystem FileAction Deploy

variable {settings : Settings} {root : Path} {modPrefix : String} {job : Job} {jobs : List Job} {run : JobRun}
  {runs : List JobRun} {world world' : World} {compiler : Compiler}

/-- The compiler has run and has ended without an error. -/
def Completion.Succeeds (ending : Completion) : Prop := ∃ output errors, ending = .exited (.code 0) output errors

/-! ### Jobs -/

theorem JobRun.deployed?_eq_none_iff : run.deployed? = none ↔ ∃ e, run.result = .error e := by
  unfold JobRun.deployed?
  rcases run.result with e | deployed <;> simp [Except.toOption]

theorem JobRun.deployed?_eq_some_iff {deployed : String} : run.deployed? = some deployed ↔ run.result = .ok deployed := by
  unfold JobRun.deployed?
  rcases run.result with e | deployed <;> simp [Except.toOption]

/-- A file operation as part of a job changes the files only. -/
theorem JobAction.lift_inv {α : Type} {action : FileAction α} {value : α}
    (h : JobAction.lift action world = .ok value world') :
    action world.files = .ok value world'.files ∧ world'.pending = world.pending := by
  unfold JobAction.lift at h
  split at h
  next heq => cases h; exact ⟨heq, rfl⟩
  · cases h

theorem AuxScript.onOutput_inv {α : Type} {action : FileAction α} {value : α}
    (h : onOutput job action world = .ok value world') :
    action world.files = .ok value world'.files ∧ world'.pending = world.pending := by
  unfold onOutput at h
  split at h
  next heq => cases h; exact ⟨heq, rfl⟩
  · cases h
  · cases h

namespace AuxScript

theorem embeds_eq (job : Job) (fs : FileSystem) : job.embeds fs =
    match readBytes job.source fs with
    | .ok contents _ => .ok (Job.embedMark.toUTF8.toList.isPrefixOf contents.toList) fs
    | .error fault _ => .error fault fs := by
  change EStateM.bind (readBytes job.source) _ fs = _
  unfold EStateM.bind
  rw [readBytes_eq]
  rcases fs.lookup job.source with fault | ⟨_, _ | _ | _⟩ <;> rfl

/-- A script that was read is a file. -/
theorem holdsFile_of_embeds {fs : FileSystem} {embedded : Bool} (h : job.embeds fs = .ok embedded fs) :
    fs.holdsFile job.source = true := by
  rw [embeds_eq, readBytes_eq] at h
  rcases hlookup : fs.lookup job.source with _ | ⟨place, contents | _ | _⟩
  · simp [hlookup] at h
  · exact holdsFile_iff.2 ⟨place, contents, lookup_eq_ok_iff.1 hlookup⟩
  · simp [hlookup] at h
  · simp [hlookup] at h

/-- Preparing a job changes nothing. -/
theorem prepare_eq (settings : Settings) (job : Job) (world : World) : prepare settings job world =
    match settings.auxDir.absolute? world.files.workingDir with
    | none => .error (.io .emptyPath) world
    | some auxDir =>
      match job.embeds world.files with
      | .ok embedded _ => .ok (auxDir, embedded) world
      | .error fault _ => .error (.io fault) world := by
  unfold prepare
  simp only [bind, EStateM.bind, run_get]
  rcases settings.auxDir.absolute? world.files.workingDir with _ | auxDir
  · rfl
  · change EStateM.bind (JobAction.lift job.embeds) _ world = _
    unfold EStateM.bind JobAction.lift
    rw [embeds_eq]
    rcases readBytes job.source world.files with ⟨contents, _⟩ | ⟨fault, _⟩ <;> rfl

theorem prepare_inv {auxDir : Path} {embedded : Bool}
    (h : prepare settings job world = .ok (auxDir, embedded) world') :
    world' = world ∧ settings.auxDir.absolute? world.files.workingDir = some auxDir
      ∧ job.embeds world.files = .ok embedded world.files := by
  rw [prepare_eq] at h
  split at h
  · cases h
  next hauxDir =>
      split at h
      next hembeds =>
          cases h
          rw [embeds_eq] at hembeds ⊢
          split at hembeds <;> cases hembeds
          exact ⟨rfl, hauxDir, rfl⟩
      · cases h

theorem prepare_error {e : Error} (h : prepare settings job world = .error e world') : world' = world := by
  rw [prepare_eq] at h
  split at h
  · cases h
    rfl
  · split at h <;> cases h
    rfl

theorem prepare_maintains {inv : World → Prop} (settings : Settings) (job : Job) :
    Maintains inv (prepare settings job) fun _ => True := by
  intro world hworld
  rcases hrun : prepare settings job world with ⟨⟨auxDir, embedded⟩, after⟩ | ⟨e, after⟩
  · obtain ⟨rfl, -, -⟩ := prepare_inv hrun
    exact ⟨hworld, trivial⟩
  · exact prepare_error hrun ▸ hworld

/-- How the compiler ends when it runs for a job. -/
def completion (compiler : Compiler) (settings : Settings) (job : Job) (auxDir : Path) (deadline : Nat) (world : World) :
    Completion :=
  let args := settings.compiler.resolvedArgs auxDir
  (compiler ⟨settings.compiler.program, args, settings.projectDir⟩ (deadline - world.now)
    (world.note logSource .debug "invoking compiler"
      [("file", job.fileName), ("program", settings.compiler.program), ("args", Log.listText args)])).1

/-- The world once the compiler has run for a job. -/
def compiled (compiler : Compiler) (settings : Settings) (job : Job) (auxDir : Path) (deadline : Nat) (world : World) :
    World :=
  let args := settings.compiler.resolvedArgs auxDir
  (compiler ⟨settings.compiler.program, args, settings.projectDir⟩ (deadline - world.now)
    (world.note logSource .debug "invoking compiler"
      [("file", job.fileName), ("program", settings.compiler.program), ("args", Log.listText args)])).2

theorem noteOutput_files (job : Job) (output errors : String) (world : World) :
    (noteOutput job output errors world).files = world.files
      ∧ (noteOutput job output errors world).pending = world.pending := by
  unfold noteOutput
  constructor <;> (dsimp only; split <;> split <;> rfl)

/-- What a job makes of the way in which the compiler has ended. -/
def conclude (settings : Settings) (job : Job) : Completion → JobAction Unit
  | .notStarted fault => throw (.compilerSpawn settings.compiler.program fault)
  | .timedOut => throw (.compilerTimedOut job.fileName settings.compiler.timeoutSecs)
  | .exited status output errors => do
    modify (noteOutput job output errors)
    if status != .code 0 then
      throw (.compilerFailed job.fileName status (String.ofList (Text.trim errors.toList)))

/-- However the compiler ends, the job goes on, or fails, with what it has done. -/
theorem invoke_eq (compiler : Compiler) (settings : Settings) (job : Job) (auxDir : Path) (deadline : Nat)
    (world : World) : invoke compiler settings job auxDir deadline world
      = conclude settings job (completion compiler settings job auxDir deadline world)
        (compiled compiler settings job auxDir deadline world) := rfl

theorem conclude_maintains (settings : Settings) (job : Job) (completion : Completion) (left : World) :
    Maintains (fun world : World => world.files = left.files ∧ world.pending = left.pending)
      (conclude settings job completion) fun _ => True := by
  unfold conclude
  split
  · exact .throw
  · exact .throw
  · refine (Maintains.modify fun {world} h => ?_).bind fun _ _ => ?_
    · obtain ⟨hfiles, hpending⟩ := noteOutput_files job _ _ world
      rwa [hfiles, hpending]
    · split
      · exact .throw
      · exact .pure trivial

theorem conclude_inv {ending : Completion} {world world' : World}
    (h : conclude settings job ending world = .ok () world') :
    ending.Succeeds ∧ world'.files = world.files ∧ world'.pending = world.pending := by
  have hsame : Maintains _ (conclude settings job ending) _ := conclude_maintains settings job ending world
  refine ⟨?_, (hsame.ok ⟨rfl, rfl⟩ h).1⟩
  unfold conclude at h
  split at h
  · cases h
  · cases h
  next status output errors =>
      obtain ⟨⟨⟩, noted, -, hrest⟩ := bind_eq_ok.1 h
      split at hrest
      · cases hrest
      next hstatus => exact ⟨output, errors, by simpa using hstatus⟩

theorem conclude_succeeds {ending : Completion} (h : ending.Succeeds) (settings : Settings) (job : Job) (world : World) :
    ∃ noted, conclude settings job ending world = .ok () noted ∧ noted.files = world.files
      ∧ noted.pending = world.pending := by
  obtain ⟨output, errors, rfl⟩ := h
  exact ⟨noteOutput job output errors world, rfl, noteOutput_files job output errors world⟩

/-- The files and processes that a job finds when the compiler has ended are those that it left. -/
theorem invoke_leaves (compiler : Compiler) (settings : Settings) (job : Job) (auxDir : Path) (deadline : Nat)
    (world : World) :
    match invoke compiler settings job auxDir deadline world with
    | .ok _ after | .error _ after => after.files = (compiled compiler settings job auxDir deadline world).files
        ∧ after.pending = (compiled compiler settings job auxDir deadline world).pending := by
  rw [invoke_eq]
  generalize completion compiler settings job auxDir deadline world = ending
  generalize compiled compiler settings job auxDir deadline world = left
  have hsame : Maintains _ (conclude settings job ending) _ := conclude_maintains settings job ending left
  rcases hrun : conclude settings job ending left with ⟨⟨⟩, after⟩ | ⟨e, after⟩
  · exact (hsame.ok ⟨rfl, rfl⟩ hrun).1
  · exact hsame.error ⟨rfl, rfl⟩ hrun

/-- Puts the output in its place as it is. -/
def placeOutput (job : Job) : JobAction Unit := do
  JobAction.lift (createParent job.deployPath)
  onOutput job (copyFile job.output job.deployPath)
  JobAction.lift (removeFile job.output)

/-- Embeds the output in a string where it is. -/
def embedOutput (modPrefix : String) (job : Job) : JobAction Unit := do
  let body ← onOutput job (readText job.output)
  JobAction.lift (writeText job.output (Lua.embed modPrefix job.stem body))

/-- An output is placed as it is, or embedded before it is. -/
theorem deployOutput_eq (modPrefix : String) (job : Job) (embedded : Bool) :
    deployOutput modPrefix job embedded
      = if embedded then embedOutput modPrefix job >>= fun _ => placeOutput job else placeOutput job := by
  unfold embedOutput
  rw [bind_assoc]
  rfl

/-- The parts of a job that succeeds. -/
theorem attempt_inv {started deadline : Nat} {deployed : String}
    (h : attempt compiler settings modPrefix job started deadline world = .ok deployed world') :
    deployed = job.targetName ∧ ∃ auxDir embedded prepared invoked awaited,
      prepare settings job world = .ok (auxDir, embedded) prepared
      ∧ invoke compiler settings job auxDir deadline prepared = .ok () invoked
      ∧ awaitOutput settings.compiler job (started - clockSlack) deadline (deadline - started + 1) 0 invoked
        = .ok () awaited
      ∧ deployOutput modPrefix job embedded awaited = .ok () world' := by
  obtain ⟨⟨auxDir, embedded⟩, prepared, hprepare, hrest⟩ := bind_eq_ok.1 h
  obtain ⟨⟨⟩, invoked, hinvoke, hrest⟩ := bind_eq_ok.1 hrest
  obtain ⟨⟨⟩, awaited, hawait, hrest⟩ := bind_eq_ok.1 hrest
  obtain ⟨⟨⟩, ended, hdeploy, hend⟩ := bind_eq_ok.1 hrest
  cases hend
  exact ⟨rfl, auxDir, embedded, prepared, invoked, awaited, hprepare, hinvoke, hawait, hdeploy⟩

/-- Where a job that fails has stopped. -/
theorem attempt_error {started deadline : Nat} {e : Error}
    (h : attempt compiler settings modPrefix job started deadline world = .error e world') :
    prepare settings job world = .error e world' ∨ ∃ auxDir embedded prepared,
      prepare settings job world = .ok (auxDir, embedded) prepared
      ∧ (invoke compiler settings job auxDir deadline prepared = .error e world' ∨ ∃ invoked,
        invoke compiler settings job auxDir deadline prepared = .ok () invoked
        ∧ (awaitOutput settings.compiler job (started - clockSlack) deadline (deadline - started + 1) 0 invoked
            = .error e world' ∨ ∃ awaited,
          awaitOutput settings.compiler job (started - clockSlack) deadline (deadline - started + 1) 0 invoked
            = .ok () awaited
          ∧ deployOutput modPrefix job embedded awaited = .error e world')) := by
  refine (bind_eq_error.1 h).imp_right fun ⟨⟨auxDir, embedded⟩, prepared, hprepare, hrest⟩ =>
    ⟨auxDir, embedded, prepared, hprepare, ?_⟩
  refine (bind_eq_error.1 hrest).imp_right fun ⟨⟨⟩, invoked, hinvoke, hrest⟩ => ⟨invoked, hinvoke, ?_⟩
  refine (bind_eq_error.1 hrest).imp_right fun ⟨⟨⟩, awaited, hawait, hrest⟩ => ⟨awaited, hawait, ?_⟩
  rcases bind_eq_error.1 hrest with hdeploy | ⟨⟨⟩, ended, -, hend⟩
  · exact hdeploy
  · cases hend

theorem deadline?_eq_none_iff {now timeoutSecs : Nat} :
    deadline? now timeoutSecs = none ↔ clockLimit ≤ now / 1000 + timeoutSecs := by
  simp [deadline?]

theorem deadline?_eq_some_iff {now timeoutSecs deadline : Nat} : deadline? now timeoutSecs = some deadline ↔
    now / 1000 + timeoutSecs < clockLimit ∧ deadline = now + timeoutSecs * 1000 := by
  unfold deadline?
  split
  next hcounts => simp [hcounts, eq_comm]
  next hcounts => simp [hcounts]

theorem noteRun_files (run : JobRun) (world : World) :
    (noteRun run world).files = world.files ∧ (noteRun run world).pending = world.pending := by
  unfold noteRun
  split <;> exact ⟨rfl, rfl⟩

/-- Running a job keeps what its parts keep, if noting how it went does. -/
theorem runJob_maintains {inv : World → Prop} (result : Except Error String → Prop)
    (h : ∀ started deadline, Maintains inv (attempt compiler settings modPrefix job started deadline)
      fun deployed => result (.ok deployed))
    (herror : ∀ e, result (.error e))
    (hnote : ∀ {world noted : World}, inv world → noted.files = world.files → noted.pending = world.pending → inv noted) :
    Maintains inv (runJob compiler settings modPrefix job) fun run => result run.result := by
  intro world hworld
  unfold runJob
  cases deadline? world.now settings.compiler.timeoutSecs with
  | none => exact hworld
  | some deadline =>
      have hattempt := h world.now deadline world hworld
      rcases hrun : attempt compiler settings modPrefix job world.now deadline world with
        ⟨deployed, after⟩ | ⟨e, after⟩ <;> rw [hrun] at hattempt <;> simp only [hrun]
      · exact ⟨hnote hattempt.1 (noteRun_files _ _).1 (noteRun_files _ _).2, hattempt.2⟩
      · exact ⟨hnote hattempt (noteRun_files _ _).1 (noteRun_files _ _).2, herror e⟩

/-- A job whose run succeeded. -/
theorem runJob_inv {run : JobRun} (h : runJob compiler settings modPrefix job world = .ok run world')
    (hsucceeds : ∀ reason, run.step.outcome ≠ .failed reason) :
    ∃ deadline deployed ended, deadline? world.now settings.compiler.timeoutSecs = some deadline
      ∧ attempt compiler settings modPrefix job world.now deadline world = .ok deployed ended
      ∧ run = ⟨job, .ok deployed⟩ ∧ world'.files = ended.files ∧ world'.pending = ended.pending := by
  unfold runJob at h
  cases hdeadline : deadline? world.now settings.compiler.timeoutSecs with
  | none => simp [hdeadline] at h
  | some deadline =>
      simp only [hdeadline] at h
      rcases hattempt : attempt compiler settings modPrefix job world.now deadline world with
        ⟨deployed, ended⟩ | ⟨e, ended⟩
      · simp only [hattempt] at h
        cases h
        exact ⟨deadline, deployed, ended, rfl, hattempt, rfl, rfl, rfl⟩
      · simp only [hattempt] at h
        cases h
        simp [JobRun.step] at hsucceeds

theorem runJob_job (h : runJob compiler settings modPrefix job world = .ok run world') : run.job = job := by
  unfold runJob at h
  split at h
  · cases h
  · cases h
    rfl

/-- Every job leaves one run, in order. -/
theorem mapM_jobs (h : jobs.mapM (runJob compiler settings modPrefix) world = .ok runs world') :
    runs.map (·.job) = jobs := by
  induction jobs generalizing world runs with
  | nil =>
      cases h
      rfl
  | cons job rest ih =>
      rw [List.mapM_cons] at h
      obtain ⟨run, between, hfirst, hrest⟩ := bind_eq_ok.1 h
      obtain ⟨later, ended, hlater, hend⟩ := bind_eq_ok.1 hrest
      cases hend
      rw [List.map_cons, runJob_job hfirst, ih hlater]

/-- Where a run comes from: the jobs before it have led to the world in which its job has started. -/
theorem mapM_split {before after : List JobRun} (h : jobs.mapM (runJob compiler settings modPrefix) world = .ok runs world')
    (hruns : runs = before ++ run :: after) :
    ∃ start stop, (before.map (·.job)).mapM (runJob compiler settings modPrefix) world = .ok before start
      ∧ runJob compiler settings modPrefix run.job start = .ok run stop := by
  induction jobs generalizing world runs before with
  | nil =>
      cases h
      simp at hruns
  | cons job rest ih =>
      rw [List.mapM_cons] at h
      obtain ⟨first, between, hfirst, hrest⟩ := bind_eq_ok.1 h
      obtain ⟨later, ended, hlater, hend⟩ := bind_eq_ok.1 hrest
      cases hend
      obtain rfl := runJob_job hfirst
      cases before with
      | nil =>
          obtain ⟨rfl, -⟩ := List.cons.inj hruns
          exact ⟨world, between, rfl, hfirst⟩
      | cons other before =>
          obtain ⟨rfl, htail⟩ := List.cons.inj hruns
          obtain ⟨start, stop, hbefore, hrun⟩ := ih hlater htail
          refine ⟨start, stop, ?_, hrun⟩
          rw [List.map_cons, List.mapM_cons]
          exact bind_eq_ok.2 ⟨_, between, hfirst, bind_eq_ok.2 ⟨before, start, hbefore, rfl⟩⟩

theorem runJobs_jobs (h : runJobs compiler settings modPrefix jobs world = .ok runs world') :
    runs.map (·.job) = jobs := by
  obtain ⟨runs', ended, hruns, hrest⟩ := bind_eq_ok.1 h
  obtain ⟨⟨⟩, cleaned, -, hend⟩ := bind_eq_ok.1 hrest
  cases hend
  exact mapM_jobs hruns

/-- A job is run just where it has a deadline. -/
theorem runJob_cases (compiler : Compiler) (settings : Settings) (modPrefix : String) (job : Job) (world : World) :
    match runJob compiler settings modPrefix job world with
    | .ok run _ => run.job = job ∧ world.now / 1000 + settings.compiler.timeoutSecs < clockLimit
    | .error _ late => late = world ∧ clockLimit ≤ late.now / 1000 + settings.compiler.timeoutSecs := by
  unfold runJob
  cases hdeadline : deadline? world.now settings.compiler.timeoutSecs with
  | none => exact ⟨rfl, deadline?_eq_none_iff.1 hdeadline⟩
  | some deadline => exact ⟨rfl, (deadline?_eq_some_iff.1 hdeadline).1⟩

/-- Jobs fail with the first one that has no deadline when the ones before it have been run. -/
theorem mapM_error {fault : ClockOverflow} {late : World}
    (h : jobs.mapM (runJob compiler settings modPrefix) world = .error fault late) :
    ∃ before job after runs, jobs = before ++ job :: after
      ∧ before.mapM (runJob compiler settings modPrefix) world = .ok runs late
      ∧ clockLimit ≤ late.now / 1000 + settings.compiler.timeoutSecs := by
  induction jobs generalizing world with
  | nil => cases h
  | cons job rest ih =>
      rw [List.mapM_cons] at h
      rcases bind_eq_error.1 h with hfirst | ⟨run, between, hfirst, hrest⟩
      · have hcases := runJob_cases compiler settings modPrefix job world
        rw [hfirst] at hcases
        obtain ⟨rfl, hlimit⟩ := hcases
        exact ⟨[], job, rest, [], rfl, rfl, hlimit⟩
      · rcases bind_eq_error.1 hrest with hlater | ⟨later, ended, -, hend⟩
        · obtain ⟨before, last, after, runs, rfl, hbefore, hlimit⟩ := ih hlater
          refine ⟨job :: before, last, after, run :: runs, rfl, ?_, hlimit⟩
          rw [List.mapM_cons]
          exact bind_eq_ok.2 ⟨run, between, hfirst, bind_eq_ok.2 ⟨runs, late, hbefore, rfl⟩⟩
        · cases hend

/-! ### The whole directory -/

theorem noteStep_files (source step : String) (path : Path) (outcome : Outcome) (world : World) :
    (noteStep source step path outcome world).files = world.files
      ∧ (noteStep source step path outcome world).pending = world.pending := by
  unfold noteStep
  split <;> exact ⟨rfl, rfl⟩

/-- Runs jobs and lists what they deployed, if that is anything. -/
def runAndList (compiler : Compiler) (settings : Settings) (root : Path) (modPrefix : String) (jobs : List Job) :
    EStateM ClockOverflow World Summary := do
  let runs ← runJobs compiler settings modPrefix jobs
  if (Summary.deployed { runs }).isEmpty then return { runs }
  else do
    let path := (root.child lovelyDir).child manifestName
    let written := (← get).onFiles (writeFile path (Manifest.renderScripts (Summary.deployed { runs })))
    set (noteStep "lovepack::deploy" "write" path written.1 written.2)
    return { runs, manifest := some written.1 }

/-- A directory that cannot be listed is reported, and no more; otherwise its jobs are run. -/
theorem transpile_cases (compiler : Compiler) (settings : Settings) (root : Path) (modPrefix : String)
    (world : World) : ∃ noted : World, noted.files = world.files ∧ noted.pending = world.pending
      ∧ ((∃ fault, discoverJobs world.files settings.auxDir root = .error fault
          ∧ transpile compiler settings root modPrefix world = .ok { runs := [], unlisted := some fault } noted)
        ∨ ∃ jobs, discoverJobs world.files settings.auxDir root = .ok jobs
          ∧ transpile compiler settings root modPrefix world
            = runAndList compiler settings root modPrefix jobs noted) := by
  unfold transpile
  cases hjobs : discoverJobs world.files settings.auxDir root with
  | error fault =>
      refine ⟨world.note logSource .warn "could not list auxiliary scripts"
        [("dir", settings.auxDir.text), ("error", (Error.io fault).message)], rfl, rfl, .inl ⟨fault, rfl, ?_⟩⟩
      simp only [bind, EStateM.bind, run_get, hjobs]
      rfl
  | ok jobs =>
      by_cases haux : world.files.holdsDirectory settings.auxDir = true
      · refine ⟨world, rfl, rfl, .inr ⟨jobs, rfl, ?_⟩⟩
        simp only [bind, EStateM.bind, run_get, hjobs, haux]
        rfl
      · refine ⟨world.note logSource .debug "no auxiliary directory" [("dir", settings.auxDir.text)], rfl, rfl,
          .inr ⟨jobs, rfl, ?_⟩⟩
        simp only [bind, EStateM.bind, run_get, hjobs, haux]
        rfl

theorem runAndList_inv {summary : Summary}
    (h : runAndList compiler settings root modPrefix jobs world = .ok summary world') :
    ∃ ended, runJobs compiler settings modPrefix jobs world = .ok summary.runs ended ∧ summary.unlisted = none
      ∧ (summary.deployed = [] ∧ summary.manifest = none ∧ world' = ended ∨ summary.deployed ≠ [] ∧ ∃ outcome after,
        ended.onFiles (writeFile ((root.child lovelyDir).child manifestName)
          (Manifest.renderScripts summary.deployed)) = (outcome, after)
        ∧ summary.manifest = some outcome
        ∧ world' = noteStep "lovepack::deploy" "write" ((root.child lovelyDir).child manifestName) outcome after) := by
  obtain ⟨runs, ended, hran, hmanifest⟩ := bind_eq_ok.1 h
  refine ⟨ended, ?_⟩
  split at hmanifest
  next hempty =>
      cases hmanifest
      exact ⟨hran, rfl, .inl ⟨List.isEmpty_iff.1 hempty, rfl, rfl⟩⟩
  next hdeployed =>
      obtain ⟨seen, s, hseen, hset⟩ := bind_eq_ok.1 hmanifest
      cases hseen
      generalize hwritten : World.onFiles (writeFile ((root.child lovelyDir).child manifestName)
        (Manifest.renderScripts (Summary.deployed { runs }))) ended = written at hset
      obtain ⟨outcome, after⟩ := written
      obtain ⟨⟨⟩, s, hnoted, hend⟩ := bind_eq_ok.1 hset
      cases hnoted
      cases hend
      have hsame : Summary.deployed { runs, manifest := some outcome } = Summary.deployed { runs } := rfl
      rw [hsame]
      exact ⟨hran, rfl, .inr ⟨fun hnil => hdeployed (List.isEmpty_iff.2 hnil), outcome, after, hwritten, rfl, rfl⟩⟩

/-- Compiling the scripts of a directory that can be listed runs its jobs, and then writes the manifest of what
they deployed, if that is anything. Nothing happens if it cannot be listed. -/
theorem transpile_inv {summary : Summary}
    (h : transpile compiler settings root modPrefix world = .ok summary world') :
    (∃ fault, discoverJobs world.files settings.auxDir root = .error fault
      ∧ summary = { runs := [], unlisted := some fault }
      ∧ world'.files = world.files ∧ world'.pending = world.pending) ∨ ∃ jobs noted ended,
      discoverJobs world.files settings.auxDir root = .ok jobs
      ∧ noted.files = world.files ∧ noted.pending = world.pending
      ∧ runJobs compiler settings modPrefix jobs noted = .ok summary.runs ended ∧ summary.unlisted = none
      ∧ (summary.deployed = [] ∧ summary.manifest = none ∧ world' = ended ∨ summary.deployed ≠ [] ∧ ∃ outcome after,
        ended.onFiles (writeFile ((root.child lovelyDir).child manifestName)
          (Manifest.renderScripts summary.deployed)) = (outcome, after)
        ∧ summary.manifest = some outcome
        ∧ world' = noteStep "lovepack::deploy" "write" ((root.child lovelyDir).child manifestName) outcome after) := by
  obtain ⟨noted, hfiles, hpending, ⟨fault, hlisted, heq⟩ | ⟨jobs, hlisted, heq⟩⟩ :=
    transpile_cases compiler settings root modPrefix world
  · rw [heq] at h
    cases h
    exact .inl ⟨fault, hlisted, rfl, hfiles, hpending⟩
  · rw [heq] at h
    obtain ⟨ended, hran⟩ := runAndList_inv h
    exact .inr ⟨jobs, noted, ended, hlisted, hfiles, hpending, hran⟩

/-- Compiling scripts goes on to its end unless a time limit cannot be counted. -/
theorem transpile_overflow_now {fault : ClockOverflow}
    (h : transpile compiler settings root modPrefix world = .error fault world') :
    deadline? world'.now settings.compiler.timeoutSecs = none := by
  obtain ⟨noted, -, -, ⟨_, -, heq⟩ | ⟨jobs, -, heq⟩⟩ := transpile_cases compiler settings root modPrefix world
  · rw [heq] at h
    cases h
  · rw [heq] at h
    -- Nothing but the jobs can fail, and they fail with the first of them that has no deadline.
    rcases bind_eq_error.1 h with hran | ⟨runs, ended, -, hmanifest⟩
    · rcases bind_eq_error.1 hran with hmapped | ⟨_, _, -, hcleaned⟩
      · obtain ⟨_, _, _, _, -, -, hlimit⟩ := mapM_error hmapped
        exact deadline?_eq_none_iff.2 hlimit
      · cases hcleaned
    · split at hmanifest <;> cases hmanifest

theorem transpile_overflow {fault : ClockOverflow}
    (h : transpile compiler settings root modPrefix world = .error fault world') :
    ∃ now, deadline? now settings.compiler.timeoutSecs = none :=
  ⟨_, transpile_overflow_now h⟩

end AuxScript

end ModPackager
