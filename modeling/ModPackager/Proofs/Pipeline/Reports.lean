import ModPackager.Proofs.Pipeline.Stages

/-!
# What a run reports

A run can fail only while it prepares, and preparing touches no files (`prepare_error`). From then on every
part of it succeeds, whatever its steps come to, so all of them are in the report, in the order in which they
are taken (`run_reports`). The scripts are the last: their jobs are run one by one, each leaves one step
(`mapM_jobs`), and the manifest is a step of its own if there is anything to list in it.

One thing ends a run without a report and behind the first step: a time limit beyond what the clock counts.
-/

namespace ModPackager

variable {settings : Settings} {world world' : World} {compiler : Compiler} {modPrefix : String}

namespace AuxScript

variable {job : Job} {jobs : List Job} {run : JobRun} {runs : List JobRun} {root : Path}

/-! ### Steps of scripts -/

/-- The names of the steps of scripts that are compiled and listed. -/
def stepNames (jobs : List Job) (deployed : List String) : List String :=
  jobs.map ("aux:" ++ ·.fileName) ++ if deployed.isEmpty then [] else [manifestName]

/-- The steps of scripts are as they should be for a directory: one for each of its jobs, and one for the
manifest, or a single one if it cannot be listed. -/
def Reported (listed : Except IoFault (List Job)) (steps : List StepReport) (deployed : List String) : Prop :=
  match listed with
  | .error fault => steps = [⟨"aux", .failed (Error.io fault).message⟩] ∧ deployed = []
  | .ok jobs => steps.map (·.name) = stepNames jobs deployed

theorem transpile_reported {summary : Summary}
    (h : transpile compiler settings root modPrefix world = .ok summary world') :
    Reported (discoverJobs world.files settings.auxDir root) summary.steps summary.deployed := by
  rcases transpile_inv h with
    ⟨fault, hlisted, rfl, -⟩ | ⟨jobs, noted, ended, hlisted, -, -, hran, hunlisted, hmanifest⟩
  · rw [hlisted]
    exact ⟨rfl, rfl⟩
  · have hnames : summary.runs.map (·.step.name) = jobs.map ("aux:" ++ ·.fileName) := by
      rw [← runJobs_jobs hran, List.map_map]
      rfl
    rw [hlisted, Reported, stepNames, Summary.steps, hunlisted]
    rcases hmanifest with ⟨hempty, hnone, -⟩ | ⟨hdeployed, outcome, -, -, hsome, -⟩
    · simp [hempty, hnone, ← hnames]
    · simp [hdeployed, hsome, ← hnames]

end AuxScript

namespace Pipeline

variable {plan : Plan} {report : Report}

/-! ### Runs that fail -/

/-- Preparing that fails changes no files. -/
theorem prepare_error {abort : Abort} (h : prepare settings world = .error abort world') :
    (∃ e, abort = .failed e) ∧ world'.files = world.files ∧ world'.pending = world.pending := by
  unfold prepare at h
  simp only [bind, EStateM.bind, run_get] at h
  cases hpackage : Package.load world.files settings.projectDir with
  | error e =>
      simp only [hpackage, require, run_throw] at h
      cases h
      exact ⟨⟨e, rfl⟩, rfl, rfl⟩
  | ok package =>
      cases hroot : settings.deployRoot world.files with
      | error e =>
          simp only [hpackage, hroot, require, run_throw, pure,
            EStateM.pure] at h
          cases h
          exact ⟨⟨e, rfl⟩, rfl, rfl⟩
      | ok root =>
          cases hscan : Scan.scanProject world.files settings with
          | error e =>
              simp only [hpackage, hroot, hscan, require, run_throw,
                pure, EStateM.pure, note, run_modify] at h
              cases h
              exact ⟨⟨e, rfl⟩, rfl, rfl⟩
          | ok scan =>
              simp [hpackage, hroot, hscan, require, pure, EStateM.pure, note, run_modify] at h

theorem noteEnd_eq (report : Report) (world : World) :
    ∃ noted, noteEnd report world = .ok () noted ∧ noted.files = world.files
      ∧ noted.pending = world.pending := by
  unfold noteEnd
  split <;> exact ⟨_, rfl, rfl, rfl⟩

/-- What a run has done that ends without a report: either it could not be prepared, or compiling the scripts
ended it. -/
theorem run_error {abort : Abort} (h : run compiler settings world = .error abort world') :
    (∃ e, abort = .failed e ∧ prepare settings world = .error (.failed e) world')
      ∨ abort = .clockOverflow ∧ ∃ plan prepared staged fault, prepare settings world = .ok plan prepared
        ∧ staged.files = (runStages (plan.stages settings) prepared.files).2 ∧ staged.pending = prepared.pending
        ∧ AuxScript.transpile compiler settings plan.root plan.metadata.modPrefix staged = .error fault world' := by
  unfold run at h
  rcases bind_eq_error.1 h with hprepare | ⟨plan, prepared, hprepare, hrest⟩
  · obtain ⟨⟨e, rfl⟩, -⟩ := prepare_error hprepare
    exact .inl ⟨e, rfl, hprepare⟩
  · rcases bind_eq_error.1 hrest with hcarry | ⟨report, ended, -, hend⟩
    · obtain ⟨staged, hfiles, hpending, heq⟩ := carryOut_eq compiler settings plan prepared
      rw [heq, takeScripts] at hcarry
      split at hcarry
      · cases hcarry
      next fault _ htranspile =>
          cases hcarry
          exact .inr ⟨rfl, plan, prepared, staged, fault, hprepare, hfiles, hpending, htranspile⟩
    · obtain ⟨noted, hnoted, -⟩ := noteEnd_eq report ended
      rcases bind_eq_error.1 hend with hfails | ⟨_, _, -, hreturn⟩
      · rw [hnoted] at hfails
        cases hfails
      · cases hreturn

/-- A run that fails has changed no files. A run that ends in a report has taken every step, and reports them
in order, whichever of them failed: the steps of the plan, and then those of the scripts that are discovered
once the build tree is copied. -/
theorem run_reports (compiler : Compiler) (settings : Settings) (world : World) :
    match run compiler settings world with
    | .error (.failed _) ended => ended.files = world.files ∧ ended.pending = world.pending
    | .error .clockOverflow _ => ∃ now, AuxScript.deadline? now settings.compiler.timeoutSecs = none
    | .ok report _ => ∃ plan prepared staged scripts,
        prepare settings world = .ok plan prepared
        ∧ staged = (runStages (plan.stages settings) world.files).2
        ∧ report.steps.map (·.name)
          = ["clear", "skeleton", "patches.toml", plan.metadata.id ++ ".json", "copy"] ++ scripts.map (·.name)
        ∧ scripts = report.steps.drop 5
        ∧ AuxScript.Reported (discoverJobs staged settings.auxDir plan.root) scripts report.auxScripts := by
  rcases hrun : run compiler settings world with ⟨report, ended⟩ | ⟨_ | _, ended⟩
  · obtain ⟨plan, prepared, carried, hprepare, hcarry, -⟩ := run_inv hrun
    obtain ⟨hprepared, -⟩ := prepare_inv hprepare
    obtain ⟨staged, summary, hstaged, -, htranspile, hsteps, hdeployed⟩ := carryOut_inv hcarry
    rw [hprepared] at hstaged hsteps
    refine ⟨plan, prepared, staged.files, summary.steps, hprepare, hstaged, ?_, ?_, ?_⟩
    · rw [hsteps, List.map_append]
      rfl
    · rw [hsteps]
      rfl
    · rw [hdeployed]
      exact AuxScript.transpile_reported htranspile
  · rcases run_error hrun with ⟨e, -, hprepare⟩ | ⟨habort, -⟩
    · exact (prepare_error hprepare).2
    · cases habort
  · rcases run_error hrun with ⟨e, habort, -⟩ | ⟨-, plan, prepared, staged, fault, -, -, -, htranspile⟩
    · cases habort
    · exact AuxScript.transpile_overflow htranspile

end Pipeline

end ModPackager
