import ModPackager.Pipeline
import ModPackager.Proofs.AuxScript.Parts

/-!
# The stages of a run

A run that ends in a report has prepared a plan, which changes no files (`prepare_inv`), and carried it out.
Carrying it out means running a list of named steps on the files and then compiling the scripts
(`carryOut_inv`); in between, events are noted and nothing else. So what a run does to the files is told by
`runStages` of the plan's `stages` and by the compiling of scripts (`run_inv`).
-/

namespace ModPackager

variable {settings : Settings} {plan : Pipeline.Plan} {world world' : World} {report report' : Report}
  {compiler : Compiler}

namespace Pipeline

/-! ### Stages -/

/-- Runs named steps one after another and lists how they went. -/
def runStages : List (String × Step) → FileSystem → List StepReport × FileSystem
  | [], fs => ([], fs)
  | (name, step) :: rest, fs =>
    let later := runStages rest (step fs).2
    (⟨name, (step fs).1⟩ :: later.1, later.2)

/-- Copying the build tree as a step. -/
def copyStage (source root : Path) : Step := fun fs =>
  ((Deploy.copyTree source root fs).1.outcome, (Deploy.copyTree source root fs).2)

/-- The path of the manifest of patches. -/
def Plan.patchesPath (plan : Plan) : Path := (plan.root.child Deploy.lovelyDir).child patchesName

/-- The path of the metadata document. -/
def Plan.metadataPath (plan : Plan) : Path := plan.root.child plan.metadata.fileName

/-- The steps of a plan behind clearing. -/
def Plan.laterStages (plan : Plan) (settings : Settings) : List (String × Step) :=
  [("skeleton", Deploy.createSkeleton plan.root),
    (patchesName, Deploy.writeFile plan.patchesPath plan.manifest),
    (plan.metadata.fileName, Deploy.writeFile plan.metadataPath plan.metadata.render),
    ("copy", copyStage settings.buildDir plan.root)]

/-- The steps of a plan before the scripts are compiled. -/
def Plan.stages (plan : Plan) (settings : Settings) : List (String × Step) :=
  ("clear", Deploy.clearDirectory plan.root) :: plan.laterStages settings

/-- The files behind a stage and others. -/
theorem runStages_cons_snd (name : String) (step : Step) (rest : List (String × Step)) (fs : FileSystem) :
    (runStages ((name, step) :: rest) fs).2 = (runStages rest (step fs).2).2 := rfl

theorem runStages_nil_snd (fs : FileSystem) : (runStages [] fs).2 = fs := rfl

theorem copyStage_eq (source root : Path) (fs : FileSystem) : copyStage source root fs =
    ((Deploy.copyTree source root fs).1.outcome, (Deploy.copyTree source root fs).2) := rfl

/-- Stages keep what each of them keeps. -/
theorem runStages_keeps {inv : FileSystem → Prop} {stages : List (String × Step)} {fs : FileSystem}
    (hstages : ∀ stage ∈ stages, ∀ {fs}, inv fs → inv (stage.2 fs).2) (h : inv fs) :
    inv (runStages stages fs).2 := by
  induction stages generalizing fs with
  | nil => exact h
  | cons stage rest ih =>
      exact ih (fun other hother => hstages other (List.mem_cons_of_mem _ hother))
        (hstages stage List.mem_cons_self h)

/-! ### Notes change nothing but the log -/

theorem noteCopy_files (source : Path) (present : Bool) (copied : Deploy.Copied) (world : World) :
    (noteCopy source present copied world).files = world.files
      ∧ (noteCopy source present copied world).pending = world.pending := by
  unfold noteCopy
  split
  · split
    · exact AuxScript.noteStep_files _ _ _ _ _
    · exact ⟨rfl, rfl⟩
  · exact ⟨rfl, rfl⟩

/-! ### Steps of a run -/

/-- A part of a run succeeds, and does what a step does to the files and to the report. -/
def TakesStage (name : String) (step : Step) (part : Report → Run Report) : Prop :=
  ∀ report world, ∃ world', part report world = .ok (report.record name (step world.files).1) world'
    ∧ world'.files = (step world.files).2 ∧ world'.pending = world.pending

theorem takeStep_takes (name kind : String) (path : Path) (step : Step) :
    TakesStage name step (takeStep name kind path step) := by
  intro report world
  exact ⟨_, rfl, AuxScript.noteStep_files _ _ _ _ _⟩

theorem takeCopy_takes (source root : Path) :
    TakesStage "copy" (copyStage source root) (takeCopy source root) := by
  intro report world
  exact ⟨_, rfl, noteCopy_files _ _ _ _⟩

/-- A stage and then something else. -/
theorem TakesStage.bind_eq {name : String} {step : Step} {part : Report → Run Report}
    {next : Report → Run Report} (h : TakesStage name step part) (report : Report) (world : World) :
    ∃ between, (part report >>= next) world = next (report.record name (step world.files).1) between
      ∧ between.files = (step world.files).2 ∧ between.pending = world.pending := by
  obtain ⟨between, hpart, hkept⟩ := h report world
  refine ⟨between, ?_, hkept⟩
  change EStateM.bind (part report) next world = _
  simp only [EStateM.bind, hpart]

theorem takeScripts_inv {root : Path} {modPrefix : String}
    (h : takeScripts compiler settings root modPrefix report world = .ok report' world') :
    ∃ summary, AuxScript.transpile compiler settings root modPrefix world = .ok summary world'
      ∧ report'.steps = report.steps ++ summary.steps ∧ report'.auxScripts = summary.deployed := by
  unfold takeScripts at h
  split at h
  next summary _ heq =>
      cases h
      exact ⟨summary, heq, rfl, rfl⟩
  · cases h

/-! ### The run -/

/-- Preparing finds out what to deploy, and changes no files. -/
theorem prepare_inv (h : prepare settings world = .ok plan world') :
    world'.files = world.files ∧ world'.pending = world.pending
      ∧ settings.deployRoot world.files = .ok plan.root
      ∧ (∃ package, Package.load world.files settings.projectDir = .ok package
        ∧ plan.metadata = Metadata.ofPackage package)
      ∧ Scan.scanProject world.files settings = .ok plan.scan
      ∧ plan.manifest = Manifest.renderPatches plan.scan.descriptors settings.honorMatchIndent := by
  unfold prepare at h
  simp only [bind, EStateM.bind, run_get] at h
  cases hpackage : Package.load world.files settings.projectDir with
  | error e => simp [hpackage, require, run_throw] at h
  | ok package =>
      cases hroot : settings.deployRoot world.files with
      | error e =>
          simp [hpackage, hroot, require, run_throw, pure,
            EStateM.pure] at h
      | ok root =>
          cases hscan : Scan.scanProject world.files settings with
          | error e =>
              simp [hpackage, hroot, hscan, require, run_throw, pure,
                EStateM.pure, note, run_modify] at h
          | ok scan =>
              simp only [hpackage, hroot, hscan, require, pure, EStateM.pure, note, run_modify, EStateM.Result.ok.injEq] at h
              obtain ⟨rfl, rfl⟩ := h
              exact ⟨rfl, rfl, rfl, ⟨package, rfl, rfl⟩, rfl, rfl⟩

/-- Carrying out a plan runs its stages and then compiles the scripts. -/
theorem carryOut_eq (compiler : Compiler) (settings : Settings) (plan : Plan) (world : World) :
    ∃ staged, staged.files = (runStages (plan.stages settings) world.files).2
      ∧ staged.pending = world.pending
      ∧ carryOut compiler settings plan world
        = takeScripts compiler settings plan.root plan.metadata.modPrefix
          { plan.report with steps := (runStages (plan.stages settings) world.files).1 } staged := by
  unfold carryOut
  obtain ⟨cleared, hclear, hfiles₁, hpending₁⟩ := (takeStep_takes _ _ _ _).bind_eq plan.report world
  obtain ⟨founded, hfound, hfiles₂, hpending₂⟩ := (takeStep_takes _ _ _ _).bind_eq _ cleared
  obtain ⟨patched, hpatch, hfiles₃, hpending₃⟩ := (takeStep_takes _ _ _ _).bind_eq _ founded
  obtain ⟨described, hdescribe, hfiles₄, hpending₄⟩ := (takeStep_takes _ _ _ _).bind_eq _ patched
  obtain ⟨copied, hcopy, hfiles₅, hpending₅⟩ := (takeCopy_takes _ _).bind_eq _ described
  refine ⟨copied, ?_, ?_, ?_⟩
  · rw [hfiles₅, hfiles₄, hfiles₃, hfiles₂, hfiles₁]
    rfl
  · rw [hpending₅, hpending₄, hpending₃, hpending₂, hpending₁]
  · refine hclear.trans (hfound.trans (hpatch.trans (hdescribe.trans (hcopy.trans ?_))))
    simp [Report.record, Plan.report, Plan.stages, Plan.laterStages, runStages, hfiles₁, hfiles₂, hfiles₃,
      hfiles₄, Plan.patchesPath, Plan.metadataPath]

/-- Carrying out a plan that ends in a report. -/
theorem carryOut_inv (h : carryOut compiler settings plan world = .ok report world') :
    ∃ staged summary, staged.files = (runStages (plan.stages settings) world.files).2
      ∧ staged.pending = world.pending
      ∧ AuxScript.transpile compiler settings plan.root plan.metadata.modPrefix staged = .ok summary world'
      ∧ report.steps = (runStages (plan.stages settings) world.files).1 ++ summary.steps
      ∧ report.auxScripts = summary.deployed := by
  obtain ⟨staged, hfiles, hpending, heq⟩ := carryOut_eq compiler settings plan world
  obtain ⟨summary, htranspile, hsteps, hdeployed⟩ := takeScripts_inv (heq.symm.trans h)
  exact ⟨staged, summary, hfiles, hpending, htranspile, hsteps, hdeployed⟩

/-- The rest of a report is that of the plan. -/
theorem carryOut_report (h : carryOut compiler settings plan world = .ok report world') :
    report = { plan.report with steps := report.steps, auxScripts := report.auxScripts } := by
  obtain ⟨staged, -, -, heq⟩ := carryOut_eq compiler settings plan world
  rw [heq, takeScripts] at h
  split at h <;> cases h
  rfl

/-- What a run has done that ends in a report. -/
theorem run_inv (h : run compiler settings world = .ok report world') :
    ∃ plan prepared ended, prepare settings world = .ok plan prepared
      ∧ carryOut compiler settings plan prepared = .ok report ended
      ∧ world'.files = ended.files ∧ world'.pending = ended.pending := by
  unfold run at h
  obtain ⟨plan, prepared, hprepare, hrest⟩ := bind_eq_ok.1 h
  obtain ⟨carried, ended, hcarry, hnote⟩ := bind_eq_ok.1 hrest
  obtain ⟨⟨⟩, noted, hnoted, hreturn⟩ := bind_eq_ok.1 hnote
  cases hreturn
  refine ⟨plan, prepared, ended, hprepare, hcarry, ?_⟩
  unfold noteEnd at hnoted
  split at hnoted <;> cases hnoted <;> exact ⟨rfl, rfl⟩

end Pipeline

end ModPackager
