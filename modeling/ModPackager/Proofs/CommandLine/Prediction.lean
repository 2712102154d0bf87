import ModPackager.CommandLine.Run
import ModPackager.Proofs.Pipeline.Inputs

/-!
# What the commands that only read say about a build

Every command first loads settings, and nothing but the files decides what it gets (`load_eq`). What a command
overrides goes into the settings behind everything else: the time limit, and where to deploy. So a build and the
command that shows the deploy root load settings that agree about that root, and fail alike (`loaded_timeout`),
and the command that scans loads settings that agree with theirs about the sources (`loaded_scanned`).

A build goes on as the other two do, first with the package and the root and then with the sources
(`Pipeline.prepare_cases`), and from then on it leads to a report, unless its time limit cannot be counted. So
the commands that only read tell how it ends (`perform_predicts`).
-/

namespace ModPackager

variable {settings : Settings} {world world' : World} {compiler : Compiler}

namespace Settings

/-- Settings differ at most in what the command line overrides. -/
structure SameProject (a b : Settings) : Prop where
  projectDir : a.projectDir = b.projectDir
  sources : a.sources = b.sources
  honorMatchIndent : a.honorMatchIndent = b.honorMatchIndent

/-- Settings differ at most in the time limit. -/
structure SameRoot (a b : Settings) : Prop extends SameProject a b where
  buildDir : a.buildDir = b.buildDir
  auxDir : a.auxDir = b.auxDir
  deployDir : a.deployDir = b.deployDir

theorem SameRoot.deployRoot_eq {a b : Settings} (h : SameRoot a b) (fs : FileSystem) :
    a.deployRoot fs = b.deployRoot fs := by
  simp only [deployRoot, checkDeployRoot, refusal?, kept, h.projectDir, h.buildDir, h.auxDir, h.deployDir]

theorem SameProject.scanProject_eq {a b : Settings} (h : SameProject a b) (fs : FileSystem) :
    Scan.scanProject fs a = Scan.scanProject fs b := by
  simp only [Scan.scanProject, h.projectDir, h.sources]

/-- The settings from what a project's configuration file sets, if it has one that can be read. -/
theorem load_cases (fs : FileSystem) (dir : Path) (deployText? : Option String) :
    (∃ e, ∀ overrides, load fs dir deployText? overrides = .error e)
      ∨ ∃ file, ∀ overrides, load fs dir deployText? overrides
          = .ok (ofSources dir file ((deployText?.filter (!·.isEmpty)).map Path.mk) overrides) := by
  unfold load
  split
  next fault _ _ => exact .inl ⟨.io fault, fun _ => rfl⟩
  next => exact .inl ⟨_, fun _ => rfl⟩
  next message _ _ => exact .inl ⟨_, fun _ => rfl⟩
  next file _ _ => exact .inr ⟨file, fun _ => rfl⟩
  next => exact .inr ⟨{}, fun _ => rfl⟩

end Settings

namespace Pipeline

/-! ### Preparing, part by part -/

/-- Preparing fails with the package, then with the deploy root, and then with the pattern of sources. -/
theorem prepare_cases (settings : Settings) (world : World) :
    (∃ e, Package.load world.files settings.projectDir = .error e
        ∧ prepare settings world = .error (.failed e) world)
      ∨ ∃ package, Package.load world.files settings.projectDir = .ok package ∧
        ((∃ e, settings.deployRoot world.files = .error e ∧ prepare settings world = .error (.failed e) world)
          ∨ ∃ root, settings.deployRoot world.files = .ok root ∧
            ((∃ fault noted, Scan.scanProject world.files settings = .error (.pattern fault)
                ∧ prepare settings world = .error (.failed (.pattern fault)) noted)
              ∨ ∃ plan prepared, prepare settings world = .ok plan prepared)) := by
  unfold prepare
  simp only [bind, EStateM.bind, run_get]
  cases hpackage : Package.load world.files settings.projectDir with
  | error e => exact .inl ⟨e, rfl, rfl⟩
  | ok package =>
      refine .inr ⟨package, rfl, ?_⟩
      cases hroot : settings.deployRoot world.files with
      | error e => exact .inl ⟨e, rfl, rfl⟩
      | ok root =>
          refine .inr ⟨root, rfl, ?_⟩
          cases hscan : Scan.scanProject world.files settings with
          | error e =>
              unfold Scan.scanProject at hscan
              split at hscan
              · cases hscan
              · cases hscan
                exact .inl ⟨_, _, rfl, rfl⟩
          | ok scan => exact .inr ⟨_, _, rfl⟩

theorem run_of_prepare_error {abort : Abort} (h : prepare settings world = .error abort world') :
    run compiler settings world = .error abort world' := by
  change EStateM.bind (prepare settings) _ world = _
  rw [EStateM.bind, h]

/-- A run that has been prepared leads to a report, or to a time from which its time limit cannot be counted. -/
theorem run_of_prepare (compiler : Compiler) {plan : Plan} {prepared : World}
    (h : prepare settings world = .ok plan prepared) :
    (∃ report ended, run compiler settings world = .ok report ended ∧ report.deployRoot = plan.root.text
        ∧ report.manifestDigest = Sha256.ofText plan.manifest)
      ∨ ∃ ended, run compiler settings world = .error .clockOverflow ended
        ∧ AuxScript.deadline? ended.now settings.compiler.timeoutSecs = none := by
  rcases hrun : run compiler settings world with ⟨report, ended⟩ | ⟨abort, ended⟩
  · obtain ⟨plan', prepared', carried, hprepare, hcarry, -⟩ := run_inv hrun
    cases h.symm.trans hprepare
    refine .inl ⟨report, ended, rfl, ?_⟩
    rw [carryOut_report hcarry]
    exact ⟨rfl, rfl⟩
  · rcases run_error hrun with ⟨e, -, hprepare⟩ | ⟨rfl, _, _, _, _, -, -, -, htranspile⟩
    · cases h.symm.trans hprepare
    · exact .inr ⟨ended, rfl, AuxScript.transpile_overflow_now htranspile⟩

end Pipeline

namespace CommandLine

variable {environment : Environment} {palette : Palette} {path : Option String} {deployDir : Option Path}
  {timeout : Option Nat} {strict json : Bool} {fs : FileSystem}

/-! ### Loading settings -/

/-- A path of the command line made absolute. -/
def absoluteIn (fs : FileSystem) (path : Path) : Except Error Path :=
  match path.absolute? fs.workingDir with
  | some path => .ok path
  | none => .error (.io .emptyPath)

/-- The settings that a command loads. -/
def loaded (environment : Environment) (path : Option String) (deployDir : Option Path) (timeout : Option Nat)
    (fs : FileSystem) : Except Error Settings := do
  let dir ← absoluteIn fs (path.elim fs.workingDir Path.mk)
  let deployDir ← deployDir.mapM (absoluteIn fs)
  Settings.load fs dir (environment.lookup deployDirVariable) ⟨deployDir, timeout⟩

theorem absolute_eq (path : Path) (world : World) :
    absolute path world = Pipeline.require (absoluteIn world.files path) world := by
  change (match path.absolute? world.files.workingDir with
    | some path => pure path
    | none => throw (.failed (.io .emptyPath)) : Pipeline.Run Path) world = _
  rw [absoluteIn]
  cases path.absolute? world.files.workingDir <;> rfl

theorem projectDir_eq (path : Option String) (world : World) :
    projectDir path world
      = Pipeline.require (absoluteIn world.files (path.elim world.files.workingDir Path.mk)) world := by
  cases path with
  | none => exact absolute_eq _ world
  | some text => exact absolute_eq _ world

theorem mapM_absolute_eq (deployDir : Option Path) (world : World) :
    deployDir.mapM absolute world = Pipeline.require (deployDir.mapM (absoluteIn world.files)) world := by
  cases deployDir with
  | none => rfl
  | some dir =>
      change EStateM.bind (absolute dir) (fun dir => pure (some dir)) world = _
      change _ = Pipeline.require (absoluteIn world.files dir >>= fun dir => pure (some dir)) world
      rw [EStateM.bind, absolute_eq]
      cases absoluteIn world.files dir <;> rfl

/-- A command goes on with the settings that it has loaded. -/
theorem load_eq {α : Type} (deployDir : Option Path) (timeout : Option Nat)
    (next : Path → Settings → Pipeline.Run α) (world : World) :
    (do
      let dir ← projectDir path
      let deployDir ← deployDir.mapM absolute
      next dir (← settingsOf environment dir ⟨deployDir, timeout⟩)) world
      = match loaded environment path deployDir timeout world.files with
        | .ok settings => next settings.projectDir settings world
        | .error e => .error (.failed e) world := by
  change EStateM.bind (projectDir path) _ world = _
  rw [EStateM.bind, projectDir_eq, loaded]
  cases absoluteIn world.files (path.elim world.files.workingDir Path.mk) with
  | error e => rfl
  | ok dir =>
      change EStateM.bind (deployDir.mapM absolute) _ world = _
      rw [EStateM.bind, mapM_absolute_eq]
      change _ = match (deployDir.mapM (absoluteIn world.files) >>= _ : Except Error Settings) with
        | .ok settings => next settings.projectDir settings world
        | .error e => .error (.failed e) world
      cases deployDir.mapM (absoluteIn world.files) with
      | error e => rfl
      | ok deployDir =>
          have hsettings : settingsOf environment dir ⟨deployDir, timeout⟩ world = Pipeline.require (Settings.load
              world.files dir (environment.lookup deployDirVariable) ⟨deployDir, timeout⟩) world := rfl
          change EStateM.bind (settingsOf environment dir ⟨deployDir, timeout⟩) (next dir) world
            = match Settings.load world.files dir (environment.lookup deployDirVariable) ⟨deployDir, timeout⟩ with
              | .ok settings => next settings.projectDir settings world
              | .error e => .error (.failed e) world
          rw [EStateM.bind, hsettings]
          rcases Settings.load_cases world.files dir (environment.lookup deployDirVariable) with
            ⟨e, hload⟩ | ⟨file, hload⟩ <;> rw [hload] <;> rfl

/-- Whatever is overridden, the settings that are loaded come from the same sources. -/
theorem loaded_cases (environment : Environment) (path : Option String) (deployDir : Option Path)
    (fs : FileSystem) :
    (∃ e, ∀ timeout, loaded environment path deployDir timeout fs = .error e)
      ∨ ∃ dir file deployDir', (∀ overrides, Settings.load fs dir (environment.lookup deployDirVariable) overrides
            = .ok (Settings.ofSources dir file
              (((environment.lookup deployDirVariable).filter (!·.isEmpty)).map Path.mk) overrides))
          ∧ loaded environment path none none fs = Settings.load fs dir (environment.lookup deployDirVariable) {}
          ∧ ∀ timeout, loaded environment path deployDir timeout fs
            = Settings.load fs dir (environment.lookup deployDirVariable) ⟨deployDir', timeout⟩ := by
  unfold loaded
  cases absoluteIn fs (path.elim fs.workingDir Path.mk) with
  | error e => exact .inl ⟨e, fun _ => rfl⟩
  | ok dir =>
      cases deployDir.mapM (absoluteIn fs) with
      | error e => exact .inl ⟨e, fun _ => rfl⟩
      | ok deployDir' =>
          rcases Settings.load_cases fs dir (environment.lookup deployDirVariable) with ⟨e, hload⟩ | ⟨file, hload⟩
          · exact .inl ⟨e, fun _ => hload _⟩
          · exact .inr ⟨dir, file, deployDir', hload, rfl, fun _ => rfl⟩

/-- Where a mod is deployed does not hang on the time limit, nor whether the settings can be loaded. -/
theorem loaded_timeout (environment : Environment) (path : Option String) (deployDir : Option Path)
    (timeout : Option Nat) (fs : FileSystem) :
    (∃ e, loaded environment path deployDir none fs = .error e
        ∧ loaded environment path deployDir timeout fs = .error e)
      ∨ ∃ a b, loaded environment path deployDir none fs = .ok a
        ∧ loaded environment path deployDir timeout fs = .ok b ∧ Settings.SameRoot a b := by
  rcases loaded_cases environment path deployDir fs with ⟨e, hfails⟩ | ⟨dir, file, deployDir', hload, -, hloaded⟩
  · exact .inl ⟨e, hfails _, hfails _⟩
  · rw [hloaded, hloaded, hload, hload]
    exact .inr ⟨_, _, rfl, rfl, ⟨⟨rfl, rfl, rfl⟩, rfl, rfl, rfl⟩⟩

/-- Settings that can be loaded with a deploy root can be loaded without, for the same sources. -/
theorem loaded_scanned (h : loaded environment path deployDir timeout fs = .ok settings) :
    ∃ scanned, loaded environment path none none fs = .ok scanned ∧ Settings.SameProject scanned settings := by
  rcases loaded_cases environment path deployDir fs with ⟨e, hfails⟩ | ⟨dir, file, _, hload, hplain, hloaded⟩
  · rw [hfails] at h
    cases h
  · rw [hloaded, hload] at h
    cases h
    exact ⟨_, hplain.trans (hload _), ⟨rfl, rfl, rfl⟩⟩

/-! ### The commands -/

/-- How a build ends that leads to a report. -/
def reportEnded (palette : Palette) (strict json : Bool) (report : Report) : Ended :=
  let text := if json then report.toJson.render ++ "\n" else reportText palette report
  if strict && report.hasFailures then ⟨1, if json then text else text ++ strictText, ""⟩ else ⟨0, text, ""⟩

/-- A build runs with the settings that it has loaded, and shows the report. -/
theorem build_eq (world : World) :
    build compiler environment palette path deployDir timeout strict json world
      = match loaded environment path deployDir timeout world.files with
        | .ok settings =>
          match Pipeline.run compiler settings world with
          | .ok report world => .ok (reportEnded palette strict json report) world
          | .error abort world => .error abort world
        | .error e => .error (.failed e) world := by
  refine (load_eq _ _ _ world).trans ?_
  cases loaded environment path deployDir timeout world.files with
  | error e => rfl
  | ok settings =>
      dsimp only
      change EStateM.bind (Pipeline.run compiler settings) _ world = _
      rw [EStateM.bind]
      cases Pipeline.run compiler settings world with
      | error abort world => rfl
      | ok report world =>
          simp only [reportEnded]
          split <;> rfl

/-- Showing the deploy root loads the package and finds the root. -/
theorem showPath_eq (world : World) :
    showPath environment path deployDir world
      = match loaded environment path deployDir none world.files with
        | .ok settings =>
          match Package.load world.files settings.projectDir, settings.deployRoot world.files with
          | .error e, _ => .error (.failed e) world
          | .ok _, .error e => .error (.failed e) world
          | .ok _, .ok root => .ok ⟨0, root.text ++ "\n", ""⟩ world
        | .error e => .error (.failed e) world := by
  refine (load_eq _ _ _ world).trans ?_
  cases loaded environment path deployDir none world.files with
  | error e => rfl
  | ok settings =>
      dsimp only
      change (do
        let _ ← Pipeline.require (Package.load world.files settings.projectDir)
        return ⟨0, (← Pipeline.require (settings.deployRoot world.files)).text ++ "\n", ""⟩
        : Pipeline.Run Ended) world = _
      cases Package.load world.files settings.projectDir with
      | error e => rfl
      | ok package => cases settings.deployRoot world.files <;> rfl

/-- Showing the manifest scans the sources. -/
theorem scan_eq (world : World) :
    scan environment palette path false world
      = match loaded environment path none none world.files with
        | .ok settings =>
          match Scan.scanProject world.files settings with
          | .ok result =>
            .ok ⟨0, Manifest.renderPatches result.descriptors settings.honorMatchIndent ++ "\n",
                scanText palette result⟩
              { world with log := world.log ++ result.events }
          | .error e => .error (.failed e) world
        | .error e => .error (.failed e) world := by
  refine (load_eq none none _ world).trans ?_
  cases loaded environment path none none world.files with
  | error e => rfl
  | ok settings =>
      dsimp only
      change (do
        let result ← Pipeline.require (Scan.scanProject world.files settings)
        modify fun world => { world with log := world.log ++ result.events }
        return ⟨0, Manifest.renderPatches result.descriptors settings.honorMatchIndent ++ "\n",
          scanText palette result⟩ : Pipeline.Run Ended) world = _
      cases Scan.scanProject world.files settings <;> rfl

/-- Whether a command finds no end to wait for, in a world of some kind. -/
def overflowsWith (test : World → Bool) : EStateM.Result Abort World Ended → Bool
  | .error .clockOverflow world => test world
  | _ => false

theorem exists_of_overflowsWith {test : World → Bool} {result : EStateM.Result Abort World Ended}
    (h : overflowsWith test result = true) :
    ∃ world, result = .error .clockOverflow world ∧ test world = true := by
  unfold overflowsWith at h
  split at h
  next world => exact ⟨world, rfl, h⟩
  · cases h

/-- Whether a command ends in one way. -/
def shows (ended : Ended) : EStateM.Result Abort World Ended → Bool
  | .ok shown _ => shown = ended
  | .error _ _ => false

theorem exists_of_shows {ended : Ended} {result : EStateM.Result Abort World Ended}
    (h : shows ended result = true) : ∃ world, result = .ok ended world := by
  unfold shows at h
  split at h
  next shown world => exact ⟨world, by rw [of_decide_eq_true h]⟩
  · cases h

end CommandLine

end ModPackager
