import ModPackager.Proofs.AuxScript.Confined
import ModPackager.Proofs.Deploy.Layers

/-!
# Deployed scripts

Compiling happens beside the site, so what is laid below it stays (`Staging.compilable_laid`). A job that
succeeds lays its script over that, and whatever the compiler and the processes that it leaves behind do
before or after, the script stays (`deployOutput_laid`). By induction on the jobs, scripts that all succeed lie
one over the other, and their manifest over them (`transpile_laid`).
-/

namespace ModPackager

open FileSystem FileAction Deploy

variable {fs : FileSystem} {root : Path} {settings : Settings} {scratchName : String → Prop} {dir : Location}
  {name modPrefix : String} {job : Job} {world world' : World} {site : Site fs root} {layer : Layer}
  {compiler : Compiler}

/-! ### Layers of scripts -/

namespace Deploy.Layer

/-- Deployed scripts, later ones over earlier ones. -/
def ofScripts : List (String × ByteArray) → Layer
  | [] => empty
  | (name, contents) :: rest => (ofScripts rest).over (ofFile [scriptDir, name] contents)

/-- The manifest of deployed scripts, if there are any. -/
def ofScriptManifest (names : List String) : Layer :=
  if names.isEmpty then empty
  else ofFile [lovelyDir, AuxScript.manifestName] (Manifest.renderScripts names).toUTF8

theorem ofScriptManifest_nil : ofScriptManifest [] = empty := rfl

theorem ofScriptManifest_of_ne {names : List String} (h : names ≠ []) :
    ofScriptManifest names
      = ofFile [lovelyDir, AuxScript.manifestName] (Manifest.renderScripts names).toUTF8 :=
  if_neg fun hempty => h (List.isEmpty_iff.1 hempty)

end Deploy.Layer

/-! ### What is laid stays -/

/-- A layer lies below a site, and whatever is pending changes scratch places only. -/
abbrev LaidOut (site : Site fs root) (settings : Settings) (scratchName : String → Prop) (layer : Layer) :
    World → Prop :=
  Staged fs root settings scratchName (site.Laid (Scratch fs root settings scratchName) layer)

/-- What is laid below a site is kept by compiling. -/
theorem Staging.compilable_laid (staging : Staging fs root settings scratchName)
    (haccepted : settings.deployRoot fs = .ok root) (hroot : Followable root) (wf : fs.WellFormed)
    (hspares : site.Spares (Scratch fs root settings scratchName)) :
    Compilable fs root settings scratchName (site.Laid (Scratch fs root settings scratchName) layer) :=
  staging.compilable_beneath haccepted hroot wf hspares Site.Bears.prepared Site.Laid.beside

/-! ### Jobs -/

namespace AuxScript

section Jobs

variable (staging : Staging fs root settings scratchName) (haccepted : settings.deployRoot fs = .ok root)
  (hroot : Followable root) (wf : fs.WellFormed) (hspares : site.Spares (Scratch fs root settings scratchName))

include staging haccepted hroot wf hspares

/-- An output that is deployed is laid with the directories on the way to it. -/
theorem deployOutput_laid (hdir : fs.canonical? settings.auxDir = some dir) (hjob : IsJob settings root job name)
    {embedded : Bool}
    (h : LaidOut site settings scratchName layer world)
    (hrun : deployOutput modPrefix job embedded world = .ok () world') :
    ∃ contents, LaidOut site settings scratchName
      ((Layer.ofFile [scriptDir, scriptTarget name] contents).over layer) world' := by
  have hkept : ∀ {layer}, Compilable fs root settings scratchName
      (site.Laid (Scratch fs root settings scratchName) layer) :=
    staging.compilable_laid haccepted hroot wf hspares
  have hdeploy := extends_deployPath hroot.2.1 hjob
  have hinside := staysInside_deployPath hjob
  have hrest : ∀ {world}, LaidOut site settings scratchName layer world → (do
        JobAction.lift (createParent job.deployPath)
        onOutput job (copyFile job.output job.deployPath)
        JobAction.lift (removeFile job.output)) world = .ok () world' →
      ∃ contents, LaidOut site settings scratchName
        ((Layer.ofFile [scriptDir, scriptTarget name] contents).over layer) world' := by
    intro world h hrun
    obtain ⟨⟨⟩, parent, hparent, hcopied⟩ := bind_eq_ok.1 hrun
    obtain ⟨⟨⟩, copied, hcopy, hremove⟩ := bind_eq_ok.1 hcopied
    obtain ⟨hparent, hpending⟩ := JobAction.lift_inv hparent
    obtain ⟨hcopy, hpending'⟩ := onOutput_inv hcopy
    have hsupports := hspares.supports wf
    obtain ⟨hbearing, -⟩ := (Site.Bearing.createParent hsupports hdeploy hinside).ok h.files.bearing hparent
    obtain ⟨-, contents, -, -, hlaid⟩ := copyFile_laid hdeploy hinside hsupports (by simp) hbearing hcopy
    have hstaged : LaidOut site settings scratchName
        ((Layer.ofFile [scriptDir, scriptTarget name] contents).over layer) copied := by
      refine ⟨hlaid, ?_⟩
      rw [hpending', hpending]
      exact h.pending
    exact ⟨contents, ((JobAction.lift_maintains (removeOutput_maintains hkept hdir hjob)).ok hstaged hremove).1⟩
  unfold deployOutput at hrun
  split at hrun
  · obtain ⟨body, read, hread, hembed⟩ := bind_eq_ok.1 hrun
    obtain ⟨⟨⟩, embedded, hwrite, htail⟩ := bind_eq_ok.1 hembed
    obtain ⟨h, -⟩ := (onOutput_maintains readText_maintains job).ok h hread
    obtain ⟨h, -⟩ := (JobAction.lift_maintains (writeOutput_maintains hkept hdir hjob _)).ok h hwrite
    exact hrest h htail
  · exact hrest h hrun

variable (hcompiler : StagedCompiler fs root settings scratchName compiler)

include hcompiler

/-- A job that succeeds lays its script over what was there before. -/
theorem runJob_laid {run : JobRun} (hdir : fs.canonical? settings.auxDir = some dir)
    (hjob : IsJob settings root job name) (h : LaidOut site settings scratchName layer world)
    (hrun : runJob compiler settings modPrefix job world = .ok run world')
    (hsucceeds : ∀ reason, run.step.outcome ≠ .failed reason) :
    ∃ contents, run.deployed? = some (scriptTarget name) ∧ LaidOut site settings scratchName
      ((Layer.ofFile [scriptDir, scriptTarget name] contents).over layer) world' := by
  have hkept : Compilable fs root settings scratchName
      (site.Laid (Scratch fs root settings scratchName) layer) :=
    staging.compilable_laid haccepted hroot wf hspares
  obtain ⟨deadline, deployed, ended, -, hattempt, rfl, hfiles, hpending⟩ := runJob_inv hrun hsucceeds
  obtain ⟨rfl, auxDir, embedded, prepared, invoked, awaited, hprepare, hinvoke, hawait, hdeploy⟩ :=
    attempt_inv hattempt
  obtain ⟨rfl, -, -⟩ := prepare_inv hprepare
  obtain ⟨h, -⟩ := (invoke_keeps hkept.reachable hkept.closed hcompiler auxDir deadline).ok h hinvoke
  obtain ⟨h, -⟩ := (awaitOutput_keeps hkept.reachable hkept.closed _ _ _ _).ok h hawait
  obtain ⟨contents, h⟩ := deployOutput_laid staging haccepted hroot wf hspares hdir hjob h hdeploy
  refine ⟨contents, ?_, ⟨hfiles ▸ h.files, hpending ▸ h.pending⟩⟩
  rw [hjob.eq]
  rfl

/-- Jobs that all succeed lay their scripts one over the other. -/
theorem mapM_laid {jobs : List Job} {runs : List JobRun}
    (hjobs : ∀ job ∈ jobs, ∃ name dir, fs.canonical? settings.auxDir = some dir ∧ IsJob settings root job name)
    (h : LaidOut site settings scratchName layer world)
    (hrun : jobs.mapM (runJob compiler settings modPrefix) world = .ok runs world')
    (hsucceeds : ∀ run ∈ runs, ∀ reason, run.step.outcome ≠ .failed reason) :
    ∃ scripts, scripts.map (·.1) = runs.filterMap (·.deployed?)
      ∧ LaidOut site settings scratchName ((Layer.ofScripts scripts).over layer) world' := by
  induction jobs generalizing world layer runs with
  | nil =>
      cases hrun
      exact ⟨[], rfl, by rwa [Layer.ofScripts, Layer.empty_over]⟩
  | cons job rest ih =>
      rw [List.mapM_cons] at hrun
      obtain ⟨run, between, hfirst, hrest⟩ := bind_eq_ok.1 hrun
      obtain ⟨runs', ended, hruns, hend⟩ := bind_eq_ok.1 hrest
      cases hend
      obtain ⟨name, dir, hdir, hjob⟩ := hjobs job List.mem_cons_self
      obtain ⟨contents, hname, hbetween⟩ := runJob_laid staging haccepted hroot wf hspares hcompiler hdir hjob h
        hfirst (hsucceeds run List.mem_cons_self)
      obtain ⟨scripts, hscripts, hlaid⟩ := ih (fun other hother => hjobs other (List.mem_cons_of_mem _ hother))
        hbetween hruns fun other hother => hsucceeds other (List.mem_cons_of_mem _ hother)
      refine ⟨(scriptTarget name, contents) :: scripts, ?_, ?_⟩
      · rw [List.map_cons, hscripts, List.filterMap_cons_some hname]
      · rwa [Layer.ofScripts, Layer.over_assoc]

theorem runJobs_laid {jobs : List Job} {runs : List JobRun}
    (hjobs : ∀ job ∈ jobs, ∃ name dir, fs.canonical? settings.auxDir = some dir ∧ IsJob settings root job name)
    (h : LaidOut site settings scratchName layer world)
    (hrun : runJobs compiler settings modPrefix jobs world = .ok runs world')
    (hsucceeds : ∀ run ∈ runs, ∀ reason, run.step.outcome ≠ .failed reason) :
    ∃ scripts, scripts.map (·.1) = runs.filterMap (·.deployed?)
      ∧ LaidOut site settings scratchName ((Layer.ofScripts scripts).over layer) world' := by
  obtain ⟨runs', ended, hruns, hrest⟩ := bind_eq_ok.1 hrun
  obtain ⟨⟨⟩, cleaned, hcleaned, hend⟩ := bind_eq_ok.1 hrest
  cases hcleaned
  cases hend
  obtain ⟨scripts, hnames, hlaid⟩ := mapM_laid staging haccepted hroot wf hspares hcompiler hjobs h hruns hsucceeds
  refine ⟨scripts, hnames, removeLeftovers_keeps (fun job hmem => ?_) hlaid⟩
  obtain ⟨name, dir, hdir, hjob⟩ := hjobs job hmem
  exact removeOutput_maintains (staging.compilable_laid haccepted hroot wf hspares) hdir hjob

/-- Scripts that are all deployed lie one over the other, and their manifest over them. -/
theorem transpile_laid {summary : Summary} (h : LaidOut site settings scratchName layer world)
    (hrun : transpile compiler settings root modPrefix world = .ok summary world')
    (hsucceeds : ∀ name reason, ⟨name, .failed reason⟩ ∉ summary.steps) :
    ∃ scripts, scripts.map (·.1) = summary.deployed ∧ LaidOut site settings scratchName
      ((Layer.ofScriptManifest summary.deployed).over ((Layer.ofScripts scripts).over layer)) world' := by
  rcases transpile_inv hrun with
    ⟨fault, -, rfl, -⟩ | ⟨jobs, noted, ended, hjobs, hfiles, hpending, hran, hlisted, hmanifest⟩
  · exact absurd (by simp [Summary.steps]) (hsucceeds "aux" (Error.io fault).message)
  · have wfNow := h.files.prepared.changes.wellFormed wf
    have hnoted : LaidOut site settings scratchName layer noted := ⟨hfiles ▸ h.files, hpending ▸ h.pending⟩
    have hisJob : ∀ job ∈ jobs, ∃ name dir, fs.canonical? settings.auxDir = some dir
        ∧ IsJob settings root job name := by
      intro job hmem
      obtain ⟨haux, name, dir, hdir, hjob⟩ := isJob_of_discoverJobs wfNow hjobs hmem
      refine ⟨name, dir, ?_, hjob⟩
      have hreach := (staging.compilable haccepted hroot wf (site.confines hspares wf hroot.2.1)).reachable
        h.files.prepared
      exact staging.canonical?_aux hreach haux ▸ hdir
    have hsteps : summary.steps
        = summary.runs.map (·.step) ++ (summary.manifest.map (StepReport.mk manifestName)).toList := by
      simp [Summary.steps, hlisted]
    rw [hsteps] at hsucceeds
    obtain ⟨scripts, hnames, hlaid⟩ := runJobs_laid staging haccepted hroot wf hspares hcompiler hisJob hnoted hran
      fun run hrun reason hfailed => hsucceeds run.step.name reason
        (List.mem_append_left _ (List.mem_map.2 ⟨run, hrun, by rw [← hfailed]⟩))
    refine ⟨scripts, hnames, ?_⟩
    rcases hmanifest with ⟨hempty, -, rfl⟩ | ⟨hdeployed, outcome, after, hwritten, hmanifest, rfl⟩
    · rwa [hempty, Layer.ofScriptManifest_nil, Layer.empty_over]
    · have hunfailed : ∀ reason, outcome ≠ .failed reason := by
        rintro reason rfl
        refine hsucceeds manifestName reason (List.mem_append_right _ ?_)
        rw [hmanifest]
        exact List.mem_singleton.2 rfl
      rw [World.onFiles_eq, Prod.mk.injEq] at hwritten
      obtain ⟨rfl, rfl⟩ := hwritten
      have hname := validName_manifestName
      have hwrite := writeFile_laid hspares wf (extends_manifest hroot.2.1 hname) (staysInside_manifest hname)
        (by simp) hlaid.files hunfailed
      rw [Layer.ofScriptManifest_of_ne hdeployed]
      exact noteStep_confined _ _ _ _ ⟨hwrite, hlaid.pending⟩

end Jobs

end AuxScript

end ModPackager
