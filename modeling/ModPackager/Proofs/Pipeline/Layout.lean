import ModPackager.Proofs.AuxScript.Deployed
import ModPackager.Proofs.Deploy.Copy
import ModPackager.Proofs.Pipeline.Inputs

/-!
# What a run lays out

A run without failures leaves one tree below its deploy root, whatever was there before (`run_lays_out`).
The tree is the `layout` of the mod: the directories of the skeleton, the manifest of patches, the metadata
document, the build tree, the scripts and their manifest, later ones over earlier ones.

Each stage puts its layer over those of the stages before it (`laterStages_laid`), from an empty site on. The
root must be direct for that: behind a missing directory a parent leads elsewhere once the directory is made,
so a run may clear nothing and still deploy (`run_keeps_stale`).
-/

namespace ModPackager

open FileSystem Deploy

namespace Pipeline

variable {fs now : FileSystem} {settings : Settings} {plan : Plan} {world world' : World} {report : Report}
  {compiler : Compiler} {root : Path} {scratchName : String → Prop} {extra : Location → Prop}
  {site : Site fs root} {metadata : Metadata} {scan : Scan.Result} {scripts : List (String × ByteArray)}

/-! ### The layout -/

/-- What is laid out before the scripts are compiled. -/
def baseLayout (settings : Settings) (fs : FileSystem) (metadata : Metadata) (scan : Scan.Result) : Layer :=
  (Layer.ofTree fs settings.buildDir).over <|
  (Layer.ofFile (namesOf metadata.fileName) metadata.render.toUTF8).over <|
  (Layer.ofFile [lovelyDir, patchesName]
    (Manifest.renderPatches scan.descriptors settings.honorMatchIndent).toUTF8).over <|
  (Layer.ofDirectories [sourceDir]).over (Layer.ofDirectories [lovelyDir])

/-- What a run lays out below its deploy root: the build tree is that of the files before the run. -/
def layout (settings : Settings) (fs : FileSystem) (metadata : Metadata) (scan : Scan.Result)
    (scripts : List (String × ByteArray)) : Layer :=
  (Layer.ofScriptManifest (scripts.map (·.1))).over <|
  (Layer.ofScripts scripts).over (baseLayout settings fs metadata scan)

/-- Every layout has the directory of manifests. -/
theorem layout_lovelyDir : ∃ entry, layout settings fs metadata scan scripts [lovelyDir] = some entry := by
  have hbottom : Layer.ofDirectories [lovelyDir] [lovelyDir] = some .directory := by decide
  rw [← Option.isSome_iff_exists]
  simp [layout, baseLayout, Layer.over_apply, hbottom]

/-! ### Stages that succeed -/

/-- Stages that all succeed are a stage that succeeds, and others. -/
theorem runStages_cons_succeeds {first : String} {step : Step} {rest : List (String × Step)}
    (h : ∀ name reason, ⟨name, .failed reason⟩ ∉ (runStages ((first, step) :: rest) fs).1) :
    (∀ reason, (step fs).1 ≠ .failed reason)
      ∧ ∀ name reason, ⟨name, .failed reason⟩ ∉ (runStages rest (step fs).2).1 := by
  constructor
  · intro reason hfailed
    exact h first reason (by rw [runStages, hfailed]; exact List.mem_cons_self)
  · exact fun other reason hmem => h other reason (List.mem_cons_of_mem _ hmem)

/-- The stages behind clearing lay out the mod but for its scripts. -/
theorem laterStages_laid (hspares : site.Spares extra) (wf : fs.WellFormed) (htext : root.text ≠ "")
    (hroot : plan.root = root) (hmetadata : plan.metadata.StaysBelow)
    (hmanifest : plan.manifest = Manifest.renderPatches plan.scan.descriptors settings.honorMatchIndent)
    (hapart : Apart fs settings.buildDir fun place => site.Affects place ∨ extra place)
    (h : site.Laid extra Layer.empty now)
    (hsucceeds : ∀ name reason, ⟨name, .failed reason⟩ ∉ (runStages (plan.laterStages settings) now).1) :
    site.Laid extra (baseLayout settings fs plan.metadata plan.scan)
      (runStages (plan.laterStages settings) now).2 := by
  subst hroot
  unfold Plan.laterStages at hsucceeds ⊢
  have hpatches : Extends plan.root plan.patchesPath [lovelyDir, patchesName] :=
    AuxScript.extends_manifest htext validName_patchesName
  have hdocument : Extends plan.root plan.metadataPath (namesOf plan.metadata.fileName) :=
    Metadata.extends_fileName htext hmetadata
  obtain ⟨hskeleton, hrest⟩ := runStages_cons_succeeds hsucceeds
  obtain ⟨hpatched, hrest⟩ := runStages_cons_succeeds hrest
  obtain ⟨hdescribed, hrest⟩ := runStages_cons_succeeds hrest
  obtain ⟨hcopied, -⟩ := runStages_cons_succeeds hrest
  rw [copyStage_eq] at hcopied
  have hlaid := createSkeleton_laid hspares wf htext h hskeleton
  replace hlaid := writeFile_laid hspares wf hpatches (AuxScript.staysInside_manifest validName_patchesName)
    (by simp) hlaid hpatched
  replace hlaid := writeFile_laid hspares wf hdocument hmetadata.2 plan.metadata.namesOf_fileName_ne_nil hlaid
    hdescribed
  replace hlaid := copyTree_laid (hspares.supports wf) (keepsTree_of_apart hapart) htext hlaid hcopied
  rw [runStages_cons_snd, runStages_cons_snd, runStages_cons_snd, runStages_cons_snd, runStages_nil_snd,
    copyStage_eq, baseLayout, ← hmanifest]
  rwa [Layer.over_empty] at hlaid

/-! ### The run -/

/-- A root whose directories could be made has a site. -/
theorem exists_site (direct : Direct fs root) (wf : fs.WellFormed)
    (hskeleton : ∀ reason, (createSkeleton root (clearDirectory root fs).2).1 ≠ .failed reason) :
    Nonempty (Site fs root) := by
  refine (site_or_blocked wf direct.parents).resolve_right ?_
  rintro ⟨front, hblocked⟩
  rw [clearDirectory_of_not_directory hblocked.not_holdsDirectory] at hskeleton
  obtain ⟨⟨⟩, made, hmade, -⟩ := bind_eq_ok.1 (toStep_inv hskeleton)
  exact hblocked.createDirectories_fails
    ((extends_refl direct.followable.2.1).validChild validName_lovelyDir) (by simp) hmade

/-- A run without failures leaves the layout of the mod below its deploy root, and nothing else. -/
theorem run_lays_out (hrun : run compiler settings world = .ok report world')
    (hroot : settings.deployRoot world.files = .ok root)
    (orderly : Orderly compiler settings scratchName world root)
    (hbuild : Apart world.files settings.buildDir (Affected world.files root))
    (hsucceeds : report.hasFailures = false) :
    ∃ dir package scan scripts, world'.files.canonical? root = some dir
      ∧ Package.load world.files settings.projectDir = .ok package
      ∧ Scan.scanProject world.files settings = .ok scan
      ∧ scripts.map (·.1) = report.auxScripts
      ∧ ∀ rel, rel ≠ [] → world'.files.entry? (dir ++ rel)
        = layout settings world.files (Metadata.ofPackage package) scan scripts rel := by
  obtain ⟨plan, prepared, ended, hprepare, hcarry, hfiles, -⟩ := run_inv hrun
  obtain ⟨hprepared, hpending, hplanRoot, ⟨package, hpackage, hmetadata⟩, hscan, hmanifest⟩ := prepare_inv hprepare
  obtain rfl : plan.root = root := Except.ok.inj (hplanRoot.symm.trans hroot)
  obtain ⟨staged, summary, hstaged, hstagedPending, htranspile, hsteps, hdeployed⟩ := carryOut_inv hcarry
  rw [hprepared] at hstaged hsteps
  have hunfailed : ∀ name reason, ⟨name, .failed reason⟩ ∉ report.steps :=
    fun _ _ => not_mem_steps_of_not_hasFailures hsucceeds
  rw [hsteps] at hunfailed
  have hstages : ∀ name reason, ⟨name, .failed reason⟩
      ∉ (runStages (("clear", clearDirectory plan.root) :: plan.laterStages settings) world.files).1 :=
    fun name reason hmem => hunfailed name reason (List.mem_append_left _ hmem)
  obtain ⟨hclear, hlater⟩ := runStages_cons_succeeds hstages
  have wf := orderly.wellFormed
  have htext := orderly.direct.followable.2.1
  obtain ⟨site⟩ := exists_site orderly.direct wf (runStages_cons_succeeds hlater).1
  have hspares := orderly.staging.aside.spares orderly.direct wf site
  -- Nothing but the deployment changes the files before the compiler runs.
  have hapart : Apart world.files settings.buildDir fun place => site.Affects place ∨ False :=
    fun names hnames place hplace hchanged =>
      hbuild names hnames place hplace (site.affected_iff.2 (hchanged.resolve_right id))
  have hcleared : site.Laid (fun _ => False) Layer.empty (clearDirectory plan.root world.files).2 :=
    clearDirectory_laid site orderly.direct.followable wf hclear
  have hbase := laterStages_laid (hspares.mono fun _ => False.elim) wf htext rfl
    (hmetadata ▸ orderly.metadata package hpackage) hmanifest hapart hcleared hlater
  have hready : LaidOut site settings scratchName
      (baseLayout settings world.files plan.metadata plan.scan) staged := by
    refine ⟨?_, ?_⟩
    · rw [hstaged]
      exact hbase.mono fun _ => False.elim
    · rw [hstagedPending, hpending]
      exact orderly.pending
  obtain ⟨scripts, hscripts, hlaid⟩ := AuxScript.transpile_laid orderly.staging hroot orderly.direct.followable wf
    hspares orderly.compiler hready htranspile fun name reason hmem =>
      hunfailed name reason (List.mem_append_right _ hmem)
  have hended : site.Laid (Scratch world.files plan.root settings scratchName)
      (layout settings world.files plan.metadata plan.scan scripts) world'.files := by
    rw [hfiles, layout, hscripts]
    exact hlaid.files
  obtain ⟨entry, hentry⟩ : ∃ entry, layout settings world.files plan.metadata plan.scan scripts [lovelyDir]
      = some entry := layout_lovelyDir
  have hdir : world'.files.entry? site.dir = some .directory :=
    (hended.prepared.changes.wellFormed wf).isDirectory_of_child ((hended.lays _ (by simp)).trans hentry)
  refine ⟨site.dir, package, plan.scan, scripts,
    hended.prepared.canonical?_root hspares orderly.direct.followable wf hdir, hpackage, hscan,
    hscripts.trans hdeployed.symm, ?_⟩
  rw [← hmetadata]
  exact hended.lays

/-! ### Runs of a small project -/

theorem scriptProject_apart :
    Apart scriptProject (hereSettings "deploy").buildDir (Affected scriptProject ⟨"./deploy"⟩) := by
  have hdir := leadsTo_of_canonical?
    (by decide +kernel : scriptProject.holdsDirectory (hereSettings "deploy").buildDir = true)
    (by decide +kernel : scriptProject.canonical? (hereSettings "deploy").buildDir = some ["w", "build"])
  have haffected : ∀ {place}, Affected scriptProject ⟨"./deploy"⟩ place →
      Beneath ["w", "deploy"] place ∨ place <+: ["w", "deploy"] ∧ scriptProject.entry? place = none :=
    scriptSite.affected_iff.1
  have hway : ∀ place ∈ scriptProject.way (hereSettings "deploy").buildDir,
      ¬ (Beneath ["w", "deploy"] place ∨ place <+: ["w", "deploy"] ∧ scriptProject.entry? place = none) := by
    decide +kernel
  refine apart_of_unlinked (by decide) hdir (fun place text _ => scriptProject_unlinked place text)
    (fun place hplace hchanged => hway place hplace (haffected hchanged)) fun place hbelow hchanged => ?_
  rcases haffected hchanged with hbeneath | ⟨habove, -⟩
  · have happart : ¬ ["w", "build"] <+: ["w", "deploy"] ∧ ¬ ["w", "deploy"] <+: ["w", "build"] := by decide
    exact (List.prefix_or_prefix_of_prefix hbelow hbeneath.1).elim happart.1 happart.2
  · exact absurd (hbelow.trans habove) (by decide)

theorem run_lays_out_scriptProject :
    ∃ report world dir package scan scripts,
      run fooCompiler (hereSettings "deploy") { files := scriptProject } = .ok report world
      ∧ world.files.canonical? ⟨"./deploy"⟩ = some dir
      ∧ Package.load scriptProject (hereSettings "deploy").projectDir = .ok package
      ∧ Scan.scanProject scriptProject (hereSettings "deploy") = .ok scan
      ∧ scripts.map (·.1) = report.auxScripts
      ∧ ∀ rel, rel ≠ [] → world.files.entry? (dir ++ rel)
        = layout (hereSettings "deploy") scriptProject (Metadata.ofPackage package) scan scripts rel := by
  obtain ⟨report, world, hrun, hsucceeds⟩ := scriptProject_succeeds
  have hroot : (hereSettings "deploy").deployRoot scriptProject = .ok ⟨"./deploy"⟩ := by decide +kernel
  obtain ⟨dir, package, scan, scripts, hlaid⟩ :=
    run_lays_out hrun hroot scriptProject_orderly scriptProject_apart hsucceeds
  exact ⟨report, world, dir, package, scan, scripts, hrun, hlaid⟩

/-- No layer holds the old file of the project. -/
theorem layout_old {package : Package} (hpackage : Package.load scriptProject ⟨"."⟩ = .ok package)
    (scan : Scan.Result) (scripts : List (String × ByteArray)) :
    layout (hereSettings "new/../deploy") scriptProject (Metadata.ofPackage package) scan scripts ["old.lua"]
      = none := by
  have hmetadata : ∀ package ∈ (Package.load scriptProject ⟨"."⟩).toOption,
      ["old.lua"] ∉ Layer.onWay (namesOf (Metadata.ofPackage package).fileName) := by decide +kernel
  have htree : Layer.ofTree scriptProject (hereSettings "new/../deploy").buildDir ["old.lua"] = none := by
    decide +kernel
  have hskeleton : Layer.ofDirectories [sourceDir] ["old.lua"] = none
      ∧ Layer.ofDirectories [lovelyDir] ["old.lua"] = none := by decide
  have hscripts : Layer.ofScripts scripts ["old.lua"] = none := by
    induction scripts with
    | nil => rfl
    | cons script rest ih =>
        rw [Layer.ofScripts, Layer.over_apply, ih, Option.none_or]
        refine Layer.ofFile_of_not_mem fun hmem => ?_
        have hstep : climbStep ["extra_lua"] script.1 ≠ ["old.lua"] := by
          unfold climbStep
          split
          · decide
          · split <;> simp
        have heq : ["old.lua"] = climbStep ["extra_lua"] script.1 := by
          simpa [Layer.onWay, scriptDir, climbStep_of_ne] using hmem
        exact hstep heq.symm
  have hlist : Layer.ofScriptManifest (scripts.map (·.1)) ["old.lua"] = none := by
    by_cases hnames : scripts.map (·.1) = []
    · rw [hnames]
      rfl
    · rw [Layer.ofScriptManifest_of_ne hnames]
      exact Layer.ofFile_of_not_mem (by decide)
  rw [hpackage] at hmetadata
  simp only [layout, baseLayout, Layer.over_apply, hlist, hscripts, htree, hskeleton.1, hskeleton.2,
    Layer.ofFile_of_not_mem (hmetadata package rfl), Option.none_or]
  rw [Layer.ofFile_of_not_mem (by decide), Option.none_or]

/-- A root with a parent behind a missing directory is accepted, and not cleared: what was there stays. -/
theorem run_keeps_stale :
    ∃ report world dir, run fooCompiler (hereSettings "new/../deploy") { files := scriptProject } = .ok report world
      ∧ report.hasFailures = false ∧ world.files.canonical? ⟨"./new/../deploy"⟩ = some dir
      ∧ ∀ package scan scripts, Package.load scriptProject ⟨"."⟩ = .ok package →
        world.files.entry? (dir ++ ["old.lua"])
          ≠ layout (hereSettings "new/../deploy") scriptProject (Metadata.ofPackage package) scan scripts
            ["old.lua"] := by
  have hends : endsWith (fun report world => !report.hasFailures
      && world.files.canonical? ⟨"./new/../deploy"⟩ == some ["w", "deploy"]
      && world.files.entry? ["w", "deploy", "old.lua"] == some (.file ByteArray.empty))
      (run fooCompiler (hereSettings "new/../deploy") { files := scriptProject }) = true := by decide +kernel
  obtain ⟨report, world, hrun, htest⟩ := exists_of_endsWith hends
  simp only [Bool.and_eq_true, Bool.not_eq_true', beq_iff_eq] at htest
  obtain ⟨⟨hsucceeds, hdir⟩, hold⟩ := htest
  refine ⟨report, world, ["w", "deploy"], hrun, hsucceeds, hdir, fun package scan scripts hpackage => ?_⟩
  rw [layout_old hpackage]
  simp [hold]

end Pipeline

end ModPackager
