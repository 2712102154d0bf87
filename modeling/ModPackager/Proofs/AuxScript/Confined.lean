import ModPackager.Proofs.AuxScript.Jobs
import ModPackager.Proofs.AuxScript.Staging

/-!
# Running jobs beside a deploy root

A confined compiler on all scripts keeps each invariant that confines the deployment steps, and the processes
that it leaves behind stay confined: a job's own operations keep such an invariant as well (`IsJob.keeps`), so
compiling and deploying all scripts does (`transpile_staged`).
-/

namespace ModPackager

open FileSystem FileAction Deploy

variable {fs : FileSystem} {root : Path} {settings : Settings} {scratchName : String → Prop}
  {dir : Location} {name : String} {job : Job} {world : World} {inv : FileSystem → Prop}
  {fits : List String → Prop}

/-- Files that can be reached in a run. -/
abbrev Reach (fs : FileSystem) (root : Path) (settings : Settings) (scratchName : String → Prop) :
    FileSystem → Prop := Changes (Changeable fs root settings scratchName) fs

/-- The files satisfy an invariant, and whatever is pending changes scratch places only. -/
abbrev Staged (fs : FileSystem) (root : Path) (settings : Settings) (scratchName : String → Prop)
    (inv : FileSystem → Prop) : World → Prop :=
  World.Confined (Reach fs root settings scratchName) (Scratch fs root settings scratchName) inv

/-- A compiler that changes scratch places only. -/
abbrev StagedCompiler (fs : FileSystem) (root : Path) (settings : Settings) (scratchName : String → Prop) :
    Compiler → Prop :=
  Compiler.Confined (Reach fs root settings scratchName) (Scratch fs root settings scratchName)

namespace AuxScript

/-! ### Paths below the root -/

theorem extends_deployPath (htext : root.text ≠ "") (hjob : IsJob settings root job name) :
    Extends root job.deployPath [scriptDir, scriptTarget name] := by
  obtain ⟨hempty, -, -, hslash⟩ := scriptTarget_plain hjob.valid
  have hscripts : Extends root (root.child scriptDir) [scriptDir] :=
    (extends_refl htext).child (by decide) (by decide)
  rw [hjob.deployPath_eq]
  exact hscripts.child hempty hslash

theorem staysInside_deployPath (hjob : IsJob settings root job name) :
    staysInside 0 [scriptDir, scriptTarget name] = true := by
  obtain ⟨-, hdot, hup, -⟩ := scriptTarget_plain hjob.valid
  refine staysInside_of_plain fun other hother => ?_
  simp only [List.mem_cons, List.not_mem_nil, or_false] at hother
  rcases hother with rfl | rfl
  · decide
  · exact ⟨hdot, hup⟩

/-- The path of a file in the directory of manifests. -/
theorem extends_manifest (htext : root.text ≠ "") (hname : ValidName name) :
    Extends root ((root.child lovelyDir).child name) [lovelyDir, name] :=
  ((extends_refl htext).validChild validName_lovelyDir).validChild hname

theorem staysInside_manifest (hname : ValidName name) : staysInside 0 [lovelyDir, name] = true :=
  staysInside_of_plain (ValidName.plain (by simpa using ⟨validName_lovelyDir, hname⟩))

/-! ### Jobs beside a root -/

/-- The names of scripts and of their manifest fit. -/
structure FitsScripts (fits : List String → Prop) : Prop where
  script : ∀ name, ValidName name → isScriptName name = true → fits [scriptDir, scriptTarget name]
  manifest : fits [lovelyDir, manifestName]

theorem FitsScripts.of_true : FitsScripts fun _ => True := ⟨fun _ _ _ => trivial, trivial⟩

section Jobs

variable {compiler : Compiler} (deployable : Deployable root fits inv) (hfits : FitsScripts fits)
  (compilable : Compilable fs root settings scratchName inv)
  (hcompiler : StagedCompiler fs root settings scratchName compiler)

section Outputs

variable (hdir : fs.canonical? settings.auxDir = some dir) (hjob : IsJob settings root job name)

include compilable hdir hjob

theorem writeOutput_maintains (contents : String) :
    Maintains inv (writeText job.output contents) fun _ => True := by
  refine writeBytes_maintains fun h hwrites => ?_
  rw [hjob.output_eq] at hwrites
  exact compilable.write h hdir hjob.valid hjob.script hwrites

theorem removeOutput_maintains : Maintains inv (removeFile job.output) fun _ => True := by
  refine removeFile_maintains ?_
  intro now location entry h hresolve hleaf
  rw [hjob.output_eq] at hresolve
  exact compilable.erase h hdir hjob.valid hjob.script hresolve hleaf

include deployable hfits

/-- A job beside a root keeps what confines the deployment steps. -/
theorem keeps_of_isJob :
    Keeps (Reach fs root settings scratchName) (Scratch fs root settings scratchName) job inv where
  reachable := compilable.reachable
  closed := compilable.closed
  embed := writeOutput_maintains compilable hdir hjob
  remove := removeOutput_maintains compilable hdir hjob
  parent := deployable.createParent (extends_deployPath deployable.text_ne hjob) (staysInside_deployPath hjob)
    (by simp)
  copy := deployable.copyFile (extends_deployPath deployable.text_ne hjob) (staysInside_deployPath hjob) (by simp)
    (hfits.script name hjob.valid hjob.script) _

end Outputs

include deployable

/-- Writing a manifest as a step of a run. -/
theorem writeManifest_staged (hname : ValidName name) (hfit : fits [lovelyDir, name]) (contents : String)
    (h : Staged fs root settings scratchName inv world) :
    Staged fs root settings scratchName inv
      (world.onFiles (Deploy.writeFile ((root.child lovelyDir).child name) contents)).2 :=
  h.onFiles (deployable.writeFile (extends_manifest deployable.text_ne hname) (staysInside_manifest hname)
    (by simp) hfit contents h.files)

include hfits compilable hcompiler

/-- Compiling and deploying the scripts keeps an invariant that confines the deployment steps. -/
theorem transpile_staged (staging : Staging fs root settings scratchName) (modPrefix : String) :
    Maintains (Staged fs root settings scratchName inv) (transpile compiler settings root modPrefix)
      fun _ => True := by
  intro world hworld
  obtain ⟨noted, hfiles, hpending, ⟨fault, -, heq⟩ | ⟨jobs, hjobs, heq⟩⟩ :=
    transpile_cases compiler settings root modPrefix world
  all_goals
    have hnoted : Staged fs root settings scratchName inv noted :=
      ⟨hfiles ▸ hworld.files, hpending ▸ hworld.pending⟩
    rw [heq]
  · exact ⟨hnoted, trivial⟩
  · have hkeeps : ∀ job ∈ jobs, Keeps (Reach fs root settings scratchName)
        (Scratch fs root settings scratchName) job inv := by
      intro job hmem
      obtain ⟨haux, name, dir, hdir, hjob⟩ :=
        isJob_of_discoverJobs (deployable.wellFormed hworld.files) hjobs hmem
      have hsame := staging.canonical?_aux (compilable.reachable hworld.files) haux
      exact keeps_of_isJob deployable hfits compilable (hsame ▸ hdir) hjob
    have hrest : Maintains (Staged fs root settings scratchName inv)
        (runAndList compiler settings root modPrefix jobs) fun _ => True := by
      refine (runJobs_keeps hcompiler hkeeps modPrefix).bind fun runs _ => ?_
      split
      · exact .pure trivial
      · refine Maintains.get.bind fun seen hseen => ?_
        have hwritten := writeManifest_staged deployable validName_manifestName hfits.manifest
          (Manifest.renderScripts (Summary.deployed { runs })) hseen
        exact (Maintains.set (noteStep_confined _ _ _ _ hwritten)).bind fun _ _ => .pure trivial
    exact hrest noted hnoted

end Jobs

end AuxScript

end ModPackager
