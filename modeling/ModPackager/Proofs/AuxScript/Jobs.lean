import ModPackager.Proofs.AuxScript.Parts
import ModPackager.Proofs.World

/-!
# What running jobs keeps

An invariant of the files is kept by a job if it is kept by whatever the compiler may change, and by the few
operations on the output and on the place of the script (`Keeps`). Each part of a job then keeps it
(`runJob_keeps`), and so do all jobs, one after another, and the removal of what the compiler left behind
(`runJobs_keeps`). The parts before the output is deployed need only the former, so they say nothing of what
is made at the place of the script.
-/

namespace ModPackager

open FileSystem FileAction Deploy

variable {settings : Settings} {job : Job} {world : World} {inv reach : FileSystem → Prop}
  {allowed : Location → Prop}

section Lifting

variable {α : Type} {result : α → Prop} {action : FileAction α}

theorem JobAction.lift_maintains (h : Maintains inv action result) :
    Maintains (World.Confined reach allowed inv) (JobAction.lift action) result := by
  intro world hworld
  have hstep := h world.files hworld.files
  unfold JobAction.lift
  rcases hrun : action world.files with ⟨value, files⟩ | ⟨fault, files⟩
  · rw [hrun] at hstep
    exact ⟨⟨hstep.1, hworld.pending⟩, hstep.2⟩
  · rw [hrun] at hstep
    exact ⟨hstep, hworld.pending⟩

theorem AuxScript.onOutput_maintains (h : Maintains inv action result) (job : Job) :
    Maintains (World.Confined reach allowed inv) (onOutput job action) result := by
  intro world hworld
  have hstep := h world.files hworld.files
  unfold onOutput
  rcases hrun : action world.files with ⟨value, files⟩ | ⟨fault, files⟩
  · rw [hrun] at hstep
    exact ⟨⟨hstep.1, hworld.pending⟩, hstep.2⟩
  · rw [hrun] at hstep
    cases fault <;> exact ⟨hstep, hworld.pending⟩

end Lifting

namespace AuxScript

/-! ### What is noted -/

theorem noteOutput_confined {output errors : String} (h : world.Confined reach allowed inv) :
    (noteOutput job output errors world).Confined reach allowed inv := by
  have hnote : ∀ (level : Log.Level) (text : String) (world : World),
      world.Confined reach allowed inv → World.Confined reach allowed inv
        (if (Text.trim text.toList).isEmpty then world
        else world.note logSource level (String.ofList (Text.trimEnd text.toList))
          [("file", job.fileName)]) := by
    intro level text world hworld
    split
    · exact hworld
    · exact hworld.note _ _ _ _
  exact hnote _ _ _ (hnote _ _ _ h)

theorem noteStep_confined (source step : String) (path : Path) (outcome : Outcome)
    (h : world.Confined reach allowed inv) :
    (noteStep source step path outcome world).Confined reach allowed inv := by
  unfold noteStep
  split
  · exact h.note _ _ _ _
  · exact h

/-! ### Compiling -/

section Compiling

variable {compiler : Compiler} (hreach : ∀ {now}, inv now → reach now)
  (hclosed : ∀ {now later}, inv now → Changes allowed now later → inv later)

include hreach hclosed

theorem invoke_keeps (hcompiler : compiler.Confined reach allowed) (auxDir : Path) (deadline : Nat) :
    Maintains (World.Confined reach allowed inv) (invoke compiler settings job auxDir deadline)
      fun _ => True := by
  unfold invoke
  refine (Maintains.modify fun h => World.Confined.note h _ _ _ _).bind fun _ _ => ?_
  refine Maintains.get.bind fun seen hseen => ?_
  obtain ⟨hchanges, hpending⟩ := hcompiler ⟨settings.compiler.program,
    settings.compiler.resolvedArgs auxDir, settings.projectDir⟩ (deadline - seen.now) seen
      (hseen.weaken hreach)
  refine (Maintains.set ⟨hclosed hseen.files hchanges, hpending⟩).bind fun _ _ => ?_
  split
  · exact .throw
  · exact .throw
  · refine (Maintains.modify fun h => noteOutput_confined h).bind fun _ _ => ?_
    split
    · exact .throw
    · exact .pure trivial

theorem awaitOutput_keeps (time deadline fuel looks : Nat) :
    Maintains (World.Confined reach allowed inv)
      (awaitOutput settings.compiler job time deadline fuel looks) fun _ => True := by
  induction fuel generalizing looks with
  | zero => exact .throw
  | succ fuel ih =>
      unfold awaitOutput
      refine Maintains.get.bind fun seen hseen => ?_
      have hwait := hseen.wait hreach hclosed (pause settings.compiler looks)
      split
      · exact .pure trivial
      · split
        · exact Maintains.throw.bind fun _ (hfalse : False) => hfalse.elim
        · exact (Maintains.set hwait).bind fun _ _ => ih (looks + 1)

end Compiling

/-- While nothing is pending, waiting for an output changes no more than the time. -/
theorem awaitOutput_idle (settings : CompilerSettings) (job : Job) (files : FileSystem) (time deadline fuel looks : Nat) :
    Maintains (fun world : World => (∃ now, world.files = { files with now }) ∧ world.pending = [])
      (awaitOutput settings job time deadline fuel looks) fun _ => True := by
  induction fuel generalizing looks with
  | zero => exact .throw
  | succ fuel ih =>
      unfold awaitOutput
      refine Maintains.get.bind fun seen hseen => ?_
      obtain ⟨⟨now, hfiles⟩, hpending⟩ := id hseen
      split
      · exact .pure trivial
      · split
        · exact Maintains.throw.bind fun _ (hfalse : False) => hfalse.elim
        · refine (Maintains.set ?_).bind fun _ _ => ih (looks + 1)
          rw [World.wait_idle hpending]
          exact ⟨⟨_, by rw [hfiles]⟩, hpending⟩

/-- The compiler has run for a job, and nothing but time has passed since. -/
def Built (compiler : Compiler) (settings : Settings) (job : Job) (auxDir : Path) (deadline : Nat)
    (start world : World) : Prop :=
  (∃ now, world.files = { (compiled compiler settings job auxDir deadline start).files with now })
    ∧ world.pending = []

theorem invoke_built {compiler : Compiler} {auxDir : Path} {deadline : Nat} {start : World}
    (hidle : (compiled compiler settings job auxDir deadline start).pending = []) :
    match invoke compiler settings job auxDir deadline start with
    | .ok _ after | .error _ after => Built compiler settings job auxDir deadline start after := by
  have hleaves := invoke_leaves compiler settings job auxDir deadline start
  split <;> rename_i hinvoke <;> rw [hinvoke] at hleaves
  all_goals exact ⟨⟨_, hleaves.1⟩, hleaves.2.trans hidle⟩

/-- A job deploys what the compiler left, or stops before that, where the compiler leaves no processes. -/
theorem attempt_built {compiler : Compiler} {deadline : Nat} {start : World}
    (hidle : ∀ auxDir, (compiled compiler settings job auxDir deadline start).pending = []) (modPrefix : String)
    (started : Nat) :
    match attempt compiler settings modPrefix job started deadline start with
    | .ok deployed after => deployed = job.targetName ∧ ∃ auxDir embedded awaited,
        settings.auxDir.absolute? start.files.workingDir = some auxDir
        ∧ job.embeds start.files = .ok embedded start.files
        ∧ Built compiler settings job auxDir deadline start awaited
        ∧ deployOutput modPrefix job embedded awaited = .ok () after
    | .error e after => after = start ∨ ∃ auxDir, Built compiler settings job auxDir deadline start after
        ∨ ∃ embedded awaited, Built compiler settings job auxDir deadline start awaited
          ∧ deployOutput modPrefix job embedded awaited = .error e after := by
  have hawaits : ∀ auxDir, Maintains (Built compiler settings job auxDir deadline start)
      (awaitOutput settings.compiler job (started - clockSlack) deadline (deadline - started + 1) 0) fun _ => True :=
    fun auxDir => awaitOutput_idle _ _ _ _ _ _ _
  have hinvokes := fun auxDir => invoke_built (hidle auxDir)
  rcases hrun : attempt compiler settings modPrefix job started deadline start with ⟨deployed, after⟩ | ⟨e, after⟩
  · obtain ⟨hname, auxDir, embedded, prepared, invoked, awaited, hprepare, hinvoke, hawait, hdeploy⟩ :=
      attempt_inv hrun
    obtain ⟨rfl, hauxDir, hembeds⟩ := prepare_inv hprepare
    have hinvoked := hinvokes auxDir
    rw [hinvoke] at hinvoked
    exact ⟨hname, auxDir, embedded, awaited, hauxDir, hembeds, ((hawaits auxDir).ok hinvoked hawait).1, hdeploy⟩
  · refine (attempt_error hrun).imp prepare_error ?_
    rintro ⟨auxDir, embedded, prepared, hprepare, hrest⟩
    refine ⟨auxDir, ?_⟩
    obtain ⟨rfl, -, -⟩ := prepare_inv hprepare
    have hinvoked := hinvokes auxDir
    rcases hrest with hinvoke | ⟨invoked, hinvoke, hrest⟩ <;> rw [hinvoke] at hinvoked
    · exact .inl hinvoked
    · rcases hrest with hawait | ⟨awaited, hawait, hdeploy⟩
      · exact .inl ((hawaits auxDir).error hinvoked hawait)
      · exact .inr ⟨embedded, awaited, ((hawaits auxDir).ok hinvoked hawait).1, hdeploy⟩

/-! ### Jobs -/

/-- Whatever running a job does keeps an invariant: the compiler, the processes that it leaves behind, and the
job's own operations on the output and on the place of the script. -/
structure Keeps (reach : FileSystem → Prop) (allowed : Location → Prop) (job : Job) (inv : FileSystem → Prop) :
    Prop where
  reachable : ∀ {now}, inv now → reach now
  closed : ∀ {now later}, inv now → Changes allowed now later → inv later
  embed : ∀ contents, Maintains inv (writeText job.output contents) fun _ => True
  remove : Maintains inv (removeFile job.output) fun _ => True
  parent : Maintains inv (createParent job.deployPath) fun _ => True
  copy : Maintains inv (copyFile job.output job.deployPath) fun _ => True

section Jobs

variable {compiler : Compiler} (hcompiler : compiler.Confined reach allowed)

theorem removeLeftover_keeps (h : Maintains inv (removeFile job.output) fun _ => True)
    (hworld : world.Confined reach allowed inv) : (removeLeftover job world).Confined reach allowed inv := by
  unfold removeLeftover
  split
  · have hremove := h world.files hworld.files
    split
    next heq =>
        rw [heq] at hremove
        exact ⟨hremove.1, hworld.pending⟩
    · exact hworld
  · exact hworld

theorem removeLeftovers_keeps {jobs : List Job}
    (h : ∀ job ∈ jobs, Maintains inv (removeFile job.output) fun _ => True)
    (hworld : world.Confined reach allowed inv) :
    World.Confined reach allowed inv (jobs.foldl (fun world job => removeLeftover job world) world) :=
  List.foldlRecOn jobs _ hworld fun _ hworld job hmem => removeLeftover_keeps (h job hmem) hworld

theorem deployOutput_keeps (h : Keeps reach allowed job inv) (modPrefix : String) (embedded : Bool) :
    Maintains (World.Confined reach allowed inv) (deployOutput modPrefix job embedded) fun _ => True := by
  have hrest : Maintains (World.Confined reach allowed inv) (do
      JobAction.lift (createParent job.deployPath)
      onOutput job (copyFile job.output job.deployPath)
      JobAction.lift (removeFile job.output)) fun _ => True := by
    refine (JobAction.lift_maintains h.parent).bind fun _ _ => ?_
    refine (onOutput_maintains h.copy job).bind fun _ _ => ?_
    exact JobAction.lift_maintains h.remove
  unfold deployOutput
  split
  · refine (onOutput_maintains readText_maintains job).bind fun body _ => ?_
    exact (JobAction.lift_maintains (h.embed _)).bind fun _ _ => hrest
  · exact hrest

include hcompiler

theorem attempt_keeps (h : Keeps reach allowed job inv) (modPrefix : String) (started deadline : Nat) :
    Maintains (World.Confined reach allowed inv)
      (attempt compiler settings modPrefix job started deadline) fun _ => True := by
  unfold attempt
  refine (prepare_maintains settings job).bind fun found _ => ?_
  refine (invoke_keeps h.reachable h.closed hcompiler found.1 deadline).bind fun _ _ => ?_
  refine (awaitOutput_keeps h.reachable h.closed _ _ _ _).bind fun _ _ => ?_
  exact (deployOutput_keeps h modPrefix found.2).bind fun _ _ => .pure trivial

theorem runJob_keeps (h : Keeps reach allowed job inv) (modPrefix : String) :
    Maintains (World.Confined reach allowed inv) (runJob compiler settings modPrefix job) fun _ => True :=
  runJob_maintains (fun _ => True) (fun _ _ => attempt_keeps hcompiler h modPrefix _ _) (fun _ => trivial)
    fun hworld hfiles hpending => ⟨hfiles ▸ hworld.files, hpending ▸ hworld.pending⟩

theorem runJobs_keeps {jobs : List Job} (h : ∀ job ∈ jobs, Keeps reach allowed job inv) (modPrefix : String) :
    Maintains (World.Confined reach allowed inv) (runJobs compiler settings modPrefix jobs) fun _ => True := by
  unfold runJobs
  refine (Maintains.mapM fun job hmem => runJob_keeps hcompiler (h job hmem) modPrefix).bind fun runs _ => ?_
  refine (Maintains.modify fun hworld => ?_).bind fun _ _ => .pure trivial
  exact removeLeftovers_keeps (fun job hmem => (h job hmem).remove) hworld

end Jobs

end AuxScript

end ModPackager
