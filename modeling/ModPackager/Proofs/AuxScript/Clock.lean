import ModPackager.Proofs.AuxScript.Agreement
import ModPackager.Proofs.Pipeline.Reports

/-!
# Jobs and the clock

A job is given until its start plus a time limit, and the clock counts no further than some number of seconds. So
there is a deadline just where the sum is below that number (`deadline?_eq_some_iff`), and everything that is computed
from a deadline stays small: what remains of the time is no more than the limit, and a pause between two looks for the
output no more than 640 milliseconds (`pause_le`).

A wait is a sequence of looks (`Looked`). Each takes at least a millisecond and none begins behind the deadline, so a
wait ends with the output or behind the deadline, after no more looks than there are milliseconds up to it
(`awaitOutput_cases`).

Jobs are therefore run to the last one, unless one of them starts at a time from which its limit cannot be counted
(`runJobs_cases`). Where the compiler ends in its time, a job takes little longer than its limit (`runJob_now`), so it
can be said before the first job starts which limits are small enough (`runJobs_within`).
-/

namespace ModPackager

open FileSystem FileAction Deploy

variable {settings : Settings} {modPrefix : String} {job : Job} {jobs : List Job} {runs : List JobRun} {run : JobRun}
  {compiler : Compiler} {world world' : World}

theorem JobRun.succeeds_or_fails (run : JobRun) :
    run.step.outcome = .success ∨ ∃ reason, run.step.outcome = .failed reason := by
  unfold JobRun.step
  rcases run.result with e | deployed
  · exact .inr ⟨e.message, rfl⟩
  · exact .inl rfl

/-- A compiler ends in the time that it is given, and does not turn the clock back. -/
def Compiler.Heeds (compiler : Compiler) : Prop :=
  ∀ invocation limit world, world.now ≤ (compiler invocation limit world).2.now
    ∧ (compiler invocation limit world).2.now ≤ world.now + limit

namespace AuxScript

/-! ### Deadlines -/

section Deadlines

variable {now later timeoutSecs deadline : Nat}

/-- A deadline can be counted, and so can the time that remains to it. -/
theorem remaining_le (h : deadline? now timeoutSecs = some deadline) (hlater : now ≤ later) :
    deadline / 1000 < clockLimit ∧ deadline - later ≤ timeoutSecs * 1000 := by
  obtain ⟨hcounts, rfl⟩ := deadline?_eq_some_iff.1 h
  exact ⟨by omega, by omega⟩

end Deadlines

/-! ### Pauses -/

section Pauses

variable (settings : CompilerSettings) (looks : Nat)

/-- The longest pause between two looks, in milliseconds. -/
def longestPause : Nat := 640

theorem doubled_le : 10 * Nat.pow 2 (min looks 6) ≤ longestPause := by
  have hpower : Nat.pow 2 (min looks 6) ≤ 64 := Nat.pow_le_pow_right (by decide) (Nat.min_le_right looks 6)
  unfold longestPause
  omega

theorem pause_eq : pause settings looks = min (10 * Nat.pow 2 (min looks 6)) (max settings.pollIntervalMs 1) := rfl

theorem pause_pos : 0 < pause settings looks := by
  have hpower : 0 < Nat.pow 2 (min looks 6) := Nat.two_pow_pos _
  rw [pause_eq]
  omega

theorem pause_le : pause settings looks ≤ longestPause := by
  rw [pause_eq]
  exact (Nat.min_le_left _ _).trans (doubled_le looks)

theorem pause_le_pollInterval : pause settings looks ≤ max settings.pollIntervalMs 1 := Nat.min_le_right _ _

end Pauses

/-! ### Waiting for an output -/

theorem wait_now (world : World) (milliseconds : Nat) : (world.wait milliseconds).now = world.now + milliseconds := rfl

/-- An output has been looked for a number of times, always in vain and before the deadline, with a pause behind each
look. -/
inductive Looked (settings : CompilerSettings) (job : Job) (time deadline : Nat) (start : World) :
    Nat → World → Prop
  | start : Looked settings job time deadline start 0 start
  | again {looks : Nat} {seen : World} : Looked settings job time deadline start looks seen →
      isFresh seen.files job.output time = false → seen.now < deadline →
      Looked settings job time deadline start (looks + 1) (seen.wait (pause settings looks))

section Waiting

variable {settings : CompilerSettings} {time deadline looks fuel : Nat} {start seen : World}

theorem Looked.now_le (h : Looked settings job time deadline start looks seen) :
    start.now + looks ≤ seen.now ∧ seen.now ≤ max start.now (deadline + longestPause) := by
  induction h with
  | start => exact ⟨Nat.le_refl _, Nat.le_max_left _ _⟩
  | @again looks seen _ _ hbefore ih =>
      have hpos := pause_pos settings looks
      have hle := pause_le settings looks
      rw [wait_now]
      omega

/-- There are no more looks in vain than milliseconds up to the deadline. -/
theorem Looked.looks_le (h : Looked settings job time deadline start looks seen) : looks ≤ deadline - start.now := by
  cases h with
  | start => exact Nat.zero_le _
  | again hbefore _ hnow =>
      have hlooks := hbefore.now_le.1
      omega

/-- A wait ends with the output, or without it behind the deadline. -/
theorem awaitOutput_cases (h : Looked settings job time deadline start looks seen)
    (hfuel : deadline - seen.now < fuel) :
    ∃ looks' ended, Looked settings job time deadline start looks' ended
      ∧ (awaitOutput settings job time deadline fuel looks seen = .ok () ended
          ∧ isFresh ended.files job.output time = true
        ∨ awaitOutput settings job time deadline fuel looks seen
            = .error (.compilerTimedOut job.fileName settings.timeoutSecs) ended
          ∧ isFresh ended.files job.output time = false ∧ deadline ≤ ended.now) := by
  induction fuel generalizing looks seen with
  | zero => exact absurd hfuel (Nat.not_lt_zero _)
  | succ fuel ih =>
      unfold awaitOutput
      simp only [bind, EStateM.bind, run_get]
      by_cases hfresh : isFresh seen.files job.output time = true
      · refine ⟨looks, seen, h, .inl ⟨?_, hfresh⟩⟩
        rw [if_pos hfresh]
        rfl
      · rw [if_neg hfresh]
        rw [Bool.not_eq_true] at hfresh
        by_cases hlate : deadline ≤ seen.now
        · refine ⟨looks, seen, h, .inr ⟨?_, hfresh, hlate⟩⟩
          rw [if_pos hlate]
          rfl
        · -- A pause takes at least a millisecond, so the fuel outlasts the time up to the deadline.
          have hpos := pause_pos settings looks
          rw [if_neg hlate]
          refine ih (h.again hfresh (Nat.lt_of_not_le hlate)) ?_
          rw [wait_now]
          omega

end Waiting

/-! ### Jobs up to one that overflows -/

/-- Jobs are run to the last one, or up to the first one whose limit cannot be counted from the time at which it
starts. -/
theorem runJobs_cases (compiler : Compiler) (settings : Settings) (modPrefix : String) (jobs : List Job)
    (world : World) :
    match runJobs compiler settings modPrefix jobs world with
    | .ok runs _ => runs.map (·.job) = jobs
        ∧ ∀ run ∈ runs, run.step.outcome = .success ∨ ∃ reason, run.step.outcome = .failed reason
    | .error _ late => ∃ before job after runs, jobs = before ++ job :: after
        ∧ before.mapM (runJob compiler settings modPrefix) world = .ok runs late
        ∧ clockLimit ≤ late.now / 1000 + settings.compiler.timeoutSecs := by
  rcases hrun : runJobs compiler settings modPrefix jobs world with ⟨runs, ended⟩ | ⟨fault, late⟩
  · exact ⟨runJobs_jobs hrun, fun run _ => run.succeeds_or_fails⟩
  · rcases bind_eq_error.1 hrun with hmapped | ⟨_, _, -, hswept⟩
    · exact mapM_error hmapped
    · cases hswept

/-! ### The time that jobs take -/

section Files

variable {α : Type} {result : α → Prop} {action : FileAction α} {inv : FileSystem → Prop}

theorem lift_files (h : Maintains inv action result) :
    Maintains (fun world => inv world.files) (JobAction.lift action) result := by
  intro world hworld
  have hstep := h world.files hworld
  unfold JobAction.lift
  rcases hrun : action world.files with ⟨value, files⟩ | ⟨fault, files⟩ <;> rw [hrun] at hstep <;> exact hstep

theorem onOutput_files (h : Maintains inv action result) (job : Job) :
    Maintains (fun world => inv world.files) (onOutput job action) result := by
  intro world hworld
  have hstep := h world.files hworld
  unfold onOutput
  rcases hrun : action world.files with ⟨value, files⟩ | ⟨fault, files⟩ <;> rw [hrun] at hstep
  · exact hstep
  · cases fault <;> exact hstep

end Files

/-- The clock shows a time between two others. -/
def Between (first last : Nat) (fs : FileSystem) : Prop := first ≤ fs.now ∧ fs.now ≤ last

section Limits

variable {first last deadline : Nat}

theorem Between.put {fs : FileSystem} (h : Between first last fs) (location : Location) (entry : Entry) :
    Between first last (fs.put location entry) := by
  rwa [Between, now_put]

/-- Deploying an output takes no time that the clock would show. -/
theorem deployOutput_between (modPrefix : String) (job : Job) (embedded : Bool) :
    Maintains (fun world => Between first last world.files) (deployOutput modPrefix job embedded) fun _ => True := by
  have hplace : Maintains (fun world => Between first last world.files) (placeOutput job) fun _ => True := by
    refine (lift_files (createParent_maintains fun h _ => h.put _ _)).bind fun _ _ => ?_
    refine (onOutput_files (copyFile_maintains fun h _ => h.put _ _) job).bind fun _ _ => ?_
    exact lift_files (removeFile_maintains fun h _ _ => h)
  have hembed : Maintains (fun world => Between first last world.files) (embedOutput modPrefix job) fun _ => True := by
    refine (onOutput_files readText_maintains job).bind fun body _ => ?_
    exact lift_files (writeBytes_maintains fun h _ => h.put _ _)
  rw [deployOutput_eq]
  split
  · exact hembed.bind fun _ _ => hplace
  · exact hplace

/-- A compiler that heeds its limit is done by the deadline, unless it starts behind it. -/
theorem invoke_between (h : compiler.Heeds) (settings : Settings) (job : Job) (auxDir : Path)
    (hlast : deadline ≤ last) :
    Maintains (fun world => Between first last world.files) (invoke compiler settings job auxDir deadline)
      fun _ => True := by
  intro world hworld
  have hcompiled : Between first last (compiled compiler settings job auxDir deadline world).files := by
    obtain ⟨hafter, hlimit⟩ := h
      ⟨settings.compiler.program, settings.compiler.resolvedArgs auxDir, settings.projectDir⟩
      (deadline - world.now) (world.note logSource .debug "invoking compiler"
        [("file", job.fileName), ("program", settings.compiler.program),
          ("args", Log.listText (settings.compiler.resolvedArgs auxDir))])
    obtain ⟨hfirst, hbefore⟩ := hworld
    refine ⟨hfirst.trans hafter, hlimit.trans ?_⟩
    change world.files.now + (deadline - world.files.now) ≤ last
    omega
  have hleaves := invoke_leaves compiler settings job auxDir deadline world
  split at hleaves <;> rename_i hrun <;> rw [hrun] <;> rw [← hleaves.1] at hcompiled
  · exact ⟨hcompiled, trivial⟩
  · exact hcompiled

theorem awaitOutput_between (settings : CompilerSettings) (job : Job) (time fuel looks : Nat)
    (hlast : deadline + longestPause ≤ last) :
    Maintains (fun world => Between first last world.files) (awaitOutput settings job time deadline fuel looks)
      fun _ => True := by
  induction fuel generalizing looks with
  | zero => exact .throw
  | succ fuel ih =>
      unfold awaitOutput
      refine Maintains.get.bind fun seen hseen => ?_
      split
      · exact .pure trivial
      · split
        · exact Maintains.throw.bind fun _ (hfalse : False) => hfalse.elim
        next hbefore =>
            -- The pause begins before the deadline, so it ends no later than its length behind it.
            refine (Maintains.set ?_).bind fun _ _ => ih (looks + 1)
            obtain ⟨hfirst, -⟩ := hseen
            have hle := pause_le settings looks
            have hwait := wait_now seen (pause settings looks)
            unfold World.now at hbefore hwait
            exact ⟨by omega, by omega⟩

/-- A job is done soon behind its deadline. -/
theorem attempt_between (h : compiler.Heeds) (settings : Settings) (modPrefix : String) (job : Job) (started : Nat)
    (hlast : deadline + longestPause ≤ last) :
    Maintains (fun world => Between first last world.files) (attempt compiler settings modPrefix job started deadline)
      fun _ => True := by
  unfold attempt
  refine (prepare_maintains settings job).bind fun found _ => ?_
  refine (invoke_between h settings job found.1 ((Nat.le_add_right _ _).trans hlast)).bind fun _ _ => ?_
  refine (awaitOutput_between _ _ _ _ _ hlast).bind fun _ _ => ?_
  exact (deployOutput_between modPrefix job found.2).bind fun _ _ => .pure trivial

end Limits

/-- The longest time that a job takes, in milliseconds. -/
def jobTime (settings : CompilerSettings) : Nat := settings.timeoutSecs * 1000 + longestPause

theorem runJob_now (h : compiler.Heeds) (hrun : runJob compiler settings modPrefix job world = .ok run world') :
    world'.now ≤ world.now + jobTime settings.compiler := by
  unfold runJob at hrun
  cases hdeadline : deadline? world.now settings.compiler.timeoutSecs with
  | none => simp [hdeadline] at hrun
  | some deadline =>
      obtain ⟨-, rfl⟩ := deadline?_eq_some_iff.1 hdeadline
      have hattempts : Maintains (fun later => Between 0 (world.now + jobTime settings.compiler) later.files)
          (attempt compiler settings modPrefix job world.now (world.now + settings.compiler.timeoutSecs * 1000))
          fun _ => True :=
        attempt_between h settings modPrefix job world.now (by unfold jobTime; omega)
      have hstart : Between 0 (world.now + jobTime settings.compiler) world.files :=
        ⟨Nat.zero_le _, Nat.le_add_right _ _⟩
      have hnoted : ∀ (run : JobRun) (after : World), (noteRun run after).now = after.now := fun run after =>
        congrArg FileSystem.now (noteRun_files run after).1
      simp only [hdeadline] at hrun
      split at hrun <;> rename_i hended <;> cases hrun <;> rw [hnoted]
      · exact (hattempts.ok hstart hended).1.2
      · exact (hattempts.error hstart hended).2

/-- Where the compiler ends in its time, jobs take no longer than their limits and a pause each. -/
theorem mapM_now (h : compiler.Heeds) (hran : jobs.mapM (runJob compiler settings modPrefix) world = .ok runs world') :
    world'.now ≤ world.now + jobs.length * jobTime settings.compiler := by
  induction jobs generalizing world runs with
  | nil =>
      cases hran
      exact Nat.le_add_right _ _
  | cons job rest ih =>
      rw [List.mapM_cons] at hran
      obtain ⟨run, between, hfirst, hrest⟩ := bind_eq_ok.1 hran
      obtain ⟨later, ended, hlater, hend⟩ := bind_eq_ok.1 hrest
      cases hend
      have hjob := runJob_now h hfirst
      have hothers := ih hlater
      rw [List.length_cons, Nat.succ_mul]
      omega

/-- Jobs are run to the last one if the clock can count the time that all of them may take. -/
theorem runJobs_within (h : compiler.Heeds)
    (hcounts : world.now + jobs.length * jobTime settings.compiler < clockLimit * 1000) :
    ∃ runs ended, runJobs compiler settings modPrefix jobs world = .ok runs ended := by
  have hcases := runJobs_cases compiler settings modPrefix jobs world
  rcases hrun : runJobs compiler settings modPrefix jobs world with ⟨runs, ended⟩ | ⟨fault, late⟩
  · exact ⟨runs, ended, rfl⟩
  · rw [hrun] at hcases
    obtain ⟨before, job, after, runs, rfl, hbefore, hlimit⟩ := hcases
    have hlate := mapM_now h hbefore
    -- The job that has no deadline would have taken its limit as well.
    have hlength : (before.length + 1) * jobTime settings.compiler
        ≤ (before ++ job :: after).length * jobTime settings.compiler := by
      refine Nat.mul_le_mul_right _ ?_
      rw [List.length_append, List.length_cons]
      omega
    rw [Nat.succ_mul] at hlength
    unfold jobTime at hlate hlength hcounts
    omega

end AuxScript

/-! ### Reports -/

/-- A plan is carried out to its report, with a step for each job, unless one of the jobs has no deadline. -/
theorem Pipeline.carryOut_cases (compiler : Compiler) (settings : Settings) (plan : Plan) (world : World) :
    match carryOut compiler settings plan world with
    | .ok report _ => ∃ staged scripts, runStages (plan.stages settings) world.files = staged
        ∧ report.steps = staged.1 ++ scripts
        ∧ AuxScript.Reported (discoverJobs staged.2 settings.auxDir plan.root) scripts report.auxScripts
    | .error abort late => abort = .clockOverflow
        ∧ AuxScript.clockLimit ≤ late.now / 1000 + settings.compiler.timeoutSecs := by
  obtain ⟨staged, hfiles, -, hcarry⟩ := carryOut_eq compiler settings plan world
  rw [hcarry]
  unfold takeScripts
  rcases htranspile : AuxScript.transpile compiler settings plan.root plan.metadata.modPrefix staged with
    ⟨summary, ended⟩ | ⟨fault, late⟩
  · refine ⟨_, summary.steps, rfl, rfl, ?_⟩
    rw [← hfiles]
    exact AuxScript.transpile_reported htranspile
  · exact ⟨rfl, AuxScript.deadline?_eq_none_iff.1 (AuxScript.transpile_overflow_now htranspile)⟩

namespace AuxScript

theorem fooWriter_heeds : fooWriter.Heeds := by
  intro invocation limit world
  unfold fooWriter
  split
  · exact ⟨now_put.symm.le, now_put.le.trans (Nat.le_add_right _ _)⟩
  · exact ⟨Nat.le_refl _, Nat.le_add_right _ _⟩

/-- The settings of a project with the longest limit that the command line takes. -/
def patientSettings : Settings :=
  Settings.ofSources ⟨"."⟩ {} none { deployDir := some ⟨"deploy"⟩, timeoutSecs := some 18446744073709551615 }

end AuxScript

end ModPackager
