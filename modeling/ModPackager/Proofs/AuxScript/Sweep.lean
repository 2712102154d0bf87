import ModPackager.Proofs.AuxScript.Agreement
import ModPackager.Proofs.AuxScript.Discovery

/-!
# Sweeping up outputs

When all jobs have run, the outputs that are still there are removed, whoever put them there. What the sweep leaves
is the files without some of the outputs that they held at its beginning (`removeLeftovers_swept`), and none of the
outputs is a file then (`runJobs_sweeps`), since removing one entry never makes a path lead to another one. Nothing
else is ever taken away by a run of jobs itself: what happens during it is a `Course` of compiling, waiting and
changes that leave everything but outputs there.

So jobs that all fail leave the auxiliary directory as it was, but for files at the places of outputs
(`runJobs_keeps_uncompiled`). Those are swept up even if no invocation has written them
(`runJobs_removes_handwritten`).
-/

namespace ModPackager

open FileSystem FileAction Deploy

variable {fs fs' fs'' : FileSystem} {path root : Path} {location place dir : Location} {entry : Entry} {job : Job}
  {jobs more : List Job} {settings : Settings} {modPrefix : String} {compiler : Compiler} {world next start : World}

/-! ### Removing a file -/

namespace FileSystem

theorem entry?_of_erase {found : Entry} (h : FileSystem.entry? (fs.erase location) place = some found) :
    fs.entry? place = some found := by
  rw [entry?_erase] at h
  split at h
  · cases h
  · exact h

/-- Where a link at the end is not followed, what leads to a file leads to that file or to a link. -/
theorem exists_leaf_of_holdsFile (h : fs.holdsFile path = true) :
    ∃ location entry, fs.resolve false path = .ok (.found location entry) ∧ entry ≠ .directory := by
  obtain ⟨place, contents, hresolve⟩ := holdsFile_iff.1 h
  obtain ⟨hpath, hleads⟩ := resolve_eq_ok_iff.1 hresolve
  rcases hleads.unfollow with hfile | ⟨other, text, hlink⟩
  · exact ⟨_, _, resolve_eq_ok_iff.2 ⟨hpath, hfile⟩, by simp⟩
  · exact ⟨_, _, resolve_eq_ok_iff.2 ⟨hpath, hlink⟩, by simp⟩

/-- A path leads to no file once the entry that it names is gone. -/
theorem holdsFile_erase_of_found (h : fs.resolve false path = .ok (.found location entry))
    (hleaf : entry ≠ .directory) : (fs.erase location).holdsFile path = false := by
  rw [Bool.eq_false_iff]
  intro hfile
  obtain ⟨other, found, hother, -⟩ := exists_leaf_of_holdsFile hfile
  have hback : fs.resolve false path = .ok (.found other found) := resolve_mono entry?_of_erase rfl hother
  obtain ⟨rfl, -⟩ : other = location ∧ found = entry := by simpa [h, eq_comm] using hback
  have hroot : other ≠ [] := by
    rintro rfl
    exact hleaf (Option.some.inj (entry?_of_found h)).symm
  have hgone := entry?_of_found hother
  rw [entry?_erase, if_pos ⟨hroot, List.prefix_refl _⟩] at hgone
  cases hgone

end FileSystem

namespace AuxScript

/-! ### What a run takes away -/

/-- An entry is an output of a job: the path of the output names it, or what it lies below, and that is no
directory. -/
def IsOutput (jobs : List Job) (fs : FileSystem) (place : Location) : Prop :=
  ∃ job ∈ jobs, ∃ location entry, fs.resolve false job.output = .ok (.found location entry) ∧ entry ≠ .directory
    ∧ location <+: place

/-- Nothing but outputs is missing afterwards, and what is there is as it was. -/
structure Swept (jobs : List Job) (before after : FileSystem) : Prop where
  workingDir : after.workingDir = before.workingDir
  entries : ∀ place, after.entry? place = before.entry? place
    ∨ after.entry? place = none ∧ IsOutput jobs before place

namespace Swept

theorem refl (fs : FileSystem) : Swept jobs fs fs := ⟨rfl, fun _ => .inl rfl⟩

theorem entry?_mono (h : Swept jobs fs fs') {found : Entry} (hfound : fs'.entry? place = some found) :
    fs.entry? place = some found := by
  rcases h.entries place with hsame | ⟨hgone, -⟩
  · rw [← hsame, hfound]
  · rw [hgone] at hfound
    cases hfound

/-- What is no file to begin with becomes none. -/
theorem holdsFile_mono (h : Swept jobs fs fs') (hfile : fs'.holdsFile path = true) : fs.holdsFile path = true := by
  obtain ⟨place, contents, hresolve⟩ := holdsFile_iff.1 hfile
  exact holdsFile_iff.2 ⟨place, contents, resolve_mono h.entry?_mono h.workingDir.symm hresolve⟩

theorem isOutput_mono (h : Swept jobs fs fs') (houtput : IsOutput more fs' place) : IsOutput more fs place := by
  obtain ⟨job, hmem, location, entry, hresolve, hleaf, hbelow⟩ := houtput
  exact ⟨job, hmem, location, entry, resolve_mono h.entry?_mono h.workingDir.symm hresolve, hleaf, hbelow⟩

theorem trans (first : Swept jobs fs fs') (second : Swept jobs fs' fs'') : Swept jobs fs fs'' where
  workingDir := second.workingDir.trans first.workingDir
  entries := by
    intro place
    rcases second.entries place with hsame | ⟨hgone, houtput⟩
    · rw [hsame]
      exact first.entries place
    · exact .inr ⟨hgone, first.isOutput_mono houtput⟩

end Swept

/-- A file at the place of an output is removed, and nothing else is. -/
theorem removeLeftover_swept (hmem : job ∈ jobs) (world : World) :
    (removeLeftover job world).files.holdsFile job.output = false
      ∧ Swept jobs world.files (removeLeftover job world).files := by
  unfold removeLeftover
  split
  next hfile =>
      obtain ⟨location, entry, hresolve, hleaf⟩ := exists_leaf_of_holdsFile hfile
      have hremove : removeFile job.output world.files = .ok () (world.files.erase location) := by
        rw [removeFile_eq, hresolve]
        cases entry with
        | directory => exact absurd rfl hleaf
        | file contents => rfl
        | link text => rfl
      simp only [hremove]
      refine ⟨holdsFile_erase_of_found hresolve hleaf, rfl, fun place => ?_⟩
      change FileSystem.entry? (world.files.erase location) place = _
        ∨ FileSystem.entry? (world.files.erase location) place = _ ∧ _
      rw [entry?_erase]
      split
      next hbelow => exact .inr ⟨rfl, job, hmem, location, entry, hresolve, hleaf, hbelow.2⟩
      · exact .inl rfl
  next hfile => exact ⟨by simpa using hfile, .refl _⟩

theorem removeLeftover_pending (job : Job) (world : World) : (removeLeftover job world).pending = world.pending := by
  unfold removeLeftover
  split
  · split <;> rfl
  · rfl

theorem removeLeftovers_pending (jobs : List Job) (world : World) :
    (jobs.foldl (fun world job => removeLeftover job world) world).pending = world.pending :=
  List.foldlRecOn (motive := fun swept : World => swept.pending = world.pending) jobs _ rfl
    fun now hnow job _ => (removeLeftover_pending job now).trans hnow

/-- The sweep leaves no file at any output, and takes away nothing that is not one to begin with. -/
theorem removeLeftovers_swept (hmore : more ⊆ jobs) (world : World) :
    (∀ job ∈ more, (more.foldl (fun world job => removeLeftover job world) world).files.holdsFile job.output = false)
      ∧ Swept jobs world.files (more.foldl (fun world job => removeLeftover job world) world).files := by
  induction more generalizing world with
  | nil => exact ⟨by simp, .refl _⟩
  | cons job rest ih =>
      obtain ⟨hjob, hrest⟩ := List.cons_subset.1 hmore
      obtain ⟨hremoved, hfirst⟩ := removeLeftover_swept hjob world
      obtain ⟨hothers, hswept⟩ := ih hrest (removeLeftover job world)
      refine ⟨List.forall_mem_cons.2 ⟨?_, hothers⟩, hfirst.trans hswept⟩
      -- What the later ones take away does not bring this one back.
      rw [Bool.eq_false_iff]
      intro hfile
      rw [hswept.holdsFile_mono hfile] at hremoved
      cases hremoved

/-! ### The course of a run -/

/-- Whatever is missing afterwards was an output. -/
def TakesOutputs (jobs : List Job) (before after : FileSystem) : Prop :=
  ∀ place, before.entry? place ≠ none → after.entry? place = none → IsOutput jobs before place

theorem Swept.takesOutputs (h : Swept jobs fs fs') : TakesOutputs jobs fs fs' := by
  intro place hthere hgone
  rcases h.entries place with hsame | ⟨-, houtput⟩
  · exact absurd (hsame.symm.trans hgone) hthere
  · exact houtput

/-- Where nothing is missing, no output is. -/
theorem takesOutputs_of_isSome (h : ∀ place, (fs.entry? place).isSome → (fs'.entry? place).isSome) :
    TakesOutputs jobs fs fs' := by
  intro place hthere hgone
  have hsome := h place (Option.isSome_iff_ne_none.2 hthere)
  rw [hgone] at hsome
  cases hsome

/-- What may happen while jobs run, one thing after another: the compiler runs, time passes with the processes that
are pending, and the run itself changes files without taking away anything but outputs. -/
inductive Course (compiler : Compiler) (jobs : List Job) (start : World) : World → Prop
  | start : Course compiler jobs start start
  | compiles {now : World} (invocation : Invocation) (limit : Nat) :
      Course compiler jobs start now → Course compiler jobs start (compiler invocation limit now).2
  | waits {now : World} (milliseconds : Nat) :
      Course compiler jobs start now → Course compiler jobs start (now.wait milliseconds)
  | changes {now later : World} :
      Course compiler jobs start now → later.pending = now.pending → TakesOutputs jobs now.files later.files →
      Course compiler jobs start later

namespace Course

/-- Noting something changes no files. -/
theorem of_files (h : Course compiler jobs start world) (hfiles : next.files = world.files)
    (hpending : next.pending = world.pending) : Course compiler jobs start next :=
  .changes h hpending (hfiles ▸ (Swept.refl _).takesOutputs)

theorem note (h : Course compiler jobs start world) (source : String) (level : Log.Level) (message : String)
    (fields : List (String × String)) : Course compiler jobs start (world.note source level message fields) :=
  h.of_files rfl rfl

end Course

section Parts

variable {α : Type} {action : FileAction α}

/-- The files that an action ends in. -/
def filesAfter : EStateM.Result IoFault FileSystem α → FileSystem
  | .ok _ files | .error _ files => files

theorem lift_course (h : ∀ files, TakesOutputs jobs files (filesAfter (action files))) :
    Maintains (Course compiler jobs start) (JobAction.lift action) fun _ => True := by
  intro world hworld
  have haction := h world.files
  unfold JobAction.lift
  rcases hrun : action world.files with ⟨value, files⟩ | ⟨fault, files⟩ <;> rw [hrun] at haction
  · exact ⟨.changes hworld rfl haction, trivial⟩
  · exact .changes hworld rfl haction

theorem onOutput_course (h : ∀ files, TakesOutputs jobs files (filesAfter (action files))) (job : Job) :
    Maintains (Course compiler jobs start) (onOutput job action) fun _ => True := by
  intro world hworld
  have haction := h world.files
  unfold onOutput
  rcases hrun : action world.files with ⟨value, files⟩ | ⟨fault, files⟩ <;> rw [hrun] at haction
  · exact ⟨.changes hworld rfl haction, trivial⟩
  · cases fault <;> exact .changes hworld rfl haction

/-- What was there is still there, whatever it has become. -/
def Remains (before after : FileSystem) : Prop :=
  ∀ place, (before.entry? place).isSome → (after.entry? place).isSome

theorem Remains.put (h : Remains fs fs') (hroot : location ≠ []) : Remains fs (fs'.put location entry) := by
  intro place hthere
  rw [entry?_put _ hroot]
  split
  · rfl
  · exact h place hthere

/-- An action that only puts entries takes nothing away. -/
theorem takesOutputs_of_remains (h : ∀ before, Maintains (Remains before) action fun _ => True) (files : FileSystem) :
    TakesOutputs jobs files (filesAfter (action files)) := by
  refine takesOutputs_of_isSome ?_
  have hkept := h files files fun _ => id
  rcases hrun : action files with ⟨value, after⟩ | ⟨fault, after⟩ <;> rw [hrun] at hkept
  · exact hkept.1
  · exact hkept

theorem writeText_takes (path : Path) (text : String) (files : FileSystem) :
    TakesOutputs jobs files (filesAfter (writeText path text files)) :=
  takesOutputs_of_remains (fun _ => writeBytes_maintains fun h hwrites => h.put hwrites.ne_nil) files

theorem copyFile_takes (source target : Path) (files : FileSystem) :
    TakesOutputs jobs files (filesAfter (copyFile source target files)) :=
  takesOutputs_of_remains (fun _ => copyFile_maintains fun h hwrites => h.put hwrites.ne_nil) files

theorem createParent_takes (path : Path) (files : FileSystem) :
    TakesOutputs jobs files (filesAfter (createParent path files)) :=
  takesOutputs_of_remains (fun _ => createParent_maintains fun h ⟨_, _, _, hvacant⟩ =>
    h.put (writable_of_vacant hvacant).ne_nil) files

theorem readText_takes (path : Path) (files : FileSystem) :
    TakesOutputs jobs files (filesAfter (readText path files)) :=
  takesOutputs_of_remains (fun _ => readText_maintains) files

theorem removeFile_takes (hmem : job ∈ jobs) (files : FileSystem) :
    TakesOutputs jobs files (filesAfter (removeFile job.output files)) := by
  intro place hthere hgone
  rw [removeFile_eq] at hgone
  split at hgone
  · exact absurd hgone hthere
  next location entry hleaf hresolve =>
      change FileSystem.entry? (files.erase location) place = none at hgone
      rw [entry?_erase] at hgone
      split at hgone
      next hbelow => exact ⟨job, hmem, location, entry, hresolve, fun hdir => hleaf (hdir ▸ rfl), hbelow.2⟩
      · exact absurd hgone hthere
  · exact absurd hgone hthere
  · exact absurd hgone hthere

end Parts

theorem invoke_course (settings : Settings) (job : Job) (auxDir : Path) (deadline : Nat) :
    Maintains (Course compiler jobs start) (invoke compiler settings job auxDir deadline) fun _ => True := by
  intro world hworld
  have hcompiled : Course compiler jobs start (compiled compiler settings job auxDir deadline world) :=
    (hworld.note _ _ _ _).compiles _ _
  have hleaves := invoke_leaves compiler settings job auxDir deadline world
  split <;> rename_i hrun <;> rw [hrun] at hleaves
  · exact ⟨hcompiled.of_files hleaves.1 hleaves.2, trivial⟩
  · exact hcompiled.of_files hleaves.1 hleaves.2

theorem awaitOutput_course (settings : CompilerSettings) (job : Job) (time deadline fuel looks : Nat) :
    Maintains (Course compiler jobs start) (awaitOutput settings job time deadline fuel looks) fun _ => True := by
  induction fuel generalizing looks with
  | zero => exact .throw
  | succ fuel ih =>
      unfold awaitOutput
      refine Maintains.get.bind fun seen hseen => ?_
      split
      · exact .pure trivial
      · split
        · exact Maintains.throw.bind fun _ (hfalse : False) => hfalse.elim
        · exact (Maintains.set (hseen.waits _)).bind fun _ _ => ih (looks + 1)

theorem deployOutput_course (hmem : job ∈ jobs) (modPrefix : String) (embedded : Bool) :
    Maintains (Course compiler jobs start) (deployOutput modPrefix job embedded) fun _ => True := by
  have hplace : Maintains (Course compiler jobs start) (placeOutput job) fun _ => True :=
    (lift_course (createParent_takes _)).bind fun _ _ =>
      (onOutput_course (copyFile_takes _ _) job).bind fun _ _ => lift_course (removeFile_takes hmem)
  rw [deployOutput_eq]
  split
  · have hembed : Maintains (Course compiler jobs start) (embedOutput modPrefix job) fun _ => True :=
      (onOutput_course (readText_takes _) job).bind fun _ _ => lift_course (writeText_takes _ _)
    exact hembed.bind fun _ _ => hplace
  · exact hplace

theorem attempt_course (hmem : job ∈ jobs) (settings : Settings) (modPrefix : String) (started deadline : Nat) :
    Maintains (Course compiler jobs start) (attempt compiler settings modPrefix job started deadline)
      fun _ => True :=
  (prepare_maintains settings job).bind fun found _ =>
    (invoke_course settings job found.1 deadline).bind fun _ _ =>
      (awaitOutput_course settings.compiler job _ deadline _ _).bind fun _ _ =>
        (deployOutput_course hmem modPrefix found.2).bind fun _ _ => .pure trivial

/-- What a directory holds, and what a path to it is followed through. -/
def Holds (fs : FileSystem) (path : Path) (dir : Location) (place : Location) : Prop :=
  dir <+: place ∨ place ∈ fs.way path

/-- As long as a directory holds what it held at first, and a path leads to it, no invocation succeeds or writes
anything there. -/
def Fruitless (compiler : Compiler) (fs : FileSystem) (path : Path) (dir : Location) : Prop :=
  ∀ invocation limit world, Alike (fun place => ¬ Holds fs path dir place) fs world.files →
    ¬ (compiler invocation limit world).1.Succeeds
      ∧ Alike (fun place => ¬ Holds fs path dir place) fs (compiler invocation limit world).2.files

section Fruitless

variable (hcompiler : Fruitless compiler fs settings.auxDir dir)

include hcompiler

theorem invoke_fruitless (job : Job) (auxDir : Path) (deadline : Nat) :
    Maintains (fun world : World => Alike (fun place => ¬ Holds fs settings.auxDir dir place) fs world.files)
      (invoke compiler settings job auxDir deadline) fun _ => False := by
  intro world hworld
  obtain ⟨hfails, halike⟩ := hcompiler ⟨settings.compiler.program, settings.compiler.resolvedArgs auxDir, settings.projectDir⟩
    (deadline - world.now) (world.note logSource .debug "invoking compiler" [("file", job.fileName),
      ("program", settings.compiler.program), ("args", Log.listText (settings.compiler.resolvedArgs auxDir))]) hworld
  have hleaves := invoke_leaves compiler settings job auxDir deadline world
  rcases hrun : invoke compiler settings job auxDir deadline world with ⟨⟨⟩, after⟩ | ⟨e, after⟩ <;>
    rw [hrun] at hleaves
  · exact absurd (conclude_inv ((invoke_eq ..).symm.trans hrun)).1 hfails
  · change Alike _ fs after.files
    rw [hleaves.1]
    exact halike

theorem attempt_fruitless (modPrefix : String) (job : Job) (started deadline : Nat) :
    Maintains (fun world : World => Alike (fun place => ¬ Holds fs settings.auxDir dir place) fs world.files)
      (attempt compiler settings modPrefix job started deadline) fun _ => False :=
  (prepare_maintains settings job).bind fun found _ =>
    (invoke_fruitless hcompiler job found.1 deadline).bind fun _ hfalse => hfalse.elim

/-- While no invocation succeeds, every job fails, and the auxiliary directory stays as it is. -/
theorem mapM_fruitless (modPrefix : String) (jobs : List Job) :
    Maintains (fun world : World => Alike (fun place => ¬ Holds fs settings.auxDir dir place) fs world.files)
      (jobs.mapM (runJob compiler settings modPrefix)) fun runs => ∀ run ∈ runs, ∃ e, run.result = .error e :=
  Maintains.mapM fun job _ =>
    runJob_maintains (fun result => ∃ e, result = .error e)
      (fun started deadline => (attempt_fruitless hcompiler modPrefix job started deadline).weaken (·.elim))
      (fun e => ⟨e, rfl⟩) fun h hfiles _ => hfiles ▸ h

end Fruitless

/-- An output that is swept up lies in the auxiliary directory, where it has the name of a compiled script. -/
theorem IsOutput.eq_target (h : IsOutput jobs fs' place)
    (halike : Alike (fun place => ¬ Holds fs settings.auxDir dir place) fs fs') (wf : fs.WellFormed)
    (hjobs : ∀ job ∈ jobs, ∃ name, IsJob settings root job name)
    (haux : fs.resolve true settings.auxDir = .ok (.found dir .directory)) (hthere : fs.entry? place ≠ none) :
    ∃ job ∈ jobs, place = dir ++ [job.targetName] ∧ fs.entry? place ≠ some .directory := by
  obtain ⟨job, hmem, location, entry, hresolve, hleaf, more, rfl⟩ := h
  obtain ⟨name, hjob⟩ := hjobs job hmem
  obtain ⟨hempty, hdot, hup, hslash⟩ := scriptTarget_plain hjob.valid
  have hpath := (resolve_eq_ok_iff.1 haux).1.2.1
  have haux' : fs'.resolve true settings.auxDir = .ok (.found dir .directory) :=
    (halike.resolve (fun _ hway hout => hout (.inr hway)) true).trans haux
  rw [hjob.output_eq] at hresolve
  have hplace : location = dir ++ [scriptTarget name] :=
    place_entry hempty hslash hdot hup hpath (leadsTo_of_resolve haux') (absurd · Bool.false_ne_true) hresolve
  have hentry : fs.entry? location = some entry := by
    rw [← halike.entries location (not_not_intro (.inl (hplace ▸ List.prefix_append _ _))), entry?_of_found hresolve]
  -- Below what is no directory there is nothing.
  obtain rfl : more = [] := by
    by_contra hmore
    obtain ⟨found, hfound⟩ := Option.ne_none_iff_exists'.1 hthere
    exact hleaf (Option.some.inj (hentry.symm.trans (wf.isDirectory_of_append hmore hfound)))
  rw [List.append_nil, hentry]
  exact ⟨job, hmem, by rw [hplace, hjob.eq]; rfl, fun hdir => hleaf (Option.some.inj hdir)⟩

/-- Jobs whose invocations all fail and write nothing to the auxiliary directory fail, and leave the directory as it
was, except that no file or link needs to stay where the output of a job is expected. -/
theorem runJobs_keeps_uncompiled (wf : world.files.WellFormed)
    (haux : world.files.resolve true settings.auxDir = .ok (.found dir .directory))
    (hjobs : ∀ job ∈ jobs, ∃ name, IsJob settings root job name)
    (hcompiler : Fruitless compiler world.files settings.auxDir dir) (modPrefix : String) :
    match runJobs compiler settings modPrefix jobs world with
    | .ok runs ended => runs.map (·.job) = jobs ∧ (∀ run ∈ runs, ∃ e, run.result = .error e)
        ∧ ∀ place, dir <+: place → (∀ job ∈ jobs, place = dir ++ [job.targetName] →
            world.files.entry? place = none ∨ world.files.entry? place = some .directory) →
          ended.files.entry? place = world.files.entry? place
    | .error _ ended => ∀ place, dir <+: place → ended.files.entry? place = world.files.entry? place := by
  have hkept := mapM_fruitless hcompiler modPrefix jobs
  have hstart : Alike (fun place => ¬ Holds world.files settings.auxDir dir place) world.files world.files :=
    ⟨rfl, fun _ _ => rfl⟩
  rcases hrun : runJobs compiler settings modPrefix jobs world with ⟨runs, ended⟩ | ⟨fault, ended⟩
  · refine ⟨runJobs_jobs hrun, ?_⟩
    obtain ⟨_, finished, hran, hrest⟩ := bind_eq_ok.1 hrun
    obtain ⟨⟨⟩, swept, hswept, hend⟩ := bind_eq_ok.1 hrest
    cases hswept
    cases hend
    obtain ⟨halike, hfailed⟩ := hkept.ok hstart hran
    refine ⟨hfailed, fun place hplace hspared => ?_⟩
    have hfinished := halike.entries place (not_not_intro (.inl hplace))
    obtain ⟨-, hleft⟩ := removeLeftovers_swept (List.Subset.refl jobs) finished
    rcases hleft.entries place with hsame | ⟨hgone, houtput⟩
    · exact hsame.trans hfinished
    · by_cases hnone : world.files.entry? place = none
      · rw [hgone, hnone]
      · obtain ⟨job, hmem, htarget, hleaf⟩ := houtput.eq_target halike wf hjobs haux hnone
        rcases hspared job hmem htarget with hvacant | hdir
        · exact absurd hvacant hnone
        · exact absurd hdir hleaf
  · rcases bind_eq_error.1 hrun with hran | ⟨_, _, -, hrest⟩
    · exact fun place hplace => (hkept.error hstart hran).entries place (not_not_intro (.inl hplace))
    · cases hrest

/-- A compiler that is not there. -/
def missingCompiler : Compiler := fun _ _ world => (.notStarted .notFound, world)

theorem missingCompiler_fruitless (fs : FileSystem) (path : Path) (dir : Location) :
    Fruitless missingCompiler fs path dir := by
  rintro invocation limit world halike
  refine ⟨?_, halike⟩
  rintro ⟨output, errors, hending⟩
  cases hending

/-- A directory with one script has one job. -/
theorem discoverJobs_eq_singleton {auxDir : Path} {name : String}
    (haux : fs.resolve true auxDir = .ok (.found dir .directory))
    (h : ((fs.listed dir).map (·.1)).filter (fun name => isScriptName name && fs.holdsFile (auxDir.child name)) = [name])
    (root : Path) : discoverJobs fs auxDir root = .ok [Job.ofName auxDir (root.child scriptDir) name] :=
  discoverJobs_of_perm haux (h ▸ .refl _) (List.pairwise_singleton _ _) root

/-- A script that cannot be compiled leaves its directory as it was. -/
theorem runJobs_keeps_uncompiled_fooProject :
    discoverJobs fooProject (hereSettings "deploy").auxDir ⟨"./deploy"⟩ = .ok [fooJob]
    ∧ ∃ runs ended, runJobs missingCompiler (hereSettings "deploy") "m" [fooJob] { files := fooProject }
        = .ok runs ended
      ∧ (∀ run ∈ runs, ∃ e, run.result = .error e)
      ∧ ∀ place, ["w", "extra_lua"] <+: place → ended.files.entry? place = fooProject.entry? place := by
  have wf : ({ files := fooProject } : World).files.WellFormed := fooProject_beside.wellFormed
  have haux : ({ files := fooProject } : World).files.resolve true (hereSettings "deploy").auxDir
      = .ok (.found ["w", "extra_lua"] .directory) :=
    resolve_of_canonical? (by decide +kernel : fooProject.holdsDirectory (hereSettings "deploy").auxDir = true)
      canonical?_fooProject
  have hjobs : ∀ job ∈ [fooJob], ∃ name, IsJob (hereSettings "deploy") ⟨"./deploy"⟩ job name := by
    intro job hmem
    rw [List.mem_singleton.1 hmem]
    exact ⟨"foo.ts", by decide, by decide, by decide⟩
  have hran : endsIn (fun _ _ => true)
      (runJobs missingCompiler (hereSettings "deploy") "m" [fooJob] { files := fooProject }) = true := by
    decide +kernel
  obtain ⟨runs, ended, hrun, -⟩ := exists_of_endsIn hran
  have hkeeps := runJobs_keeps_uncompiled wf haux hjobs (missingCompiler_fruitless _ _ _) "m"
  rw [hrun] at hkeeps
  obtain ⟨-, hfailed, hkept⟩ := hkeeps
  refine ⟨discoverJobs_eq_singleton haux (by decide +kernel) _, runs, ended, hrun, hfailed, fun place hplace => hkept place hplace fun job hmem htarget => ?_⟩
  rw [htarget, List.mem_singleton.1 hmem]
  exact .inl (by decide +kernel)

/-- A project with a file by hand where the output of its script is expected. -/
def handwrittenProject : FileSystem :=
  ofEntries ⟨"/w"⟩ (fooEntries ++ [(["w", "extra_lua", "foo.lua"], .file "mine".toUTF8)])

/-- The sweep removes a file that no invocation has written. -/
theorem runJobs_removes_handwritten :
    discoverJobs handwrittenProject (hereSettings "deploy").auxDir ⟨"./deploy"⟩ = .ok [fooJob]
    ∧ (∀ invocation limit world, missingCompiler invocation limit world = (.notStarted .notFound, world))
    ∧ handwrittenProject.entry? ["w", "extra_lua", "foo.lua"] = some (.file "mine".toUTF8)
    ∧ ∃ runs ended, runJobs missingCompiler (hereSettings "deploy") "m" [fooJob] { files := handwrittenProject }
        = .ok runs ended
      ∧ runs.map (·.deployed?) = [none] ∧ ended.files.entry? ["w", "extra_lua", "foo.lua"] = none := by
  have htest : endsIn (fun runs ended => runs.map (·.deployed?) == [none]
        && ended.files.entry? ["w", "extra_lua", "foo.lua"] == none)
      (runJobs missingCompiler (hereSettings "deploy") "m" [fooJob] { files := handwrittenProject }) = true := by
    decide +kernel
  obtain ⟨runs, ended, hrun, htest⟩ := exists_of_endsIn htest
  simp only [Bool.and_eq_true, beq_iff_eq] at htest
  have haux : handwrittenProject.resolve true (hereSettings "deploy").auxDir
      = .ok (.found ["w", "extra_lua"] .directory) :=
    resolve_of_canonical? (by decide +kernel) (by decide +kernel)
  exact ⟨discoverJobs_eq_singleton haux (by decide +kernel) _, fun _ _ _ => rfl, by decide +kernel, runs, ended, hrun,
    htest.1, htest.2⟩

end AuxScript

end ModPackager
