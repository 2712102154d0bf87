import Mathlib.Data.List.Nodup
import ModPackager.Proofs.AuxScript.Placing

/-!
# Report, manifest and files agree

Jobs run one after another, and each finds in the auxiliary directory what the compiler has made of all scripts
by then. What is told of one of them (`Agrees`) is told of all (`mapM_places`, by induction on the jobs): a shelf
goes from one job to the next, and it tells which scripts are in place. No two jobs have the same place, so none
of them writes over what another one has deployed. Sweeping up the outputs and writing the manifest leave the
scripts in place as well, which gives the whole (`transpile_agrees`).
-/

namespace ModPackager

open FileSystem FileAction Deploy

variable {fs fs' : FileSystem} {root : Path} {settings : Settings} {modPrefix : String} {jobs : List Job}
  {run : JobRun} {runs : List JobRun} {scripts : List (String × ByteArray)} {world world' start stop : World}
  {compiler : Compiler} {holds : List (String × ByteArray) → FileSystem → Prop} {changed : Location → Prop}
  {placed placed' : Job → ByteArray → Prop}

namespace AuxScript

/-! ### Jobs -/

/-- A run of a job agrees with the files: one that failed has changed nothing but some places, and one that
succeeded has placed what it had to deploy. -/
def Agrees (compiler : Compiler) (settings : Settings) (modPrefix : String) (changed : Location → Prop)
    (placed : Job → ByteArray → Prop) (run : JobRun) (start stop : World) : Prop :=
  runJob compiler settings modPrefix run.job start = .ok run stop ∧
    match run.result with
    | .error _ => Grows changed start.files stop.files
    | .ok deployed => deployed = run.job.targetName
        ∧ ∃ contents, Yields compiler settings modPrefix run.job start contents ∧ placed run.job contents

theorem Agrees.mono (h : Agrees compiler settings modPrefix changed placed run start stop)
    (hmore : ∀ {contents}, placed run.job contents → placed' run.job contents) :
    Agrees compiler settings modPrefix changed placed' run start stop := by
  unfold Agrees at h ⊢
  refine h.imp_right fun h => ?_
  split at h
  · exact h
  · exact h.imp_right fun ⟨contents, hyields, hplaced⟩ => ⟨contents, hyields, hmore hplaced⟩

/-- Runs that follow on one another agree with the files, each in the worlds that it is between. -/
def AllAgree (compiler : Compiler) (settings : Settings) (modPrefix : String) (changed : Location → Prop)
    (placed : Job → ByteArray → Prop) (runs : List JobRun) (first : World) : Prop :=
  ∀ before run after, runs = before ++ run :: after → ∃ start stop,
    (before.map (·.job)).mapM (runJob compiler settings modPrefix) first = .ok before start
      ∧ Agrees compiler settings modPrefix changed placed run start stop

theorem AllAgree.mono (h : AllAgree compiler settings modPrefix changed placed runs world)
    (hmore : ∀ run ∈ runs, ∀ contents, placed run.job contents → placed' run.job contents) :
    AllAgree compiler settings modPrefix changed placed' runs world := by
  intro before run after hruns
  obtain ⟨start, stop, hbefore, hagrees⟩ := h before run after hruns
  exact ⟨start, stop, hbefore, hagrees.mono (hmore run (by simp [hruns]) _)⟩

theorem AllAgree.nil : AllAgree compiler settings modPrefix changed placed [] world := by
  intro before run after hruns
  simp at hruns

theorem AllAgree.cons (h : Agrees compiler settings modPrefix changed placed run world world')
    (hrest : AllAgree compiler settings modPrefix changed placed runs world') :
    AllAgree compiler settings modPrefix changed placed (run :: runs) world := by
  intro before other after hruns
  cases before with
  | nil =>
      obtain ⟨rfl, -⟩ := List.cons.inj hruns
      exact ⟨world, world', rfl, h⟩
  | cons first before =>
      obtain ⟨rfl, htail⟩ := List.cons.inj hruns
      obtain ⟨start, stop, hbefore, hagrees⟩ := hrest before other after htail
      refine ⟨start, stop, ?_, hagrees⟩
      rw [List.map_cons, List.mapM_cons]
      exact bind_eq_ok.2 ⟨run, world', h.1, bind_eq_ok.2 ⟨before, start, hbefore, rfl⟩⟩

/-- What is deployed are the targets of the jobs that succeeded. -/
theorem AllAgree.deployed_eq (h : AllAgree compiler settings modPrefix changed placed runs world) :
    runs.filterMap (·.deployed?) = (runs.filter (·.step.outcome == .success)).map (·.job.targetName) := by
  have htargets : ∀ run ∈ runs, ∀ deployed, run.result = .ok deployed → deployed = run.job.targetName := by
    intro run hmem deployed hresult
    obtain ⟨before, after, hruns⟩ := List.append_of_mem hmem
    obtain ⟨start, stop, -, -, hagrees⟩ := h before run after hruns
    rw [hresult] at hagrees
    exact hagrees.1
  clear h
  induction runs with
  | nil => rfl
  | cons run rest ih =>
      have hrest := ih fun other hmem => htargets other (List.mem_cons_of_mem _ hmem)
      rcases hresult : run.result with e | deployed
      · rw [List.filterMap_cons_none (JobRun.deployed?_eq_none_iff.2 ⟨e, hresult⟩),
          List.filter_cons_of_neg (by simp [JobRun.step, hresult]), hrest]
      · obtain rfl := htargets run List.mem_cons_self deployed hresult
        rw [List.filterMap_cons_some (JobRun.deployed?_eq_some_iff.2 hresult),
          List.filter_cons_of_pos (by simp [JobRun.step, hresult]), List.map_cons, hrest]

section Shelves

variable (shelf : Shelf fs root settings holds) (beside : Beside fs root settings)
  (hjobs : ∀ job ∈ jobs, ∃ dir name, fs.resolve true settings.auxDir = .ok (.found dir .directory)
    ∧ IsJob settings root job name)

include shelf beside hjobs

/-- Jobs with different targets agree with the files, and what was in place stays. -/
theorem mapM_places (hcompiler : Builds compiler fs root settings) (hdistinct : (jobs.map (·.targetName)).Nodup)
    (hfresh : ∀ job ∈ jobs, ∀ script ∈ scripts, script.1 ≠ job.targetName) (h : holds scripts world.files)
    (hpending : world.pending = []) (hrun : jobs.mapM (runJob compiler settings modPrefix) world = .ok runs world') :
    world'.pending = []
      ∧ (runs.filterMap (·.deployed?) = [] → Grows (Product fs settings) world.files world'.files)
      ∧ ∃ shelved, holds shelved world'.files ∧ scripts ⊆ shelved
        ∧ AllAgree compiler settings modPrefix (Product fs settings)
          (fun job contents => (job.targetName, contents) ∈ shelved) runs world := by
  induction jobs generalizing scripts world runs with
  | nil =>
      cases hrun
      exact ⟨hpending, fun _ => .refl _, scripts, h, List.Subset.refl _, .nil⟩
  | cons job rest ih =>
      rw [List.mapM_cons] at hrun
      obtain ⟨run, between, hfirst, hrest⟩ := bind_eq_ok.1 hrun
      obtain ⟨later, ended, hlater, hend⟩ := bind_eq_ok.1 hrest
      cases hend
      obtain ⟨dir, name, haux, hjob⟩ := hjobs job List.mem_cons_self
      obtain ⟨hnotin, hlaterDistinct⟩ := List.nodup_cons.1 hdistinct
      have hname := hjob.targetName_eq
      obtain ⟨rfl, hbetween, hplaces⟩ := runJob_places shelf beside haux hjob hcompiler
        (fun script hmem => hname ▸ hfresh _ List.mem_cons_self script hmem) h hpending hfirst
      have hrests := fun other hmem => hjobs other (List.mem_cons_of_mem _ hmem)
      have holder : ∀ other ∈ rest, ∀ script ∈ scripts, script.1 ≠ other.targetName := fun other hmem =>
        hfresh other (List.mem_cons_of_mem _ hmem)
      rcases hplaces with ⟨⟨e, hresult⟩, hholds, hgrows⟩ | ⟨hresult, contents, hyields, hholds⟩
      · obtain ⟨hended, hnone, shelved, hshelved, hsubset, hagree⟩ :=
          ih hrests hlaterDistinct holder hholds hbetween hlater
        refine ⟨hended, fun hdeployed => hgrows.trans (hnone ?_), shelved, hshelved, hsubset, .cons ?_ hagree⟩
        · rwa [List.filterMap_cons_none (JobRun.deployed?_eq_none_iff.2 ⟨e, hresult⟩)] at hdeployed
        · refine ⟨hfirst, ?_⟩
          rw [hresult]
          exact hgrows
      · have hnewer : ∀ other ∈ rest, ∀ script ∈ (scriptTarget name, contents) :: scripts,
            script.1 ≠ other.targetName := by
          intro other hmem script hscript
          rcases List.mem_cons.1 hscript with rfl | hscript
          · exact fun heq => hnotin (List.mem_map.2 ⟨other, hmem, heq.symm.trans hname.symm⟩)
          · exact holder other hmem script hscript
        obtain ⟨hended, -, shelved, hshelved, hsubset, hagree⟩ :=
          ih hrests hlaterDistinct hnewer hholds hbetween hlater
        have hin : (run.job.targetName, contents) ∈ shelved := hname ▸ hsubset List.mem_cons_self
        refine ⟨hended, fun hdeployed => ?_, shelved, hshelved,
          fun script hmem => hsubset (List.mem_cons_of_mem _ hmem), .cons ?_ hagree⟩
        · rw [List.filterMap_cons_some (JobRun.deployed?_eq_some_iff.2 hresult)] at hdeployed
          cases hdeployed
        · refine ⟨hfirst, ?_⟩
          rw [hresult]
          exact ⟨rfl, contents, hyields, hin⟩

/-- Sweeping up the outputs changes products only. -/
theorem removeLeftovers_places (start : FileSystem)
    (h : holds scripts world.files ∧ Grows (Product fs settings) start world.files) :
    holds scripts (jobs.foldl (fun world job => removeLeftover job world) world).files
      ∧ Grows (Product fs settings) start (jobs.foldl (fun world job => removeLeftover job world) world).files := by
  refine List.foldlRecOn (motive := fun world : World =>
    holds scripts world.files ∧ Grows (Product fs settings) start world.files) jobs _ h fun world h job hmem => ?_
  obtain ⟨dir, name, haux, hjob⟩ := hjobs job hmem
  unfold removeLeftover
  split
  · split
    next hremove => exact ((removeOutput_places shelf beside haux hjob start).ok h hremove).1
    · exact h
  · exact h

/-- Running all jobs agrees with the files, and what was in place stays. -/
theorem runJobs_places (hcompiler : Builds compiler fs root settings) (hdistinct : (jobs.map (·.targetName)).Nodup)
    (h : holds [] world.files) (hpending : world.pending = [])
    (hrun : runJobs compiler settings modPrefix jobs world = .ok runs world') :
    (runs.filterMap (·.deployed?) = [] → Grows (Product fs settings) world.files world'.files)
      ∧ ∃ shelved, holds shelved world'.files
        ∧ AllAgree compiler settings modPrefix (Product fs settings)
          (fun job contents => (job.targetName, contents) ∈ shelved) runs world := by
  obtain ⟨runs', ran, hran, hrest⟩ := bind_eq_ok.1 hrun
  obtain ⟨⟨⟩, swept, hsweep, hend⟩ := bind_eq_ok.1 hrest
  cases hsweep
  cases hend
  obtain ⟨-, hgrows, shelved, hshelved, -, hagree⟩ :=
    mapM_places shelf beside hjobs hcompiler hdistinct (fun _ _ _ hmem => absurd hmem (by simp)) h hpending hran
  obtain ⟨hholds, hsweeps⟩ := removeLeftovers_places shelf beside hjobs ran.files ⟨hshelved, .refl _⟩
  exact ⟨fun hdeployed => (hgrows hdeployed).trans hsweeps, shelved, hholds, hagree⟩

end Shelves

/-! ### The whole directory -/

/-- Whatever the auxiliary directory is, its jobs are discovered, and no two of them have the same target. -/
theorem exists_jobs (wf : fs.WellFormed) (settings : Settings) (root : Path) :
    ∃ jobs, discoverJobs fs settings.auxDir root = .ok jobs ∧ (jobs.map (·.targetName)).Nodup := by
  unfold discoverJobs
  split
  next haux =>
      obtain ⟨dir, hresolve⟩ := holdsDirectory_iff.1 haux
      simp only [readNames_eq, lookup_eq_ok_iff.2 hresolve]
      refine ⟨_, rfl, ?_⟩
      rw [List.map_map]
      refine List.Nodup.map_on ?_ ?_
      · intro name hname other hother heq
        simp only [List.mem_mergeSort, List.mem_filter, Bool.and_eq_true] at hname hother
        exact scriptTarget_inj hname.2.1 hother.2.1 heq
      · exact (List.mergeSort_perm _ _).nodup_iff.2 ((wf.nodup_names dir).filter _)
  · exact ⟨[], rfl, List.nodup_nil⟩

section Reading

variable {name : String} {job : Job} {contents : ByteArray} (shelf : Shelf fs root settings holds)
  (h : holds scripts fs') (hjob : IsJob settings root job name) (hmem : (job.targetName, contents) ∈ scripts)

include shelf h hjob hmem

/-- What is on a shelf is found on the path of its job. -/
theorem resolve_shelved :
    ∃ dir, fs'.resolve true job.deployPath = .ok (.found (dir ++ [job.targetName]) (.file contents)) := by
  have hpath : job.deployPath = (root.child scriptDir).child job.targetName := by
    rw [hjob.targetName_eq, hjob.deployPath_eq]
  rw [hpath]
  exact shelf.read h hmem

theorem readBytes_shelved : readBytes job.deployPath fs' = .ok contents fs' := by
  obtain ⟨dir, hfound⟩ := resolve_shelved shelf h hjob hmem
  rw [readBytes_eq, lookup_eq_ok_iff.2 hfound]

/-- So it is once the manifest is written, unless that is a link. -/
theorem readBytes_shelved_of_writeFile {text : String}
    (hlink : isLink (writeFile ((root.child lovelyDir).child manifestName) text fs').2
      ((root.child lovelyDir).child manifestName) = false) :
    readBytes job.deployPath (writeFile ((root.child lovelyDir).child manifestName) text fs').2
      = .ok contents (writeFile ((root.child lovelyDir).child manifestName) text fs').2 := by
  obtain ⟨dir, hfound⟩ := resolve_shelved shelf h hjob hmem
  have hstays := writeFile_spares validName_manifestName (Path.text_child_ne (by decide) (by decide))
    (scriptTarget_ne_manifestName job.fileName) hfound hlink
  rw [readBytes_eq, lookup_eq_ok_iff.2 hstays]

end Reading

/-- A script, and a directory to deploy it to. -/
def fooEntries : List (Location × Entry) :=
  [(["w"], .directory), (["w", "extra_lua"], .directory), (["w", "extra_lua", "foo.ts"], .file ByteArray.empty),
    (["w", "deploy"], .directory)]

def fooProject : FileSystem := ofEntries ⟨"/w"⟩ fooEntries

/-- The job of the script. -/
def fooJob : Job := Job.ofName ⟨"./extra_lua"⟩ ⟨"./deploy/extra_lua"⟩ "foo.ts"

/-- A compiler that writes the compiled script, unless there is no place for it. -/
def fooWriter : Compiler := fun _ _ world =>
  if world.files.entry? ["w", "extra_lua"] = some .directory
      ∧ world.files.entry? ["w", "extra_lua", "foo.lua"] ≠ some .directory then
    (.exited (.code 0) "" "", { world with
      files := world.files.put ["w", "extra_lua", "foo.lua"] (.file "y".toUTF8) })
  else (.exited (.code 1) "" "", world)

/-- Where the scripts of the project are to lie. -/
def fooSite : Site fooProject ((⟨"./deploy"⟩ : Path).child scriptDir) where
  known := ["w", ".", "deploy"]
  missing := [scriptDir]
  base := ["w", "deploy"]
  namesTo_eq := by decide +kernel
  leads := leadsTo_of_canonical? (by decide +kernel : fooProject.holdsDirectory ⟨"./deploy"⟩ = true)
    (by decide +kernel)
  noParent := by decide
  absent := by
    rintro name rest hmissing
    cases hmissing
    decide +kernel

theorem fooProject_unlinked (place : Location) (text : String) : fooProject.entry? place ≠ some (.link text) :=
  ofEntries_unlinked (by decide) place text

theorem canonical?_fooProject : fooProject.canonical? (hereSettings "deploy").auxDir = some ["w", "extra_lua"] := by
  decide +kernel

theorem product_fooProject {place : Location} (h : Product fooProject (hereSettings "deploy") place) :
    Beneath ["w", "extra_lua"] place := by
  obtain ⟨dir, name, below, hdir, -, rfl⟩ := h
  obtain rfl := Option.some.inj (hdir.symm.trans canonical?_fooProject)
  exact beneath_iff.2 ⟨name :: below, by simp, rfl⟩

theorem fooProject_beside : Beside fooProject ⟨"./deploy"⟩ (hereSettings "deploy") where
  wellFormed := by decide +kernel
  parents := by
    intro before after hnames
    have hparent : ".." ∉ fooProject.namesTo ((⟨"./deploy"⟩ : Path).child scriptDir) := by decide +kernel
    exact absurd (hnames ▸ by simp) hparent
  outside := by
    intro dir hdir
    have hnone : fooProject.canonical? ((⟨"./deploy"⟩ : Path).child scriptDir) = none := by decide +kernel
    have hfound := resolve_eq_ok_iff.2 ⟨⟨by decide, by decide, by decide⟩, hdir.of_slash⟩
    rw [canonical?_eq_some_iff.2 ⟨_, hfound⟩] at hnone
    cases hnone
  unlinked := fun _ place text _ => fooProject_unlinked place text
  apart := by
    intro dir hdir site
    obtain rfl := Option.some.inj (hdir.symm.trans canonical?_fooProject)
    rw [fooSite.dir_unique site]
    decide
  rootWay := by
    intro place hplace hproduct
    have haway : ∀ place ∈ fooProject.way ((⟨"./deploy"⟩ : Path).child scriptDir),
        ¬ Beneath ["w", "extra_lua"] place := by decide +kernel
    exact haway place hplace (product_fooProject hproduct)
  auxWay := by
    intro place hplace htouched
    have haway : ∀ place ∈ fooProject.way (hereSettings "deploy").auxDir,
        ¬ (Beneath ["w", "deploy", "extra_lua"] place
          ∨ place <+: ["w", "deploy", "extra_lua"] ∧ fooProject.entry? place = none)
        ∧ ¬ Beneath ["w", "extra_lua"] place := by decide +kernel
    obtain ⟨haffected, hproduct⟩ := haway place hplace
    rcases htouched with h | h
    · exact haffected (fooSite.affected_iff.1 h)
    · exact hproduct (product_fooProject h)

theorem fooWriter_builds : Builds fooWriter fooProject ⟨"./deploy"⟩ (hereSettings "deploy") := by
  intro invocation limit world hreach hpending
  have hproduct : Product fooProject (hereSettings "deploy") ["w", "extra_lua", "foo.lua"] :=
    ⟨["w", "extra_lua"], "foo.lua", [], canonical?_fooProject, by decide, rfl⟩
  have hchanges : Changes (Product fooProject (hereSettings "deploy")) world.files
      (fooWriter invocation limit world).2.files ∧ (fooWriter invocation limit world).2.pending = [] := by
    unfold fooWriter
    split
    next hplace =>
        exact ⟨(Changes.refl _).put ⟨["w", "extra_lua"], "foo.lua", rfl, by decide, hplace⟩ hproduct nofun, hpending⟩
    · exact ⟨.refl _, hpending⟩
  refine ⟨hchanges.1, fun place text _ hlink => ?_, hchanges.2⟩
  exact fooProject_unlinked place text (hreach.links _ _ (hchanges.1.links _ _ hlink))

/-- A project whose deploy root has a link in the place of the manifest. -/
def linkedManifest : FileSystem :=
  ofEntries ⟨"/w"⟩ (fooEntries ++ [(["w", "deploy", "lovely"], .directory),
    (["w", "deploy", "lovely", "extra_lua.toml"], .link "../extra_lua/foo.lua")])

end AuxScript

end ModPackager
