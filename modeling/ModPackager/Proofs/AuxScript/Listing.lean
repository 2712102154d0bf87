import ModPackager.Proofs.AuxScript.Discovery
import ModPackager.Proofs.Path.Order
import ModPackager.Proofs.Text.Bytes

/-!
# What is discovered in a directory

Discovering finds one job for each script that the directory lists, in strictly ascending order of the bytes of their
names, whatever the order in which they are listed (`discoverJobs_exact`). No two jobs write to the same path, and
none of them writes to the path of a script.
-/

namespace ModPackager

open FileSystem FileAction

variable {fs : FileSystem} {auxDir root : Path} {dir : Location} {name : String} {listing : List String}

/-! ### Scripts among names -/

/-- A name is that of a script if it begins with no point and ends as a script and not as a declaration file. -/
theorem isScriptName_iff : isScriptName name = true ↔ name.toList.head? ≠ some '.' ∧ ".ts".toList <:+ name.toList
    ∧ ¬ ".d.ts".toList <:+ name.toList := by
  have hending : ∀ ending : String, (Text.dropEnding? name ending).isSome ↔ ending.toList <:+ name.toList := by
    intro ending
    simp only [Option.isSome_iff_exists, Text.dropEnding?_eq_some_iff, ← String.toList_inj, String.toList_append]
    constructor
    · rintro ⟨stem, hstem⟩
      exact ⟨stem.toList, hstem.symm⟩
    · rintro ⟨stem, hstem⟩
      exact ⟨String.ofList stem, by rw [String.toList_ofList, hstem]⟩
  simp only [isScriptName, Bool.and_eq_true, bne_iff_ne, hending, Option.isNone_iff_eq_none, and_assoc]
  rw [← Option.not_isSome_iff_eq_none, hending]

/-- The jobs of the scripts among the names that a directory lists, in whatever order. -/
def jobsListed (fs : FileSystem) (auxDir root : Path) (listing : List String) : List Job :=
  ((listing.filter fun name => isScriptName name && fs.holdsFile (auxDir.child name)).mergeSort fun a b => a ≤ b).map
    (Job.ofName auxDir (root.child scriptDir))

/-- The order in which names are listed does not matter. -/
theorem jobsListed_of_perm {others : List String} (h : listing.Perm others) :
    jobsListed fs auxDir root listing = jobsListed fs auxDir root others := by
  rw [jobsListed, jobsListed, Glob.mergeSort_eq_of_perm (h.filter _)]

theorem discoverJobs_of_resolve (haux : fs.resolve true auxDir = .ok (.found dir .directory)) (root : Path) :
    discoverJobs fs auxDir root = .ok (jobsListed fs auxDir root (fs.names dir)) := by
  simp only [discoverJobs, holdsDirectory_iff.2 ⟨_, haux⟩, if_true, readNames_eq, lookup_eq_ok_iff.2 haux, jobsListed]

/-- The jobs that are found are those of scripts that are listed and lead to a file. -/
theorem mem_jobsListed {job : Job} : job ∈ jobsListed fs auxDir root listing ↔
    job = .ofName auxDir (root.child scriptDir) job.fileName ∧ job.fileName ∈ listing
      ∧ isScriptName job.fileName = true ∧ fs.holdsFile (auxDir.child job.fileName) = true := by
  simp only [jobsListed, List.mem_map, List.mem_mergeSort, List.mem_filter, Bool.and_eq_true]
  constructor
  · rintro ⟨name, hname, rfl⟩
    exact ⟨rfl, hname⟩
  · rintro ⟨heq, hname⟩
    exact ⟨job.fileName, hname, heq.symm⟩

theorem exists_mem_jobsListed : (∃ job ∈ jobsListed fs auxDir root listing, job.fileName = name) ↔
    name ∈ listing ∧ isScriptName name = true ∧ fs.holdsFile (auxDir.child name) = true := by
  simp only [mem_jobsListed]
  constructor
  · rintro ⟨job, ⟨-, hlisted⟩, rfl⟩
    exact hlisted
  · exact fun h => ⟨.ofName auxDir (root.child scriptDir) name, ⟨rfl, h⟩, rfl⟩

/-- Names listed once come in strictly ascending order. -/
theorem pairwise_jobsListed (h : listing.Nodup) :
    (jobsListed fs auxDir root listing).Pairwise fun a b => a.fileName < b.fileName := by
  have hnodup : ((listing.filter fun name => isScriptName name && fs.holdsFile (auxDir.child name)).mergeSort
      fun a b => a ≤ b).Nodup := (List.mergeSort_perm _ _).nodup_iff.2 (h.filter _)
  refine List.pairwise_map.2 (((Glob.pairwise_mergeSort_names _).and hnodup).imp fun {a b} hab => ?_)
  exact Std.lt_of_le_of_ne hab.1 hab.2

/-! ### Discovering -/

/-- The jobs found in a directory are exactly those of its scripts, and keep out of each other's way. -/
structure Discovered (fs : FileSystem) (auxDir root : Path) (dir : Location) (jobs : List Job) : Prop where
  /-- There is a job for an entry just if its name begins with no point and ends as a script and not as a declaration
  file, and a file is there, links followed. -/
  exact : ∀ name, (∃ job ∈ jobs, job.fileName = name) ↔ (fs.entry? (dir ++ [name])).isSome
    ∧ name.toList.head? ≠ some '.' ∧ ".ts".toList <:+ name.toList ∧ ¬ ".d.ts".toList <:+ name.toList
    ∧ ∃ place contents, fs.resolve true (auxDir.child name) = .ok (.found place (.file contents))
  source : ∀ job ∈ jobs, job.source = auxDir.child job.fileName
  output : ∀ job ∈ jobs, job.output = auxDir.child job.targetName
  ascending : jobs.Pairwise fun a b => Text.bytes a.fileName < Text.bytes b.fileName
  listed : ∀ listing, listing.Perm (fs.names dir) → jobsListed fs auxDir root listing = jobs
  outputs : jobs.Pairwise fun a b => a.output.components ≠ b.output.components
  apart : ∀ job ∈ jobs, ∀ other ∈ jobs, job.output.components ≠ other.source.components
  deployed : ∀ job ∈ jobs, job.deployPath.components
    = root.components ++ [.normal scriptDir, .normal job.targetName]
  deployPaths : jobs.Pairwise fun a b => a.deployPath.components ≠ b.deployPath.components

/-- So it is with the jobs among the names of a directory. -/
theorem discovered_jobsListed (wf : fs.WellFormed) (auxDir root : Path) (dir : Location) :
    Discovered fs auxDir root dir (jobsListed fs auxDir root (fs.names dir)) := by
  generalize hjobs : jobsListed fs auxDir root (fs.names dir) = jobs
  have hmem : ∀ job ∈ jobs, job = .ofName auxDir (root.child scriptDir) job.fileName ∧ ValidName job.fileName
      ∧ isScriptName job.fileName = true := by
    intro job hjob
    rw [← hjobs, mem_jobsListed] at hjob
    obtain ⟨entry, hentry⟩ := Option.isSome_iff_exists.1 (mem_names.1 hjob.2.1)
    exact ⟨hjob.1, wf.validName hentry, hjob.2.2.1⟩
  have hascending : jobs.Pairwise fun a b => a.fileName < b.fileName := hjobs ▸ pairwise_jobsListed (wf.nodup_names _)
  have hsource : ∀ job ∈ jobs, job.source = auxDir.child job.fileName := fun job hjob => by
    rw [(hmem job hjob).1, Job.ofName]
  have houtput : ∀ job ∈ jobs, job.output = auxDir.child job.targetName := fun job hjob => by
    rw [(hmem job hjob).1, Job.ofName, Job.targetName]
  have hdeployed : ∀ job ∈ jobs, job.deployPath = (root.child scriptDir).child job.targetName := fun job hjob => by
    rw [(hmem job hjob).1, Job.ofName, Job.targetName]
  -- Different scripts are compiled into files of different names, and no such name is that of a script.
  have htarget : ∀ {a b}, a ∈ jobs → b ∈ jobs → a.fileName < b.fileName → ∀ base : Path,
      (base.child a.targetName).components ≠ (base.child b.targetName).components := by
    intro a b ha hb hab base
    obtain ⟨-, hvalid, hscript⟩ := hmem a ha
    obtain ⟨-, hvalid', hscript'⟩ := hmem b hb
    refine Path.components_child_ne base (scriptTarget_plain hvalid) (scriptTarget_plain hvalid') fun heq => ?_
    exact String.lt_irrefl _ (scriptTarget_inj hscript hscript' heq ▸ hab)
  have hapart : ∀ job ∈ jobs, ∀ other ∈ jobs,
      (auxDir.child job.targetName).components ≠ (auxDir.child other.fileName).components := by
    intro job hjob other hother
    obtain ⟨-, hvalid, -⟩ := hmem job hjob
    obtain ⟨-, ⟨hne, hdot, hup, hslash, -⟩, hscript⟩ := hmem other hother
    refine Path.components_child_ne auxDir (scriptTarget_plain hvalid) ⟨hne, hdot, hup, hslash⟩ fun heq => ?_
    rw [← heq, Job.targetName, isScriptName_scriptTarget] at hscript
    cases hscript
  constructor
  case exact =>
    intro name
    rw [← hjobs, exists_mem_jobsListed, mem_names, isScriptName_iff, holdsFile_iff, and_assoc, and_assoc]
  case source => exact hsource
  case output => exact houtput
  case ascending => exact hascending.imp Text.bytes_lt
  case listed => exact fun listing hlisting => hjobs ▸ jobsListed_of_perm hlisting
  case outputs =>
    refine hascending.imp_of_mem fun {a b} ha hb hab => ?_
    rw [houtput a ha, houtput b hb]
    exact htarget ha hb hab auxDir
  case apart =>
    intro job hjob other hother
    rw [houtput job hjob, hsource other hother]
    exact hapart job hjob other hother
  case deployed =>
    intro job hjob
    obtain ⟨hne, hdot, hup, hslash⟩ := scriptTarget_plain (hmem job hjob).2.1
    rw [hdeployed job hjob, Job.targetName, Path.components_child_name _ hne hdot hup hslash,
      Path.components_child_name root (by decide) (by decide) (by decide) (by decide), List.append_assoc]
    rfl
  case deployPaths =>
    refine hascending.imp_of_mem fun {a b} ha hb hab => ?_
    rw [hdeployed a ha, hdeployed b hb]
    exact htarget ha hb hab _

/-- Scripts among other entries: a hidden one, a declaration file, a compiled script, a directory named like a script,
a link to a script and one to nothing. -/
def mixedScripts : FileSystem :=
  ofEntries ⟨"/w"⟩ [(["w"], .directory), (["w", "x"], .directory), (["w", "x", "a.ts.ts"], .file ByteArray.empty),
    (["w", "x", "a.ts"], .file ByteArray.empty), (["w", "x", "a.lua.ts"], .file ByteArray.empty),
    (["w", "x", "a.lua"], .file ByteArray.empty), (["w", "x", ".a.ts"], .file ByteArray.empty),
    (["w", "x", "a.d.ts"], .file ByteArray.empty), (["w", "x", "b.ts"], .directory),
    (["w", "x", "l.ts"], .link "a.ts"), (["w", "x", "n.ts"], .link "nothing")]

end ModPackager
