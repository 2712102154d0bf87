import ModPackager.Proofs.AuxScript.Staging
import ModPackager.Proofs.FileSystem.Alike
import ModPackager.Proofs.Glob.Reach

/-!
# The scripts of a directory

Every job that is discovered is that of a script name (`exists_name_of_discoverJobs`), and jobs of different scripts
have different stems (`stem_ne_of_discoverJobs`). In what order the directory lists its entries does not matter
(`discoverJobs_of_perm`).
-/

namespace ModPackager

open FileSystem FileAction

variable {fs : FileSystem} {auxDir root : Path} {dir : Location} {job job' : Job} {jobs : List Job}

/-- A job that is discovered is that of a script name. -/
theorem exists_name_of_discoverJobs (h : discoverJobs fs auxDir root = .ok jobs) (hjob : job ∈ jobs) :
    ∃ name, isScriptName name = true ∧ job = .ofName auxDir (root.child scriptDir) name := by
  unfold discoverJobs at h
  split at h
  · split at h
    · cases h
    · cases h
      obtain ⟨name, hname, rfl⟩ := List.mem_map.1 hjob
      obtain ⟨-, hscript⟩ := List.mem_filter.1 (List.mem_mergeSort.1 hname)
      rw [Bool.and_eq_true] at hscript
      exact ⟨name, hscript.1, rfl⟩
  · cases h
    cases hjob

/-- Different scripts have different stems. -/
theorem stem_ne_of_discoverJobs (h : discoverJobs fs auxDir root = .ok jobs) (hjob : job ∈ jobs) (hjob' : job' ∈ jobs)
    (hne : job ≠ job') : job.stem ≠ job'.stem := by
  obtain ⟨name, hname, rfl⟩ := exists_name_of_discoverJobs h hjob
  obtain ⟨name', hname', rfl⟩ := exists_name_of_discoverJobs h hjob'
  intro hstem
  have hsame : scriptStem name = scriptStem name' := hstem
  exact hne (by rw [eq_scriptStem_append hname, eq_scriptStem_append hname', hsame])

/-- The jobs of a directory are those of its scripts in the order of names, however they are listed. -/
theorem discoverJobs_of_perm {names : List String} (haux : fs.resolve true auxDir = .ok (.found dir .directory))
    (hscripts : (((fs.listed dir).map (·.1)).filter fun name =>
      isScriptName name && fs.holdsFile (auxDir.child name)).Perm names)
    (hsorted : names.Pairwise fun a b => decide (a ≤ b)) (root : Path) :
    discoverJobs fs auxDir root = .ok (names.map (.ofName auxDir (root.child scriptDir))) := by
  have hlisted : (fs.names dir).Perm ((fs.listed dir).map (·.1)) := by
    rw [names_eq_listed]
    exact (List.mergeSort_perm _ _).map _
  have hnames : (((fs.names dir).filter fun name => isScriptName name && fs.holdsFile (auxDir.child name)).mergeSort
      fun a b => a ≤ b) = names := by
    rw [Glob.mergeSort_eq_of_perm ((hlisted.filter _).trans hscripts), List.mergeSort_of_pairwise hsorted]
  simp only [discoverJobs, holdsDirectory_iff.2 ⟨_, haux⟩, if_true, readNames_eq, lookup_eq_ok_iff.2 haux, hnames]

end ModPackager
