import ModPackager.Deploy
import ModPackager.Proofs.Config.DeployRoot
import ModPackager.Proofs.FileSystem.Action

/-!
# Clearing a directory

Clearing removes entries of the directory that the root leads to, and follows no link to do so. Whatever
is still there afterwards was there before, unchanged (`Pruned`), so the root leads to the same directory
all the time and every removal falls below it (`clearDirectory_pruned`). The deploy root is no ancestor of
the directories that must be kept, so clearing it cannot reach them (`clearDirectory_keeps`).
-/

namespace ModPackager.Deploy

open FileSystem FileAction

variable {fs fs' : FileSystem} {root path : Path} {dir location place : Location}

/-! ### Steps -/

section Steps

variable {inv : FileSystem → Prop} {α : Type} {result : α → Prop}

theorem lift_maintains {action : FileAction α} (h : Maintains inv action result) :
    Maintains inv (lift action) result := by
  intro fs hfs
  have hstep := h fs hfs
  unfold lift
  rcases hrun : action fs with ⟨value, fs'⟩ | ⟨fault, fs'⟩ <;> rwa [hrun] at hstep

theorem toStep_keeps {action : DiskAction Unit} (h : Maintains inv action fun _ => True)
    (hfs : inv fs) : inv (toStep action fs).2 := by
  have hstep := h fs hfs
  unfold toStep
  rcases hrun : action fs with ⟨value, fs'⟩ | ⟨e, fs'⟩
  · rw [hrun] at hstep
    exact hstep.1
  · rw [hrun] at hstep
    exact hstep

/-- A step that does not fail has done what it stands for. -/
theorem toStep_inv {action : FileAction Unit} (h : ∀ reason, (toStep (lift action) fs).1 ≠ .failed reason) :
    action fs = .ok () (toStep (lift action) fs).2 := by
  unfold toStep lift at h ⊢
  rcases hrun : action fs with ⟨⟨⟩, later⟩ | ⟨fault, later⟩
  · simp
  · simp [hrun] at h

end Steps

/-! ### Removing entries -/

section Entries

variable {inv : FileSystem → Prop}

/-- An entry is removed as a tree or as a file. -/
theorem removeEntry_eq (fs : FileSystem) (path : Path) :
    removeEntry fs path = removeTree path ∨ removeEntry fs path = removeFile path := by
  unfold removeEntry
  split
  · exact .inl rfl
  · exact .inr rfl

theorem removeEntry_maintains (fs : FileSystem)
    (herase : ∀ {fs location entry}, inv fs → fs.resolve false path = .ok (.found location entry) →
      inv (fs.erase location)) :
    Maintains inv (removeEntry fs path) fun _ => True := by
  rcases removeEntry_eq fs path with heq | heq
  · exact heq ▸ removeTree_maintains herase
  · exact heq ▸ removeFile_maintains fun hfs hresolve _ => herase hfs hresolve

/-- Clearing keeps an invariant that is kept where an entry of the root is erased. -/
theorem clearEntries_maintains (hwf : ∀ {fs}, inv fs → fs.WellFormed)
    (herase : ∀ {fs name location entry}, inv fs → ValidName name →
      fs.resolve false (root.child name) = .ok (.found location entry) → inv (fs.erase location)) :
    Maintains inv (clearEntries root) fun _ => True := by
  unfold clearEntries
  refine Maintains.get.bind fun fs _ => ?_
  split
  · refine (readNames_maintains hwf).bind fun names hnames => Maintains.forM fun name hname => ?_
    exact Maintains.get.bind fun fs _ =>
      removeEntry_maintains fs fun hfs hresolve => herase hfs (hnames name hname) hresolve
  · exact .pure trivial

end Entries

/-! ### What is left -/

/-- Everything is as before, except that things strictly below a directory may be gone. -/
structure Pruned (dir : Location) (before after : FileSystem) : Prop where
  workingDir : after.workingDir = before.workingDir
  wellFormed : after.WellFormed
  nodes : ∀ place, after.node? place = before.node? place
    ∨ after.node? place = none ∧ dir <+: place ∧ place ≠ dir

namespace Pruned

theorem refl (wf : fs.WellFormed) : Pruned dir fs fs := ⟨rfl, wf, fun _ => .inl rfl⟩

theorem entry? (h : Pruned dir fs fs') {entry : Entry} (hentry : fs'.entry? place = some entry) :
    fs.entry? place = some entry := by
  by_cases hroot : place = []
  · simpa [hroot] using hentry
  · rw [entry?_of_ne hroot] at hentry ⊢
    rcases h.nodes place with hnode | ⟨hnode, -, -⟩
    · rwa [← hnode]
    · simp [hnode] at hentry

/-- The directory that is pruned stays where it is. -/
theorem leadsTo_unique (h : Pruned dir fs fs') {names : List String} {other : Location}
    (hdir : fs.LeadsTo names dir) (hother : fs'.LeadsTo names other) : other = dir :=
  (hdir.unique (hother.mono h.entry?)).symm

theorem erase (h : Pruned dir fs fs') {name : String} : Pruned dir fs (fs'.erase (dir ++ [name])) where
  workingDir := h.workingDir
  wellFormed := h.wellFormed.erase
  nodes := by
    intro place
    rw [node?_erase]
    split
    next hbelow =>
        refine .inr ⟨rfl, (List.prefix_append _ _).trans hbelow, ?_⟩
        rintro rfl
        exact absurd hbelow.length_le (by simp)
    · exact h.nodes place

end Pruned

/-- An entry of the root is still found in the directory that the root led to at first. -/
theorem Pruned.place_child (h : Pruned dir fs fs') {name : String} {target : Target}
    (hroot : fs.resolve true root = .ok (.found dir .directory)) (hname : ValidName name)
    (hchild : fs'.resolve false (root.child name) = .ok target) : target.place = dir ++ [name] := by
  obtain ⟨⟨-, htext, -⟩, -⟩ := resolve_eq_ok_iff.1 hroot
  obtain ⟨other, hother, hplace⟩ := FileSystem.place_child hname htext hchild
  rw [namesTo, h.workingDir, ← namesTo] at hother
  rw [hplace, h.leadsTo_unique (leadsTo_of_resolve hroot) hother]

theorem clearEntries_pruned (hroot : fs.resolve true root = .ok (.found dir .directory)) :
    Maintains (Pruned dir fs) (clearEntries root) fun _ => True := by
  refine clearEntries_maintains (fun h => h.wellFormed) fun {fs' name location entry} h hname hentry => ?_
  obtain rfl : location = dir ++ [name] := h.place_child hroot hname hentry
  exact h.erase

theorem removeEntry_inv {seen : FileSystem} (h : removeEntry seen path fs = .ok () fs') :
    ∃ location entry, fs.resolve false path = .ok (.found location entry) ∧ fs' = fs.erase location := by
  rcases removeEntry_eq seen path with heq | heq <;> rw [heq] at h
  · rw [removeTree_eq] at h
    rcases hresolve : fs.resolve false path with _ | ⟨location, entry⟩ | _
    · simp [hresolve] at h
    · cases entry <;> simp only [hresolve] at h <;> cases h <;> exact ⟨location, _, rfl, rfl⟩
    · simp [hresolve] at h
  · rw [removeFile_eq] at h
    rcases hresolve : fs.resolve false path with _ | ⟨location, entry⟩ | _
    · simp [hresolve] at h
    · cases entry <;> simp only [hresolve] at h <;> cases h <;> exact ⟨location, _, rfl, rfl⟩
    · simp [hresolve] at h

/-- Entries that are left when entries with some names were removed were there before, and have other
names. -/
theorem entry?_of_removed {now : FileSystem} {names : List String}
    (hroot : fs.resolve true root = .ok (.found dir .directory)) (hnow : Pruned dir fs now)
    (hnames : ∀ name ∈ names, ValidName name)
    (h : (names.forM fun name => do removeEntry (← get) (root.child name) : FileAction Unit) now
      = .ok () fs') {name : String} (hleft : fs'.entry? (dir ++ [name]) ≠ none) :
    name ∉ names ∧ now.entry? (dir ++ [name]) ≠ none := by
  induction names generalizing now with
  | nil =>
      cases h
      exact ⟨List.not_mem_nil, hleft⟩
  | cons first rest ih =>
      obtain ⟨⟨⟩, next, hfirst, hrest⟩ := bind_eq_ok.1 h
      obtain ⟨location, entry, hresolve, rfl⟩ := removeEntry_inv hfirst
      obtain rfl : location = dir ++ [first] := hnow.place_child hroot (hnames first (by simp)) hresolve
      obtain ⟨hnotMem, hthere⟩ :=
        ih hnow.erase (fun other hother => hnames other (List.mem_cons_of_mem _ hother)) hrest
      have hne : name ≠ first := by
        rintro rfl
        simp [entry?_erase] at hthere
      refine ⟨by simp [hne, hnotMem], fun hnone => hthere ?_⟩
      rw [entry?_erase, hnone, ite_self]

/-- Clearing a directory removes its entries one by one. -/
theorem clearEntries_eq (hroot : fs.resolve true root = .ok (.found dir .directory)) : clearEntries root fs
    = ((fs.names dir).forM fun name => do removeEntry (← get) (root.child name) : FileAction Unit) fs := by
  have hdirectory : fs.holdsDirectory root = true := holdsDirectory_iff.2 ⟨dir, hroot⟩
  have hlist : readNames root fs = .ok (fs.names dir) fs := by
    rw [readNames_eq, lookup_eq_ok_iff.2 hroot]
  unfold clearEntries
  simp only [bind, EStateM.bind, run_get, hdirectory, if_true, hlist]

/-- Clearing that succeeds leaves nothing in the directory. -/
theorem clearEntries_empties (wf : fs.WellFormed)
    (hroot : fs.resolve true root = .ok (.found dir .directory))
    (h : clearEntries root fs = .ok () fs') (name : String) : fs'.entry? (dir ++ [name]) = none := by
  by_contra hleft
  have hvalid : ∀ name ∈ fs.names dir, ValidName name := fun name hname => by
    obtain ⟨entry, hentry⟩ := Option.isSome_iff_exists.1 (mem_names.1 hname)
    exact wf.validName hentry
  obtain ⟨hnotMem, hthere⟩ := entry?_of_removed hroot (.refl wf) hvalid ((clearEntries_eq hroot).symm.trans h) hleft
  exact hnotMem (mem_names.2 (Option.isSome_iff_ne_none.2 hthere))

/-- Clearing changes nothing where the root leads to no directory. -/
theorem clearDirectory_of_not_directory (h : fs.holdsDirectory root = false) :
    (clearDirectory root fs).2 = fs := by
  have hnothing : clearEntries root fs = .ok () fs := by
    simp [clearEntries, bind, EStateM.bind, run_get, h]
    rfl
  unfold clearDirectory
  split
  · simp only [toStep, lift, hnothing]
  · rfl

/-- Clearing prunes the directory that the root leads to, if it leads to one, and changes nothing
otherwise. -/
theorem clearDirectory_pruned (wf : fs.WellFormed) (hroot : fs.canonical? root = some dir) :
    Pruned dir fs (clearDirectory root fs).2 := by
  obtain ⟨entry, hresolve⟩ := canonical?_eq_some_iff.1 hroot
  by_cases hentry : entry = .directory
  · subst hentry
    have hholds : fs.holds root = true := by simp [holds, lookup?_eq_some_iff.2 hresolve]
    unfold clearDirectory
    rw [if_pos hholds]
    exact toStep_keeps (lift_maintains (clearEntries_pruned hresolve)) (.refl wf)
  · have hdirectory : fs.holdsDirectory root = false := by
      rw [Bool.eq_false_iff, ne_eq, holdsDirectory_iff, hresolve]
      rintro ⟨other, hother⟩
      cases hother
      exact hentry rfl
    rw [clearDirectory_of_not_directory hdirectory]
    exact .refl wf

/-! ### Clearing an accepted root -/

/-- Clearing an accepted root that is there leaves everything at or below the build directory as it was,
its time included, and the project directory and the auxiliary directory in their places. -/
theorem clearDirectory_keeps {settings : Settings} (wf : fs.WellFormed)
    (haccepted : settings.deployRoot fs = .ok root) (hholds : fs.holds root = true) :
    (∀ build place, fs.canonical? settings.buildDir = some build → build <+: place →
      (clearDirectory root fs).2.node? place = fs.node? place)
    ∧ ∀ kept ∈ [settings.projectDir, settings.auxDir], ∀ place, fs.canonical? kept = some place →
      FileSystem.entry? (clearDirectory root fs).2 place = fs.entry? place := by
  obtain ⟨dir, hdir⟩ : ∃ dir, fs.canonical? root = some dir := by
    obtain ⟨found, hfound⟩ := Option.isSome_iff_exists.1 hholds
    exact ⟨found.1, by simp [canonical?, hfound]⟩
  have hpruned := clearDirectory_pruned wf hdir
  constructor
  · intro build place hbuild hplace
    rcases hpruned.nodes place with hnode | ⟨-, hbelow, -⟩
    · exact hnode
    · -- The place lies below both, so one of the two directories lies below the other.
      rcases List.prefix_or_prefix_of_prefix hbelow hplace with hinto | hinto
      · refine absurd hinto (Settings.not_contains_canonical haccepted ?_ hdir hbuild)
        exact Settings.mem_keptPaths.2 (.inr (.inl rfl))
      · exact absurd hinto (Settings.not_inside_canonical haccepted hdir hbuild)
  · intro kept hkept place hplace
    have hmem : kept ∈ settings.keptPaths := by
      rw [Settings.mem_keptPaths]
      simp only [List.mem_cons, List.not_mem_nil, or_false] at hkept
      exact hkept.imp_right .inr
    by_cases hroot : place = []
    · rw [hroot, entry?_root, entry?_root]
    · rw [entry?_of_ne hroot, entry?_of_ne hroot]
      rcases hpruned.nodes place with hnode | ⟨-, hbelow, -⟩
      · rw [hnode]
      · exact absurd hbelow (Settings.not_contains_canonical haccepted hmem hdir hplace)

/-- A deploy root that is a link, with a link into the build directory inside it. -/
def linkedRoot : FileSystem :=
  ofEntries ⟨"/w"⟩ [(["w"], .directory), (["w", "build"], .directory),
    (["w", "build", "main.lua"], .file ByteArray.empty), (["w", "out"], .directory),
    (["w", "out", "back"], .link "../build"), (["w", "deploy"], .link "out")]

/-- The settings of a project in the working directory. -/
def hereSettings (deployDir : String) : Settings :=
  Settings.ofSources ⟨"."⟩ {} none { deployDir := some ⟨deployDir⟩ }

theorem clearDirectory_keeps_linkedRoot :
    linkedRoot.WellFormed ∧ (hereSettings "deploy").deployRoot linkedRoot = .ok ⟨"./deploy"⟩
    ∧ linkedRoot.holds ⟨"./deploy"⟩ = true
    ∧ (clearDirectory ⟨"./deploy"⟩ linkedRoot).2.node? ["w", "build", "main.lua"]
      = linkedRoot.node? ["w", "build", "main.lua"]
    ∧ (clearDirectory ⟨"./deploy"⟩ linkedRoot).2.node? ["w", "out", "back"] = none := by
  have wf : linkedRoot.WellFormed := by decide +kernel
  have haccepted : (hereSettings "deploy").deployRoot linkedRoot = .ok ⟨"./deploy"⟩ := by decide +kernel
  have hholds : linkedRoot.holds ⟨"./deploy"⟩ = true := by decide +kernel
  refine ⟨wf, haccepted, hholds, ?_, by decide +kernel⟩
  exact (clearDirectory_keeps wf haccepted hholds).1 ["w", "build"] _ (by decide +kernel) (by decide)

end ModPackager.Deploy
