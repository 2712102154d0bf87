import ModPackager.Proofs.Deploy.Clear

/-!
# The skeleton of a mod

Making the directories of a mod only adds to the files (`createSkeleton_grows`), so a path that led
somewhere before still leads there. What the check of the deploy root found out about two paths that were
there is therefore still true (`createSkeleton_keeps_apart`).

The check sees nothing of the locations of paths that are not there yet. A root below a link into the
build directory is accepted as long as it does not exist, and then made inside the build directory
(`createSkeleton_into_build`).
-/

namespace ModPackager.Deploy

open FileSystem FileAction

variable {fs fs' : FileSystem} {settings : Settings} {root path dir : Path} {location place : Location}

/-! ### Adding directories -/

/-- Entries were added, and nothing else happened. -/
abbrev Grows (before after : FileSystem) : Prop :=
  Changes (fun place => before.entry? place = none) before after

theorem Grows.entry? (h : Grows fs fs') {entry : Entry} (hentry : fs.entry? place = some entry) :
    fs'.entry? place = some entry := by
  rw [h.entries place (by simp [hentry]), hentry]

theorem Grows.put_vacant {follow : Bool} (h : Grows fs fs')
    (hvacant : fs'.resolve follow path = .ok (.vacant location)) :
    Grows fs (fs'.put location .directory) := by
  refine h.put (writable_of_vacant hvacant) ?_ nofun
  by_contra hsome
  obtain ⟨entry, hentry⟩ := Option.ne_none_iff_exists'.1 hsome
  simpa [entry?_of_vacant hvacant] using h.entry? hentry

theorem createDirectories_grows : Maintains (Grows fs) (createDirectories path) fun _ => True :=
  createDirectories_maintains fun h ⟨_, _, _, hvacant⟩ => h.put_vacant hvacant

/-- Making the directories of a mod only adds to the files, whether or not it succeeds. -/
theorem createSkeleton_grows (fs : FileSystem) (root : Path) : Grows fs (createSkeleton root fs).2 :=
  toStep_keeps (lift_maintains (.forM fun _ _ => createDirectories_grows)) (.refl fs)

theorem Grows.canonical? (h : Grows fs fs') (hpath : fs.canonical? path = some location) :
    fs'.canonical? path = some location := by
  obtain ⟨entry, hresolve⟩ := canonical?_eq_some_iff.1 hpath
  exact canonical?_eq_some_iff.2 ⟨entry, resolve_mono h.entry? h.workingDir hresolve⟩

theorem exists_canonical? (h : fs.holds path = true) : ∃ location, fs.canonical? path = some location := by
  obtain ⟨found, hfound⟩ := Option.isSome_iff_exists.1 h
  exact ⟨found.1, by simp [FileSystem.canonical?, hfound]⟩

/-! ### The root and the directories to keep -/

/-- A path lies where it says, with dots folded away. -/
def LiesAsWritten (fs : FileSystem) (path : Path) (location : Location) : Prop :=
  componentsOf location = path.normalize fs.workingDir

instance : Decidable (LiesAsWritten fs path location) := inferInstanceAs (Decidable (_ = _))

/-- Once its directories are made, an accepted root neither is nor contains a directory to keep, and does
not lie inside the build directory, if the root and that directory were both there when they were
compared, or if they lie where their paths say. -/
theorem createSkeleton_keeps_apart (haccepted : settings.deployRoot fs = .ok root)
    (hdir : dir ∈ settings.keptPaths)
    (hroot : (createSkeleton root fs).2.canonical? root = some location)
    (hplace : (createSkeleton root fs).2.canonical? dir = some place)
    (hcompared : fs.holds root = true ∧ fs.holds dir = true
      ∨ LiesAsWritten fs root location ∧ LiesAsWritten fs dir place) :
    ¬ location <+: place ∧ (dir = settings.buildDir → ¬ place <+: location) := by
  have hgrows := createSkeleton_grows fs root
  rcases hcompared with ⟨hholdsRoot, hholdsDir⟩ | ⟨hwritten, hwrittenDir⟩
  · -- Both were on disk, where they have been compared, and have not moved since.
    obtain ⟨location', hlocation⟩ := exists_canonical? hholdsRoot
    obtain ⟨place', hplace'⟩ := exists_canonical? hholdsDir
    obtain rfl : location' = location := Option.some.inj ((hgrows.canonical? hlocation).symm.trans hroot)
    obtain rfl : place' = place := Option.some.inj ((hgrows.canonical? hplace').symm.trans hplace)
    refine ⟨Settings.not_contains_canonical haccepted hdir hlocation hplace', ?_⟩
    rintro rfl
    exact Settings.not_inside_canonical haccepted hlocation hplace'
  · rw [← componentsOf_prefix_iff, ← componentsOf_prefix_iff, hwritten, hwrittenDir]
    refine ⟨Settings.not_contains_normalize haccepted hdir, ?_⟩
    rintro rfl
    exact Settings.not_inside_normalize haccepted

/-- A project with a build directory, and a link to it. -/
def linkedBuild : FileSystem :=
  ofEntries ⟨"/w"⟩ [(["w"], .directory), (["w", "build"], .directory), (["w", "link"], .link "build")]

theorem createSkeleton_keeps_apart_linkedBuild :
    (hereSettings "deploy").deployRoot linkedBuild = .ok ⟨"./deploy"⟩
    ∧ ¬ ["w", "deploy"] <+: ["w", "build"] ∧ ¬ ["w", "build"] <+: ["w", "deploy"] := by
  have haccepted : (hereSettings "deploy").deployRoot linkedBuild = .ok ⟨"./deploy"⟩ := by decide +kernel
  have hroot : (createSkeleton ⟨"./deploy"⟩ linkedBuild).2.canonical? ⟨"./deploy"⟩ = some ["w", "deploy"] := by
    decide +kernel
  have hbuild : (createSkeleton ⟨"./deploy"⟩ linkedBuild).2.canonical? (hereSettings "deploy").buildDir
      = some ["w", "build"] := by decide +kernel
  have happart := createSkeleton_keeps_apart haccepted (Settings.mem_keptPaths.2 (.inr (.inl rfl))) hroot hbuild
    (.inr (by decide +kernel))
  exact ⟨haccepted, happart.1, happart.2 rfl⟩

/-- A root that is not there yet is accepted below a link to the build directory, and made inside of
it. -/
theorem createSkeleton_into_build :
    (hereSettings "link/out").deployRoot linkedBuild = .ok ⟨"./link/out"⟩
    ∧ (createSkeleton ⟨"./link/out"⟩ linkedBuild).1 = .success
    ∧ (createSkeleton ⟨"./link/out"⟩ linkedBuild).2.canonical? ⟨"./link/out"⟩ = some ["w", "build", "out"]
    ∧ (createSkeleton ⟨"./link/out"⟩ linkedBuild).2.canonical? (hereSettings "link/out").buildDir
      = some ["w", "build"]
    ∧ ["w", "build"] <+: ["w", "build", "out"] := by
  refine ⟨by decide +kernel, by decide +kernel, by decide +kernel, by decide +kernel, by decide⟩

end ModPackager.Deploy
