import Mathlib.Data.List.Basic
import ModPackager.Config.DeployRoot
import ModPackager.FileSystem.Resolve

/-!
# What an accepted deploy root is

An accepted root is not, and does not contain, one of the kept directories, and does not lie inside the
build directory. This holds of the paths as written (`not_contains_normalize`,
`not_inside_normalize`), and of the locations on disk where both paths exist when they are compared
(`not_contains_canonical`, `not_inside_canonical`). It says nothing on locations of paths that come to
exist later, except that a root that does not overlap by then is accepted again (`deployRoot_again`).
-/

namespace ModPackager

open FileSystem

variable {fs fs' : FileSystem} {settings : Settings} {root dir : Path} {location place : Location}
  {test : List Path.Component → List Path.Component → Bool}

theorem componentsOf_prefix_iff : componentsOf location <+: componentsOf place ↔ location <+: place := by
  have hinj : Function.Injective Path.Component.normal := fun _ _ h => by injection h
  simp only [componentsOf, List.cons_prefix_cons, true_and]
  constructor
  · intro h
    obtain ⟨front, hfront, heq⟩ := List.prefix_map_iff.1 h
    rwa [hinj.list_map heq]
  · exact fun h => h.map _

/-- Paths that do not overlap pass the test neither as written nor, if both exist, on disk. -/
theorem overlaps_eq_false (h : overlaps fs root dir test = false) :
    test (root.normalize fs.workingDir) (dir.normalize fs.workingDir) = false
      ∧ ∀ location place, fs.canonical? root = some location → fs.canonical? dir = some place →
        test (componentsOf location) (componentsOf place) = false := by
  unfold overlaps at h
  rw [Bool.or_eq_false_iff] at h
  refine ⟨h.1, fun location place hlocation hplace => ?_⟩
  simpa only [hlocation, hplace] using h.2

namespace Settings

/-- The paths of the directories that must be kept. -/
def keptPaths (settings : Settings) : List Path := settings.kept.map (·.2)

theorem mem_keptPaths : dir ∈ settings.keptPaths ↔
    dir = settings.projectDir ∨ dir = settings.buildDir ∨ dir = settings.auxDir := by
  simp [keptPaths, kept]

/-- A root is accepted if it is set and not refused. -/
theorem deployRoot_eq_ok_iff :
    settings.deployRoot fs = .ok root ↔ settings.deployDir = some root ∧ settings.refusal? fs root = none := by
  unfold deployRoot
  cases settings.deployDir with
  | none => simp
  | some chosen =>
      unfold checkDeployRoot
      cases hrefusal : settings.refusal? fs chosen with
      | some reason =>
          simp only [bind, Except.bind, hrefusal, reduceCtorEq, Option.some.injEq, false_iff, not_and]
          rintro rfl hnone
          simp [hrefusal] at hnone
      | none =>
          simp only [bind, Except.bind, hrefusal, pure, Except.pure, Except.ok.injEq, Option.some.injEq]
          exact ⟨fun h => ⟨h, h ▸ hrefusal⟩, And.left⟩

theorem refusal?_of_deployRoot (h : settings.deployRoot fs = .ok root) :
    settings.refusal? fs root = none := (deployRoot_eq_ok_iff.1 h).2

/-- Which roots the check lets pass. -/
theorem refusal?_eq_none_iff : settings.refusal? fs root = none ↔
    (∀ dir ∈ settings.keptPaths, overlaps fs root dir (fun r d => r.isPrefixOf d) = false)
      ∧ overlaps fs root settings.buildDir (fun r b => b.isPrefixOf r) = false := by
  unfold refusal?
  cases hfind : settings.kept.find? fun labelled => overlaps fs root labelled.2 fun r d => r.isPrefixOf d with
  | some labelled =>
      have hoverlaps := List.find?_some hfind
      simp only [reduceCtorEq, false_iff, not_and]
      intro hkept
      have hnone := hkept labelled.2 (List.mem_map_of_mem (List.mem_of_find?_eq_some hfind))
      simp [hnone] at hoverlaps
  | none =>
      have hkept : ∀ dir ∈ settings.keptPaths, overlaps fs root dir (fun r d => r.isPrefixOf d) = false := by
        intro dir hdir
        obtain ⟨labelled, hmem, rfl⟩ := List.mem_map.1 hdir
        simpa using List.find?_eq_none.1 hfind labelled hmem
      simp only [ite_eq_right_iff, reduceCtorEq, imp_false, Bool.not_eq_true]
      exact ⟨fun hbuild => ⟨hkept, hbuild⟩, And.right⟩

theorem not_overlaps (h : settings.deployRoot fs = .ok root) (hdir : dir ∈ settings.keptPaths) :
    overlaps fs root dir (fun r d => r.isPrefixOf d) = false :=
  (refusal?_eq_none_iff.1 (refusal?_of_deployRoot h)).1 dir hdir

theorem not_overlaps_build (h : settings.deployRoot fs = .ok root) :
    overlaps fs root settings.buildDir (fun r b => b.isPrefixOf r) = false :=
  (refusal?_eq_none_iff.1 (refusal?_of_deployRoot h)).2

/-! ### As written -/

theorem not_contains_normalize (h : settings.deployRoot fs = .ok root)
    (hdir : dir ∈ settings.keptPaths) :
    ¬ root.normalize fs.workingDir <+: dir.normalize fs.workingDir := by
  have hwritten := (overlaps_eq_false (not_overlaps h hdir)).1
  simpa [← List.isPrefixOf_iff_prefix] using hwritten

theorem not_inside_normalize (h : settings.deployRoot fs = .ok root) :
    ¬ settings.buildDir.normalize fs.workingDir <+: root.normalize fs.workingDir := by
  have hwritten := (overlaps_eq_false (not_overlaps_build h)).1
  simpa [← List.isPrefixOf_iff_prefix] using hwritten

/-! ### On disk -/

theorem not_contains_canonical (h : settings.deployRoot fs = .ok root)
    (hdir : dir ∈ settings.keptPaths) (hroot : fs.canonical? root = some location)
    (hplace : fs.canonical? dir = some place) : ¬ location <+: place := by
  have hdisk := (overlaps_eq_false (not_overlaps h hdir)).2 location place hroot hplace
  rw [← componentsOf_prefix_iff, ← List.isPrefixOf_iff_prefix]
  simp [hdisk]

theorem not_inside_canonical (h : settings.deployRoot fs = .ok root)
    (hroot : fs.canonical? root = some location)
    (hplace : fs.canonical? settings.buildDir = some place) : ¬ place <+: location := by
  have hdisk := (overlaps_eq_false (not_overlaps_build h)).2 location place hroot hplace
  rw [← componentsOf_prefix_iff, ← List.isPrefixOf_iff_prefix]
  simp [hdisk]

/-! ### Once more -/

/-- A root that was accepted is accepted again, if it does not overlap on disk by then. -/
theorem deployRoot_again (h : settings.deployRoot fs = .ok root) (hworking : fs'.workingDir = fs.workingDir)
    (hcontains : ∀ dir ∈ settings.keptPaths, ∀ location place, fs'.canonical? root = some location →
      fs'.canonical? dir = some place → ¬ location <+: place)
    (hinside : ∀ location place, fs'.canonical? root = some location →
      fs'.canonical? settings.buildDir = some place → ¬ place <+: location) :
    settings.deployRoot fs' = .ok root := by
  have hoverlaps : ∀ {dir : Path} {test : List Path.Component → List Path.Component → Bool},
      overlaps fs root dir test = false →
      (∀ location place, fs'.canonical? root = some location → fs'.canonical? dir = some place →
        test (componentsOf location) (componentsOf place) = false) → overlaps fs' root dir test = false := by
    intro dir test hbefore hdisk
    unfold overlaps
    rw [hworking, (overlaps_eq_false hbefore).1, Bool.false_or]
    split
    next location place hlocation hplace => exact hdisk location place hlocation hplace
    · rfl
  have hkept : ∀ dir ∈ settings.keptPaths, overlaps fs' root dir (fun r d => r.isPrefixOf d) = false :=
    fun dir hdir => hoverlaps (not_overlaps h hdir) fun location place hlocation hplace => by
      rw [Bool.eq_false_iff, Ne, List.isPrefixOf_iff_prefix, componentsOf_prefix_iff]
      exact hcontains dir hdir location place hlocation hplace
  have hbuild : overlaps fs' root settings.buildDir (fun r b => b.isPrefixOf r) = false :=
    hoverlaps (not_overlaps_build h) fun location place hlocation hplace => by
      rw [Bool.eq_false_iff, Ne, List.isPrefixOf_iff_prefix, componentsOf_prefix_iff]
      exact hinside location place hlocation hplace
  exact deployRoot_eq_ok_iff.2 ⟨(deployRoot_eq_ok_iff.1 h).1, refusal?_eq_none_iff.2 ⟨hkept, hbuild⟩⟩

end Settings

end ModPackager
