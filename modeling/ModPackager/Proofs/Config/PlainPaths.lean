import ModPackager.Proofs.Config.DeployRoot
import ModPackager.Proofs.Path.Normal

/-!
# The check of the deploy root without links

Where there are no links, a path as written and the same path on disk spell one location, so the two halves of the
check say the same (`overlaps_eq`). The check is then exact: a root is refused just if its location is a beginning of
that of a kept directory, or the location of the build directory a beginning of that of the root. It is accepted just
if the root and each kept directory part ways at some name, as siblings do whose names merely begin alike, or the root
lies below one that is not the build directory (`checkDeployRoot_spelled`).
-/

namespace ModPackager

open FileSystem

variable {fs : FileSystem} {settings : Settings} {root dir other : Path} {a b : Location}
  {test : List Path.Component → List Path.Component → Bool}

namespace FileSystem

/-- The location that a path spells. It is taken from the working directory; empty names and dots go nowhere, and the
parent of the root is the root. -/
def spelled (fs : FileSystem) (path : Path) : Location := climb [] (fs.namesTo path)

/-- Without links both halves of a comparison compare the spelled locations. -/
theorem LinkFree.overlaps_eq (hfree : fs.LinkFree) (hworking : fs.workingDir.isAbsolute = true)
    (hdir : dir.text ≠ "") (hother : other.text ≠ "") :
    overlaps fs dir other test = test (componentsOf (fs.spelled dir)) (componentsOf (fs.spelled other)) := by
  unfold overlaps
  rw [Path.normalize_eq hworking hdir, Path.normalize_eq hworking hother]
  change (test (componentsOf (fs.spelled dir)) (componentsOf (fs.spelled other)) || _) = _
  cases hwritten : test (componentsOf (fs.spelled dir)) (componentsOf (fs.spelled other)) with
  | true => rfl
  | false =>
      rw [Bool.false_or]
      split
      next location place hlocation hplace =>
          rw [hfree.canonical?_eq hlocation, hfree.canonical?_eq hplace]
          exact hwritten
      · rfl

/-- Two locations go on with different names from somewhere on. -/
def PartWays (a b : Location) : Prop :=
  ∃ front name name' more more', name ≠ name' ∧ a = front ++ name :: more ∧ b = front ++ name' :: more'

/-- Neither of two locations is a beginning of the other one just if they part ways. -/
theorem partWays_iff : PartWays a b ↔ ¬ a <+: b ∧ ¬ b <+: a := by
  induction a generalizing b with
  | nil => simp [PartWays]
  | cons name more ih =>
      cases b with
      | nil => simp [PartWays]
      | cons name' more' =>
          by_cases hname : name = name'
          · subst hname
            simp only [List.cons_prefix_cons, true_and, ← ih]
            constructor
            · rintro ⟨_ | ⟨first, front⟩, x, y, xs, ys, hne, ha, hb⟩
              · exact absurd ((List.cons.inj ha).1.symm.trans (List.cons.inj hb).1) hne
              · exact ⟨front, x, y, xs, ys, hne, (List.cons.inj ha).2, (List.cons.inj hb).2⟩
            · rintro ⟨front, x, y, xs, ys, hne, rfl, rfl⟩
              exact ⟨name :: front, x, y, xs, ys, hne, rfl, rfl⟩
          · simp only [List.cons_prefix_cons, hname, Ne.symm hname, false_and, not_false_eq_true, and_self, iff_true]
            exact ⟨[], name, name', more, more', hname, rfl, rfl⟩

end FileSystem

namespace Settings

theorem checkDeployRoot_eq_ok_iff : settings.checkDeployRoot fs root = .ok () ↔ settings.refusal? fs root = none := by
  unfold checkDeployRoot
  cases settings.refusal? fs root <;> simp

/-- A root that is not accepted is refused as unsafe. -/
theorem exists_unsafeDeployRoot_iff :
    (∃ reason, settings.checkDeployRoot fs root = .error (.unsafeDeployRoot root reason)) ↔
      ¬ settings.refusal? fs root = none := by
  unfold checkDeployRoot
  cases settings.refusal? fs root <;> simp

/-- Without links a root is accepted just if its location is no beginning of that of a kept directory, and that of the
build directory no beginning of it. -/
theorem refusal?_spelled (hfree : fs.LinkFree) (hworking : fs.workingDir.isAbsolute = true)
    (hroot : root.text ≠ "") (hkept : ∀ dir ∈ settings.keptPaths, dir.text ≠ "") :
    settings.refusal? fs root = none ↔
      (∀ dir ∈ settings.keptPaths, ¬ fs.spelled root <+: fs.spelled dir)
        ∧ ¬ fs.spelled settings.buildDir <+: fs.spelled root := by
  have hbuild : settings.buildDir.text ≠ "" := hkept _ (mem_keptPaths.2 (.inr (.inl rfl)))
  rw [refusal?_eq_none_iff, hfree.overlaps_eq hworking hroot hbuild, Bool.eq_false_iff, Ne,
    List.isPrefixOf_iff_prefix, componentsOf_prefix_iff]
  refine and_congr_left fun _ => forall₂_congr fun dir hdir => ?_
  rw [hfree.overlaps_eq hworking hroot (hkept dir hdir), Bool.eq_false_iff, Ne, List.isPrefixOf_iff_prefix,
    componentsOf_prefix_iff]

/-- Without links the check goes by the locations that the paths spell. A root is refused just if it is or contains a
kept directory, or is or lies inside the build directory. It is accepted just if it parts ways with each kept
directory, or lies below it where that is not the build directory. -/
theorem checkDeployRoot_spelled (hfree : fs.LinkFree) (hworking : fs.workingDir.isAbsolute = true)
    (hroot : root.text ≠ "") (hkept : ∀ dir ∈ settings.keptPaths, dir.text ≠ "") :
    ((∃ reason, settings.checkDeployRoot fs root = .error (.unsafeDeployRoot root reason)) ↔
        fs.spelled root <+: fs.spelled settings.projectDir ∨ fs.spelled root <+: fs.spelled settings.buildDir
          ∨ fs.spelled root <+: fs.spelled settings.auxDir ∨ fs.spelled settings.buildDir <+: fs.spelled root)
      ∧ (settings.checkDeployRoot fs root = .ok () ↔
        ∀ dir ∈ settings.keptPaths, PartWays (fs.spelled dir) (fs.spelled root)
          ∨ dir ≠ settings.buildDir ∧ Beneath (fs.spelled dir) (fs.spelled root)) := by
  have hnone := refusal?_spelled hfree hworking hroot hkept
  have hbuild : settings.buildDir ∈ settings.keptPaths := mem_keptPaths.2 (.inr (.inl rfl))
  constructor
  · rw [exists_unsafeDeployRoot_iff, hnone]
    simp only [mem_keptPaths, forall_eq_or_imp, forall_eq, not_and_or, not_not, or_assoc]
  · rw [checkDeployRoot_eq_ok_iff, hnone]
    constructor
    · rintro ⟨hcontains, hinside⟩ dir hdir
      by_cases hbelow : fs.spelled dir <+: fs.spelled root
      · refine .inr ⟨fun heq => hinside (heq ▸ hbelow), hbelow, fun heq => hcontains dir hdir (heq ▸ List.prefix_refl _)⟩
      · exact .inl (partWays_iff.2 ⟨hbelow, hcontains dir hdir⟩)
    · intro hparts
      refine ⟨fun dir hdir hcontains => ?_, fun hinside => ?_⟩
      · rcases hparts dir hdir with hways | ⟨-, hbeneath, hne⟩
        · exact (partWays_iff.1 hways).2 hcontains
        · exact hne (hcontains.eq_of_length (Nat.le_antisymm hcontains.length_le hbeneath.length_le))
      · -- The build directory has no roots below it, so these two have to part ways.
        rcases hparts _ hbuild with hways | ⟨hne, -⟩
        · exact (partWays_iff.1 hways).1 hinside
        · exact hne rfl

/-- A project in the working directory with its build directory. -/
def builtProject : FileSystem :=
  ofEntries ⟨"/w"⟩ [(["w"], .directory), (["w", "p"], .directory), (["w", "p", "build"], .directory)]

/-- The settings of that project. -/
def builtSettings : Settings := .ofSources ⟨"p"⟩ {} none {}

/-- A root beside the build directory is accepted though its name begins like that of the build directory, and the
project itself is refused by whatever way it is written. -/
theorem checkDeployRoot_spelled_builtProject :
    builtProject.LinkFree ∧ builtProject.workingDir.isAbsolute = true
      ∧ (⟨"p/./build2//"⟩ : Path).text ≠ "" ∧ (⟨"../w/p/build/.."⟩ : Path).text ≠ ""
      ∧ (∀ dir ∈ builtSettings.keptPaths, dir.text ≠ "")
      ∧ builtSettings.checkDeployRoot builtProject ⟨"p/./build2//"⟩ = .ok ()
      ∧ ∃ reason, builtSettings.checkDeployRoot builtProject ⟨"../w/p/build/.."⟩
        = .error (.unsafeDeployRoot ⟨"../w/p/build/.."⟩ reason) := by
  have hfree : builtProject.LinkFree := fun place text => ofEntries_unlinked (by decide) place text
  have hkept : ∀ dir ∈ builtSettings.keptPaths, dir.text ≠ "" := by decide
  refine ⟨hfree, by decide, by decide, by decide, hkept, ?_, ?_⟩
  · refine (checkDeployRoot_spelled hfree (by decide) (by decide) hkept).2.2 fun dir hdir => ?_
    have hroot : builtProject.spelled ⟨"p/./build2//"⟩ = ["w", "p", "build2"] := by decide +kernel
    rcases mem_keptPaths.1 hdir with rfl | rfl | rfl
    · exact .inr ⟨by decide, by decide +kernel⟩
    · exact .inl ⟨["w", "p"], "build", "build2", [], [], by decide, by decide +kernel, hroot⟩
    · exact .inl ⟨["w", "p"], "extra_lua", "build2", [], [], by decide, by decide +kernel, hroot⟩
  · exact (checkDeployRoot_spelled hfree (by decide) (by decide) hkept).1.2 (.inl (by decide +kernel))

end Settings

end ModPackager
