import ModPackager.Proofs.Pipeline.Inputs

/-!
# Where a run writes

However a run ends, it has changed nothing beside its deploy root and the scratch entries of the auxiliary
directory, and what it deploys lies below the root: no path that goes on from the root and stays inside is
led astray by a link (`run_confined`).

That takes a name of the mod that stays below the root as well. The metadata document is called after the
mod, and nothing keeps parents out of that name: a mod called `../evil` has its document beside the root
(`run_writes_outside`).
-/

namespace ModPackager.Pipeline

open FileSystem Deploy

variable {settings : Settings} {world : World} {compiler : Compiler} {root : Path} {scratchName : String → Prop}

/-- The files that a run leaves behind, with or without a report. -/
def filesAfter : EStateM.Result Abort World Report → FileSystem
  | .ok _ ended => ended.files
  | .error _ ended => ended.files

/-- However a run ends, it has changed nothing but what its deploy root affects and scratch entries of the
auxiliary directory. Once it ends in a report, every path that goes on from the root and stays inside leads to
the place below the root that its names spell, if it leads anywhere. -/
theorem run_confined (hroot : settings.deployRoot world.files = .ok root)
    (orderly : Orderly compiler settings scratchName world root)
    (hcleared : ∀ reason, (clearDirectory root world.files).1 ≠ .failed reason) :
    (∀ place, ¬ Affected world.files root place → ¬ Scratch world.files root settings scratchName place →
      FileSystem.entry? (filesAfter (run compiler settings world)) place = world.files.entry? place)
    ∧ ∀ report world', run compiler settings world = .ok report world' →
      ∀ (site : Site world.files root) path names target, Extends root path names →
        staysInside 0 names = true → names ≠ [] → world'.files.resolve true path = .ok target →
        target.place = site.dir ++ climb [] names := by
  have wf := orderly.wellFormed
  constructor
  · intro place haffected hscratch
    obtain ⟨inv, confines, hinv⟩ := exists_confines orderly.direct orderly.staging.aside wf hcleared
    have hkept : ∀ {now}, inv now → now.entry? place = world.files.entry? place := fun hnow =>
      (confines.changes hnow).entries place fun hchanged => hchanged.elim haffected hscratch
    have hended := run_maintains hroot orderly confines hinv
    rcases hrun : run compiler settings world with ⟨report, ended⟩ | ⟨_ | _, ended⟩ <;> rw [hrun] at hended
    · exact hkept hended
    · exact congrArg (fun files => FileSystem.entry? files place) hended
    · exact hkept hended
  · intro report world' hrun site path names target hpath hinside hne hresolve
    have hspares := orderly.staging.aside.spares orderly.direct wf site
    have hended := run_maintains hroot orderly (site.confines hspares wf orderly.direct.followable.2.1)
      (clearDirectory_prepared site orderly.direct.followable wf hcleared)
    rw [hrun] at hended
    exact hended.place_eq hspares hpath hinside hne hresolve

theorem run_confined_scriptProject :
    ∃ report world, run fooCompiler (hereSettings "deploy") { files := scriptProject } = .ok report world
      ∧ world.files.entry? ["w", "package.json"] = scriptProject.entry? ["w", "package.json"]
      ∧ ∀ target, world.files.resolve true ⟨"./deploy/m.json"⟩ = .ok target →
        target.place = ["w", "deploy", "m.json"] := by
  obtain ⟨report, world, hrun, -⟩ := scriptProject_succeeds
  have hroot : (hereSettings "deploy").deployRoot scriptProject = .ok ⟨"./deploy"⟩ := by decide +kernel
  have hcleared : ∀ reason, (clearDirectory ⟨"./deploy"⟩ scriptProject).1 ≠ .failed reason := by
    have hsuccess : (clearDirectory ⟨"./deploy"⟩ scriptProject).1 = .success := by decide +kernel
    rw [hsuccess]
    exact nofun
  obtain ⟨hbeside, hbelow⟩ := run_confined hroot scriptProject_orderly hcleared
  have haway : ¬ (Beneath ["w", "deploy"] ["w", "package.json"] ∨ Beneath ["w", "extra_lua"] ["w", "package.json"]
      ∨ ["w", "package.json"] <+: ["w", "deploy"] ∧ scriptProject.entry? ["w", "package.json"] = none) := by
    decide +kernel
  refine ⟨report, world, hrun, ?_, fun target hresolve => ?_⟩
  · have hkept := hbeside ["w", "package.json"] (fun h => haway (changeable_scriptProject (.inl h)))
      fun h => haway (changeable_scriptProject (.inr h))
    rwa [hrun] at hkept
  · have hextends : Extends ⟨"./deploy"⟩ ⟨"./deploy/m.json"⟩ ["m.json"] :=
      (extends_refl (by decide : (⟨"./deploy"⟩ : Path).text ≠ "")).validChild (by decide : ValidName "m.json")
    exact hbelow report world hrun scriptSite _ _ target hextends (by decide) (by decide) hresolve

/-- A project whose package is called after a place outside of every deploy root. -/
def strayProject : FileSystem :=
  ofEntries ⟨"/w"⟩ [(["w"], .directory),
    (["w", "package.json"], .file "\x7b\"name\":\"../evil\",\"main\":\"a.ts\"\x7d".toUTF8),
    (["w", "build"], .directory), (["w", "build", "main.lua"], .file "x".toUTF8)]

/-- Where the deploy root of the project is to lie. -/
def straySite : Site strayProject ⟨"./deploy"⟩ where
  known := ["w", "."]
  missing := ["deploy"]
  base := ["w"]
  namesTo_eq := by decide +kernel
  leads := leadsTo_of_canonical? (by decide +kernel : strayProject.holdsDirectory ⟨"."⟩ = true)
    (by decide +kernel)
  noParent := by decide
  absent := by
    rintro name rest hmissing
    cases hmissing
    decide +kernel

/-- The name of a mod may lead its document out of the root: the run succeeds, and a file is new beside the
root. -/
theorem run_writes_outside :
    (hereSettings "deploy").deployRoot strayProject = .ok ⟨"./deploy"⟩
    ∧ ∃ report world, run fooCompiler (hereSettings "deploy") { files := strayProject } = .ok report world
      ∧ report.hasFailures = false
      ∧ world.files.canonical? ⟨"./deploy"⟩ = some ["w", "deploy"]
      ∧ strayProject.entry? ["w", "evil.json"] = none
      ∧ (world.files.entry? ["w", "evil.json"]).isSome = true
      ∧ ¬ Affected strayProject ⟨"./deploy"⟩ ["w", "evil.json"]
      ∧ strayProject.canonical? (hereSettings "deploy").auxDir = none := by
  have hends : endsWith (fun report world => !report.hasFailures
      && world.files.canonical? ⟨"./deploy"⟩ == some ["w", "deploy"]
      && (world.files.entry? ["w", "evil.json"]).isSome)
      (run fooCompiler (hereSettings "deploy") { files := strayProject }) = true := by decide +kernel
  obtain ⟨report, world, hrun, htest⟩ := exists_of_endsWith hends
  simp only [Bool.and_eq_true, Bool.not_eq_true', beq_iff_eq] at htest
  obtain ⟨⟨hsucceeds, hdir⟩, hwritten⟩ := htest
  have haway : ¬ (Beneath ["w", "deploy"] ["w", "evil.json"]
      ∨ ["w", "evil.json"] <+: ["w", "deploy"] ∧ strayProject.entry? ["w", "evil.json"] = none) := by
    decide +kernel
  exact ⟨by decide +kernel, report, world, hrun, hsucceeds, hdir, by decide +kernel, hwritten,
    fun haffected => haway (straySite.affected_iff.1 haffected), by decide +kernel⟩

end ModPackager.Pipeline
