import ModPackager.Proofs.AuxScript.Confined
import ModPackager.Proofs.Pipeline.Reports

/-!
# What a run leaves alone

A run changes what its deploy root affects, and scratch places of the auxiliary directory, and nothing else
(`run_changes`). Its inputs are the package document, the configuration and the scanned sources. Those that
lie elsewhere are therefore still there afterwards, with the same bytes (`run_keeps_inputs`).

The check of the deploy root knows three directories to keep, but the sources may lie anywhere. A root that
holds sources is accepted, and clearing it deletes them (`run_deletes_source`).
-/

namespace ModPackager

open FileSystem Deploy

/-! ### The metadata document -/

/-- The metadata document lies below the deploy root, whatever the mod is called. -/
def Metadata.StaysBelow (metadata : Metadata) : Prop :=
  (⟨metadata.fileName⟩ : Path).isAbsolute = false ∧ staysInside 0 (namesOf metadata.fileName) = true

instance (metadata : Metadata) : Decidable metadata.StaysBelow := inferInstanceAs (Decidable (_ ∧ _))

/-- A text without slashes ends the last piece of what it is put behind. -/
theorem Path.getLast?_pieces_append {ending : List Char} (h : '/' ∉ ending) (text : List Char) :
    ∃ front, (pieces (text ++ ending)).getLast? = some (front ++ ending) := by
  induction text with
  | nil => exact ⟨[], by simp [pieces_of_not_mem h]⟩
  | cons c rest ih =>
      obtain ⟨front, hfront⟩ := ih
      by_cases hc : c = '/'
      · refine ⟨front, ?_⟩
        rw [hc, List.cons_append, pieces_slash, List.getLast?_cons, hfront]
        rfl
      · obtain ⟨piece, more, hrest, hcons⟩ := pieces_cons_of_ne hc (rest ++ ending)
        rw [List.cons_append, hcons]
        rw [hrest] at hfront
        cases more with
        | nil => exact ⟨c :: front, by simpa using hfront⟩
        | cons next more => exact ⟨front, by simpa using hfront⟩

theorem Metadata.namesOf_fileName_ne_nil (metadata : Metadata) : namesOf metadata.fileName ≠ [] := by
  have hending : '/' ∉ ".json".toList := by decide
  obtain ⟨front, hlast⟩ := Path.getLast?_pieces_append hending metadata.id.toList
  have hmem : front ++ ".json".toList ∈ Path.pieces metadata.fileName.toList := by
    rw [Metadata.fileName, String.toList_append]
    exact List.mem_of_getLast? hlast
  intro hnil
  simp only [namesOf, List.map_eq_nil_iff, List.filter_eq_nil_iff] at hnil
  simpa using hnil _ hmem

theorem Metadata.extends_fileName {metadata : Metadata} {root : Path} (htext : root.text ≠ "")
    (h : metadata.StaysBelow) : Extends root (root.child metadata.fileName) (namesOf metadata.fileName) := by
  have hne : metadata.fileName ≠ "" := by
    intro hempty
    exact metadata.namesOf_fileName_ne_nil (by rw [hempty, namesOf_empty])
  have hslash : endsInSlash metadata.fileName = false := by
    rw [Metadata.fileName, endsInSlash_append (by decide)]
    decide
  exact (extends_refl htext).join h.1 hne hslash

namespace Pipeline

variable {fs : FileSystem} {settings : Settings} {plan : Plan} {world world' : World} {report : Report}
  {compiler : Compiler} {root path : Path} {scratchName : String → Prop} {inv : FileSystem → Prop}

/-! ### What changes -/

theorem validName_patchesName : ValidName patchesName := by decide

/-- The stages behind clearing keep an invariant of the deployment steps. -/
theorem laterStages_keep (deployable : Deployable plan.root (fun _ => True) inv) (hmetadata : plan.metadata.StaysBelow)
    (h : inv fs) : inv (runStages (plan.laterStages settings) fs).2 := by
  have hpatches : Extends plan.root plan.patchesPath [lovelyDir, patchesName] :=
    AuxScript.extends_manifest deployable.text_ne validName_patchesName
  have hdocument : Extends plan.root plan.metadataPath (namesOf plan.metadata.fileName) :=
    Metadata.extends_fileName deployable.text_ne hmetadata
  refine runStages_keeps (fun stage hstage {fs} h => ?_) h
  simp only [Plan.laterStages, List.mem_cons, List.not_mem_nil, or_false] at hstage
  rcases hstage with rfl | rfl | rfl | rfl <;> dsimp only
  · exact deployable.createSkeleton h
  · exact deployable.writeFile hpatches (AuxScript.staysInside_manifest validName_patchesName) (by simp)
      trivial _ h
  · exact deployable.writeFile hdocument hmetadata.2 plan.metadata.namesOf_fileName_ne_nil trivial _ h
  · exact deployable.copyTree (fun _ _ _ => trivial) h

/-- A run in which nothing goes astray: the deploy root is direct, the metadata document stays below it,
and compiling happens out of its way, by a compiler and pending processes that change scratch places only. -/
structure Orderly (compiler : Compiler) (settings : Settings) (scratchName : String → Prop) (world : World)
    (root : Path) : Prop where
  wellFormed : world.files.WellFormed
  direct : Direct world.files root
  metadata : ∀ package, Package.load world.files settings.projectDir = .ok package →
    (Metadata.ofPackage package).StaysBelow
  staging : Staging world.files root settings scratchName
  compiler : StagedCompiler world.files root settings scratchName compiler
  pending : ∀ task ∈ world.pending, task.Confined (Reach world.files root settings scratchName)
    (Scratch world.files root settings scratchName)

section Runs

variable (hroot : settings.deployRoot world.files = .ok root)
  (orderly : Orderly compiler settings scratchName world root)

include hroot orderly

/-- Whatever confines the deployment steps holds once they are taken. -/
theorem staged_of_prepare {prepared staged : World}
    (confines : Confines world.files root (Scratch world.files root settings scratchName) inv)
    (hcleared : inv (clearDirectory root world.files).2) (hprepare : prepare settings world = .ok plan prepared)
    (hfiles : staged.files = (runStages (plan.stages settings) prepared.files).2)
    (hpending : staged.pending = prepared.pending) :
    plan.root = root ∧ Staged world.files root settings scratchName inv staged := by
  obtain ⟨hprepared, hsame, hplanRoot, ⟨package, hpackage, hmetadata⟩, -⟩ := prepare_inv hprepare
  obtain rfl : plan.root = root := Except.ok.inj (hplanRoot.symm.trans hroot)
  have hbelow : plan.metadata.StaysBelow := hmetadata ▸ orderly.metadata package hpackage
  refine ⟨rfl, ?_, ?_⟩
  · rw [hfiles, hprepared]
    exact laterStages_keep confines.toDeployable hbelow hcleared
  · rw [hpending, hsame]
    exact orderly.pending

/-- Whatever confines the deployment steps still holds when a run ends, unless the run has failed before the
first of them. -/
theorem run_maintains
    (confines : Confines world.files root (Scratch world.files root settings scratchName) inv)
    (hcleared : inv (clearDirectory root world.files).2) :
    match run compiler settings world with
    | .ok _ ended => inv ended.files
    | .error .clockOverflow ended => inv ended.files
    | .error (.failed _) ended => ended.files = world.files := by
  have compilable := orderly.staging.compilable hroot orderly.direct.followable orderly.wellFormed confines
  have hscripts := fun modPrefix => AuxScript.transpile_staged confines.toDeployable .of_true compilable
    orderly.compiler orderly.staging modPrefix
  rcases hrun : run compiler settings world with ⟨report, ended⟩ | ⟨_ | _, ended⟩
  · obtain ⟨plan, prepared, carried, hprepare, hcarry, hended, -⟩ := run_inv hrun
    obtain ⟨staged, summary, hfiles, hpending, htranspile, -⟩ := carryOut_inv hcarry
    obtain ⟨rfl, hstaged⟩ := staged_of_prepare hroot orderly confines hcleared hprepare hfiles hpending
    show inv ended.files
    rw [hended]
    exact ((hscripts _).ok hstaged htranspile).1.files
  · rcases run_error hrun with ⟨e, -, hprepare⟩ | ⟨habort, -⟩
    · exact (prepare_error hprepare).2.1
    · cases habort
  · rcases run_error hrun with ⟨e, habort, -⟩ | ⟨-, plan, prepared, staged, fault, hprepare, hfiles, hpending, hfails⟩
    · cases habort
    · obtain ⟨rfl, hstaged⟩ := staged_of_prepare hroot orderly confines hcleared hprepare hfiles hpending
      exact ((hscripts _).error hstaged hfails).files

end Runs

/-- A run whose clearing does not fail changes what the deploy root affects, and scratch places, and nothing
else. -/
theorem run_changes (hrun : run compiler settings world = .ok report world')
    (hroot : settings.deployRoot world.files = .ok root)
    (orderly : Orderly compiler settings scratchName world root)
    (hcleared : ∀ reason, ⟨"clear", .failed reason⟩ ∉ report.steps) :
    Changes (Changeable world.files root settings scratchName) world.files world'.files := by
  have hclear : ∀ reason, (clearDirectory root world.files).1 ≠ .failed reason := by
    intro reason hfailed
    obtain ⟨plan, prepared, ended, hprepare, hcarry, -⟩ := run_inv hrun
    obtain ⟨hprepared, -, hplanRoot, -⟩ := prepare_inv hprepare
    obtain ⟨staged, summary, -, -, -, hsteps, -⟩ := carryOut_inv hcarry
    obtain rfl : plan.root = root := Except.ok.inj (hplanRoot.symm.trans hroot)
    refine hcleared reason ?_
    rw [hsteps, hprepared]
    simp [Plan.stages, runStages, hfailed]
  obtain ⟨inv, confines, hinv⟩ :=
    exists_confines orderly.direct orderly.staging.aside orderly.wellFormed hclear
  have hended := run_maintains hroot orderly confines hinv
  rw [hrun] at hended
  exact confines.changes hended

/-! ### Inputs -/

/-- The files that a run reads: the package document, the configuration if there is one, and the sources
that are scanned. -/
inductive IsInput (settings : Settings) (fs : FileSystem) : Path → Prop
  | package : IsInput settings fs (settings.projectDir.child packageFileName)
  | config : fs.holdsFile (settings.projectDir.child configFileName) = true →
      IsInput settings fs (settings.projectDir.child configFileName)
  | source {sources : List Path} {path : Path} :
      Scan.collectSources fs settings.projectDir settings.sources = .ok sources → path ∈ sources →
      IsInput settings fs path

theorem holdsFile_of_load {package : Package} {dir : Path} (h : Package.load fs dir = .ok package) :
    fs.holdsFile (dir.child packageFileName) = true := by
  unfold Package.load at h
  simp only at h
  split at h
  · split at h
    · cases h
    next content _ hread =>
        obtain ⟨bytes, s, hbytes, -⟩ := bind_eq_ok.1 hread
        rw [FileAction.readBytes_eq] at hbytes
        rcases hlookup : fs.lookup (dir.child packageFileName) with _ | ⟨location, _ | _ | _⟩
        · simp [hlookup] at hbytes
        · exact holdsFile_iff.2 ⟨location, _, lookup_eq_ok_iff.1 hlookup⟩
        · simp [hlookup] at hbytes
        · simp [hlookup] at hbytes
  · cases h

theorem holdsFile_of_collectSources {projectDir : Path} {pattern : String} {sources : List Path}
    (h : Scan.collectSources fs projectDir pattern = .ok sources) (hpath : path ∈ sources) :
    fs.holdsFile path = true := by
  unfold Scan.collectSources at h
  cases hfound : Glob.paths fs (Scan.sourcePattern projectDir pattern) with
  | error fault => simp [hfound, bind, Except.bind] at h
  | ok found =>
      simp only [hfound, bind, Except.bind, pure, Except.pure, Except.ok.injEq] at h
      subst h
      exact (List.mem_filter.1 (List.mem_mergeSort.1 hpath)).2

/-- Every input of a run is a file. -/
theorem IsInput.holdsFile {package : Package} (h : IsInput settings fs path)
    (hpackage : Package.load fs settings.projectDir = .ok package) : fs.holdsFile path = true := by
  cases h with
  | package => exact holdsFile_of_load hpackage
  | config hconfig => exact hconfig
  | source hsources hpath => exact holdsFile_of_collectSources hsources hpath

/-- An input whose way leads past nothing that changes is still there after the run, in its place and with
the same bytes. -/
theorem run_keeps_inputs (hrun : run compiler settings world = .ok report world')
    (hroot : settings.deployRoot world.files = .ok root)
    (orderly : Orderly compiler settings scratchName world root)
    (hcleared : ∀ reason, ⟨"clear", .failed reason⟩ ∉ report.steps)
    (hinput : IsInput settings world.files path)
    (haway : ∀ place ∈ world.files.way path, ¬ Changeable world.files root settings scratchName place) :
    ∃ location contents, world.files.lookup path = .ok (location, .file contents)
      ∧ world'.files.lookup path = .ok (location, .file contents) := by
  obtain ⟨plan, prepared, -, hprepare, -⟩ := run_inv hrun
  obtain ⟨-, -, -, ⟨package, hpackage, -⟩, -⟩ := prepare_inv hprepare
  obtain ⟨location, contents, hresolve⟩ := holdsFile_iff.1 (hinput.holdsFile hpackage)
  have hlookup := lookup_eq_ok_iff.2 hresolve
  refine ⟨location, contents, hlookup, ?_⟩
  rw [(run_changes hrun hroot orderly hcleared).lookup haway, hlookup]

/-! ### A run of a small project -/

/-- A project with a source and a script, and a deploy root that holds something old. -/
def scriptProject : FileSystem :=
  ofEntries ⟨"/w"⟩ [(["w"], .directory),
    (["w", "package.json"], .file "\x7b\"name\":\"m\",\"main\":\"a.ts\"\x7d".toUTF8),
    (["w", "src"], .directory), (["w", "src", "a.ts"], .file ByteArray.empty),
    (["w", "build"], .directory), (["w", "build", "main.lua"], .file "x".toUTF8),
    (["w", "extra_lua"], .directory), (["w", "extra_lua", "foo.ts"], .file ByteArray.empty),
    (["w", "deploy"], .directory), (["w", "deploy", "old.lua"], .file ByteArray.empty)]

/-- The place of the compiled script. -/
def fooOutput : Location := ["w", "extra_lua", "foo.lua"]

/-- A compiler that writes the compiled script, unless there is no place for it. -/
def fooCompiler : Compiler := fun _ _ world =>
  if world.files.entry? ["w", "extra_lua"] = some .directory
      ∧ world.files.entry? fooOutput ≠ some .directory then
    (.exited (.code 0) "" "", { world with files := world.files.put fooOutput (.file "y".toUTF8) })
  else (.exited (.code 1) "" "", world)

/-- Whether a run ends in a report, and in a world, of some kind. -/
def endsWith (test : Report → World → Bool) : EStateM.Result Abort World Report → Bool
  | .ok report world => test report world
  | .error _ _ => false

theorem exists_of_endsWith {test : Report → World → Bool} {result : EStateM.Result Abort World Report}
    (h : endsWith test result = true) :
    ∃ report world, result = .ok report world ∧ test report world = true := by
  unfold endsWith at h
  split at h
  next report world => exact ⟨report, world, rfl, h⟩
  · cases h

theorem not_mem_steps_of_not_hasFailures (h : report.hasFailures = false) {name reason : String} :
    ⟨name, .failed reason⟩ ∉ report.steps := fun hmem => by
  simp only [Report.hasFailures, List.any_eq_false] at h
  exact h _ hmem rfl

theorem scriptProject_unlinked (place : Location) (text : String) :
    scriptProject.entry? place ≠ some (.link text) := ofEntries_unlinked (by decide) place text

/-- Where the deploy root of the project lies. -/
def scriptSite : Site scriptProject ⟨"./deploy"⟩ where
  known := ["w", ".", "deploy"]
  missing := []
  base := ["w", "deploy"]
  namesTo_eq := by decide +kernel
  leads := leadsTo_of_canonical? (by decide +kernel : scriptProject.holdsDirectory ⟨"./deploy"⟩ = true)
    (by decide +kernel)
  noParent := by decide
  absent := nofun

theorem scratch_scriptProject {place : Location}
    (h : Scratch scriptProject ⟨"./deploy"⟩ (hereSettings "deploy") scratchName place) :
    ∃ name, scratchName name ∧ place = ["w", "extra_lua", name] := by
  obtain ⟨⟨dir, name, hdir, hname, rfl⟩, -⟩ := h
  have haux : scriptProject.canonical? (hereSettings "deploy").auxDir = some ["w", "extra_lua"] := by
    decide +kernel
  obtain rfl := Option.some.inj (hdir.symm.trans haux)
  exact ⟨name, hname, rfl⟩

theorem changeable_scriptProject {place : Location}
    (h : Changeable scriptProject ⟨"./deploy"⟩ (hereSettings "deploy") (fun _ => True) place) :
    Beneath ["w", "deploy"] place ∨ Beneath ["w", "extra_lua"] place
      ∨ place <+: ["w", "deploy"] ∧ scriptProject.entry? place = none := by
  rcases h with haffected | hscratch
  · rcases scriptSite.affected_iff.1 haffected with hbeneath | habove
    · exact .inl hbeneath
    · exact .inr (.inr habove)
  · obtain ⟨name, -, rfl⟩ := scratch_scriptProject hscratch
    exact .inr (.inl (beneath_iff.2 ⟨[name], by simp, rfl⟩))

theorem scratch_fooOutput (hname : scratchName "foo.lua") :
    Scratch scriptProject ⟨"./deploy"⟩ (hereSettings "deploy") scratchName fooOutput := by
  refine ⟨⟨["w", "extra_lua"], "foo.lua", by decide +kernel, hname, rfl⟩, fun site => ?_⟩
  rw [scriptSite.dir_unique site]
  decide

theorem fooCompiler_staged (hname : scratchName "foo.lua") :
    StagedCompiler scriptProject ⟨"./deploy"⟩ (hereSettings "deploy") scratchName fooCompiler := by
  intro invocation limit world hworld
  unfold fooCompiler
  split
  next hplace =>
      refine ⟨?_, hworld.pending⟩
      refine (Changes.refl _).put ⟨["w", "extra_lua"], "foo.lua", rfl, by decide, hplace⟩ ?_ nofun
      exact scratch_fooOutput hname
  · exact ⟨.refl _, hworld.pending⟩

theorem scriptProject_orderly :
    Orderly fooCompiler (hereSettings "deploy") (fun _ => True) { files := scriptProject } ⟨"./deploy"⟩ where
  wellFormed := by decide +kernel
  direct := by
    have hroot := leadsTo_of_canonical? (by decide +kernel : scriptProject.holdsDirectory ⟨"./deploy"⟩ = true)
      (by decide +kernel : scriptProject.canonical? ⟨"./deploy"⟩ = some ["w", "deploy"])
    refine ⟨⟨by decide, by decide, by decide⟩, fun before after hnames => ?_, fun dir hdir => ?_⟩
    · have hparent : ".." ∉ scriptProject.namesTo ⟨"./deploy"⟩ := by decide +kernel
      exact absurd (hnames ▸ by simp) hparent
    · obtain rfl := hdir.unique hroot
      decide +kernel
  metadata := by
    have hstays : ∀ package ∈ (Package.load scriptProject (hereSettings "deploy").projectDir).toOption,
        (Metadata.ofPackage package).StaysBelow := by decide +kernel
    intro package hpackage
    dsimp only at hpackage
    rw [hpackage] at hstays
    exact hstays package rfl
  staging := by
    dsimp only
    refine ⟨fun _ _ => trivial, fun dir name _ _ text hlink => ?_, .inl fun place hplace hchange => ?_,
      fun place hplace hscratch => ?_⟩
    · exact scriptProject_unlinked _ _ hlink
    · have haway : ∀ place ∈ scriptProject.way (hereSettings "deploy").auxDir,
          ¬ (Beneath ["w", "deploy"] place ∨ Beneath ["w", "extra_lua"] place
            ∨ place <+: ["w", "deploy"] ∧ scriptProject.entry? place = none) := by decide +kernel
      exact haway place hplace (changeable_scriptProject hchange)
    · have haway : ∀ place ∈ scriptProject.way ⟨"./deploy"⟩,
          ¬ (Beneath ["w", "deploy"] place ∨ Beneath ["w", "extra_lua"] place
            ∨ place <+: ["w", "deploy"] ∧ scriptProject.entry? place = none) := by decide +kernel
      exact haway place hplace (changeable_scriptProject (.inr hscratch))
  compiler := fooCompiler_staged trivial
  pending := nofun

theorem scriptProject_succeeds :
    ∃ report world, run fooCompiler (hereSettings "deploy") { files := scriptProject } = .ok report world
      ∧ report.hasFailures = false := by
  have hends : endsWith (fun report _ => !report.hasFailures)
      (run fooCompiler (hereSettings "deploy") { files := scriptProject }) = true := by decide +kernel
  obtain ⟨report, world, hrun, htest⟩ := exists_of_endsWith hends
  exact ⟨report, world, hrun, by simpa using htest⟩

theorem run_keeps_inputs_scriptProject :
    ∃ report world, run fooCompiler (hereSettings "deploy") { files := scriptProject } = .ok report world
      ∧ (∃ location contents, scriptProject.lookup ⟨"src/a.ts"⟩ = .ok (location, .file contents)
        ∧ world.files.lookup ⟨"src/a.ts"⟩ = .ok (location, .file contents)) := by
  obtain ⟨report, world, hrun, hsucceeds⟩ := scriptProject_succeeds
  have hroot : (hereSettings "deploy").deployRoot scriptProject = .ok ⟨"./deploy"⟩ := by decide +kernel
  have hsources : Scan.collectSources scriptProject (hereSettings "deploy").projectDir
      (hereSettings "deploy").sources = .ok [⟨"src/a.ts"⟩] := by decide +kernel
  have hinput : IsInput (hereSettings "deploy") scriptProject ⟨"src/a.ts"⟩ := .source hsources (by simp)
  have haway : ∀ place ∈ scriptProject.way ⟨"src/a.ts"⟩,
      ¬ (Beneath ["w", "deploy"] place ∨ Beneath ["w", "extra_lua"] place
        ∨ place <+: ["w", "deploy"] ∧ scriptProject.entry? place = none) := by decide +kernel
  have hkept := run_keeps_inputs hrun hroot scriptProject_orderly
    (fun _ => not_mem_steps_of_not_hasFailures hsucceeds) hinput
    (fun place hplace hchange => haway place hplace (changeable_scriptProject hchange))
  exact ⟨report, world, hrun, hkept⟩

/-- A deploy root that holds the sources is accepted, and the run that clears it succeeds. -/
theorem run_deletes_source :
    Scan.collectSources scriptProject (hereSettings "src").projectDir (hereSettings "src").sources
      = .ok [⟨"src/a.ts"⟩]
    ∧ scriptProject.holdsFile ⟨"src/a.ts"⟩ = true
    ∧ ∃ report world, run fooCompiler (hereSettings "src") { files := scriptProject } = .ok report world
      ∧ report.hasFailures = false ∧ world.files.holds ⟨"src/a.ts"⟩ = false := by
  have hends : endsWith (fun report world => !report.hasFailures && !world.files.holds ⟨"src/a.ts"⟩)
      (run fooCompiler (hereSettings "src") { files := scriptProject }) = true := by decide +kernel
  obtain ⟨report, world, hrun, htest⟩ := exists_of_endsWith hends
  exact ⟨by decide +kernel, by decide +kernel, report, world, hrun, by simpa using htest⟩

end Pipeline

end ModPackager
