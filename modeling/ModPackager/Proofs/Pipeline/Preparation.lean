import ModPackager.Proofs.AuxScript.Repetition
import ModPackager.Proofs.Pipeline.Inputs

/-!
# Preparing a run again

A run is `Repeatable` if nothing that it changes feeds back into what the next one reads: the package document, what
the include pattern looks at, the build tree and the scripts all lie apart from that. What follows then finds the same
package and scans the same sources (`Scan.scanProject_congr`). The deploy root is a directory by then, but it is accepted
as before (`Repeatable.deployRoot_eq`), so there is the same plan (`Repeatable.prepare_again`).
-/

namespace ModPackager

open FileSystem FileAction Deploy

variable {fs fs' : FileSystem} {root path : Path} {settings : Settings} {changed : Location → Prop}
  {dir place location : Location} {name : String} {names : List String} {site : Site fs root}
  {scratchName : String → Prop}

/-! ### Reading again -/

/-- A path that leads to the same in both is read alike. -/
theorem readText_alike (h : ∀ follow, fs'.resolve follow path = fs.resolve follow path) :
    SameEnd (fun s t : FileSystem => ∀ follow, t.resolve follow path = s.resolve follow path)
      (readText path fs) (readText path fs') :=
  readText_tracks (fun _ _ h => h) fs fs' h

theorem Package.load_eq {dir : Path}
    (h : ∀ follow, fs'.resolve follow (dir.child packageFileName) = fs.resolve follow (dir.child packageFileName)) :
    Package.load fs' dir = Package.load fs dir := by
  have hread := readText_alike h
  have hholds : fs'.holds (dir.child packageFileName) = fs.holds (dir.child packageFileName) := by
    rw [holds, holds, lookup?, lookup?, lookup_of_resolve (h true)]
  simp only [Package.load, hholds]
  generalize readText (dir.child packageFileName) fs = first, readText (dir.child packageFileName) fs' = other at hread
  cases hread <;> rfl

namespace Scan

theorem scanFile_congr {projectDir : Path} (h : ∀ follow, fs'.resolve follow path = fs.resolve follow path) :
    scanFile fs' projectDir path = scanFile fs projectDir path := by
  have hread := readText_alike h
  simp only [scanFile]
  generalize readText path fs = first, readText path fs' = other at hread
  cases hread <;> rfl

/-- Where the include pattern looks at nothing that has changed, the same sources are scanned, with the same result. -/
theorem scanProject_congr (wf : fs.WellFormed)
    (havoids : Glob.Avoids fs (sourcePattern settings.projectDir settings.sources) changed)
    (hchanges : Changes changed fs fs') : scanProject fs' settings = scanProject fs settings := by
  have hpaths := havoids.paths_congr wf hchanges
  unfold scanProject collectSources
  rw [hpaths]
  cases hfound : Glob.paths fs (sourcePattern settings.projectDir settings.sources) with
  | error fault => rfl
  | ok found =>
      have hsame : ∀ path ∈ found, ∀ follow, fs'.resolve follow path = fs.resolve follow path :=
        fun path hmem _ => hchanges.resolve (havoids.away wf hfound hmem)
      have hfiles : found.filter fs'.holdsFile = found.filter fs.holdsFile :=
        List.filter_congr fun path hmem => by
          rw [holdsFile, holdsFile, lookup?, lookup?, lookup_of_resolve (hsame path hmem true)]
      have hscans : ((found.filter fs.holdsFile).mergeSort fun a b => !b.before a).map (scanFile fs' settings.projectDir)
          = ((found.filter fs.holdsFile).mergeSort fun a b => !b.before a).map (scanFile fs settings.projectDir) :=
        List.map_congr_left fun path hmem =>
          scanFile_congr (hsame path (List.mem_of_mem_filter (List.mem_mergeSort.1 hmem)))
      simp only [bind, Except.bind, pure, Except.pure, hfiles, hscans]

end Scan

/-! ### Accepting the root again -/

/-- Names that spell directories lead on from a directory. -/
theorem FileSystem.LeadsTo.append_valid (wf : fs.WellFormed) (h : fs.LeadsTo names dir) {more : List String}
    (hmore : ∀ name ∈ more, ValidName name) (hthere : fs.entry? (dir ++ more) = some .directory) :
    fs.LeadsTo (names ++ more) (dir ++ more) := by
  have hclimb : climb dir more = dir ++ more := climb_of_plain (ValidName.plain hmore)
  rw [← hclimb] at hthere ⊢
  exact h.append fun _ => wf.leads_climb (fun hup => (hmore _ hup).2.2.1 rfl) hthere

/-- An accepted root does not lie inside a build tree that lies apart from it, once its directory is made. -/
theorem Deploy.Site.not_inside (site : Site fs root) (haccepted : settings.deployRoot fs = .ok root)
    (hroot : Followable root) (wf : fs.WellFormed) (hbuild : Apart fs settings.buildDir (Affected fs root))
    (hplace : fs.canonical? settings.buildDir = some place) (wf' : fs'.WellFormed)
    (hdir : fs'.entry? site.dir = some .directory) : ¬ place <+: site.dir := by
  intro hinside
  by_cases hmissing : site.missing = []
  · exact Settings.not_inside_canonical haccepted
      (canonical?_eq_some_iff.2 ⟨_, site.resolve_root hroot hmissing⟩) hplace hinside
  · obtain ⟨entry, hresolve⟩ := canonical?_eq_some_iff.1 hplace
    have hentry := entry?_of_found hresolve
    obtain rfl := site.isDirectory_of_prefix_dir wf hinside hentry
    -- The first missing place lies in the build tree, and is made.
    obtain ⟨name, rest, hcons⟩ := List.exists_cons_of_ne_nil hmissing
    obtain ⟨hdot, hup, hnone⟩ := site.first_missing (⟨[], by simp [hcons]⟩ : name :: rest <+: _)
    have hfirst : site.base ++ [name] <+: site.dir := by
      rw [Site.dir, hcons, climb_cons, climbStep_of_ne hdot hup]
      exact prefix_climb fun hmem => site.noParent (hcons ▸ List.mem_cons_of_mem _ hmem)
    obtain ⟨more, hmore⟩ : place <+: site.base := by
      rcases List.prefix_or_prefix_of_prefix hfirst hinside with hbelow | habove
      · rw [wf.entry?_eq_none_of_prefix hbelow hnone] at hentry
        cases hentry
      · rcases List.prefix_concat_iff.1 habove with rfl | hbase
        · rw [hnone] at hentry
          cases hentry
        · exact hbase
    have hvalid : ∀ other ∈ more ++ [name], ValidName other := by
      obtain ⟨found, hfound⟩ : ∃ found, fs'.entry? (site.base ++ [name]) = some found := by
        rw [← Option.ne_none_iff_exists']
        intro hgone
        rw [wf'.entry?_eq_none_of_prefix hfirst hgone] at hdir
        cases hdir
      obtain ⟨node, hnode⟩ := exists_mem_nodes hfound (by simp)
      intro other hother
      refine (wf'.validNames _ hnode).2 other ?_
      rw [← hmore, List.append_assoc]
      exact List.mem_append_right _ hother
    have hvalidMore : ∀ other ∈ more, ValidName other := fun other hother => hvalid other (List.mem_append_left _ hother)
    have hpath := (resolve_eq_ok_iff.1 hresolve).1.2.1
    have hleads : fs.LeadsTo (fs.namesTo (settings.buildDir.descend more)) site.base := by
      rw [namesTo_descend hpath hvalidMore, ← hmore]
      exact (leadsTo_of_resolve hresolve).append_valid wf hvalidMore (hmore ▸ site.leads.isDirectory)
    have hway := mem_way_child (Path.text_descend_ne hpath hvalidMore) (hvalid name (by simp)) hleads
    rw [← Path.descend_concat] at hway
    exact hbuild _ hvalid _ hway (site.affected_iff.2 (.inr ⟨hfirst, hnone⟩))

/-! ### The same plan -/

namespace Pipeline

variable {compiler : Compiler} {world world' prepared : World} {plan : Plan}

/-- An orderly run that does not feed back into the next one: whatever it reads lies apart from what it changes, and
the compiler does the same whatever an earlier run has left. -/
structure Repeatable (compiler : Compiler) (settings : Settings) (scratchName : String → Prop) (world : World)
    (root : Path) : Prop where
  orderly : Orderly compiler settings scratchName world root
  package : Away world.files (Changeable world.files root settings scratchName) (settings.projectDir.child packageFileName)
  sources : Glob.Avoids world.files (Scan.sourcePattern settings.projectDir settings.sources)
    (Changeable world.files root settings scratchName)
  build : Apart world.files settings.buildDir (Changeable world.files root settings scratchName)
  aux : Away world.files (Changeable world.files root settings scratchName) settings.auxDir
  scripts : AuxScript.ScriptsAway world.files root settings scratchName
  steady : compiler.Steady (Fit world.files root settings scratchName) (Output world.files root settings scratchName)
  /-- No directory lies where the compiler may put a file. -/
  leaves : ∀ place, Scratch world.files root settings scratchName place → world.files.entry? place ≠ some .directory
  idle : world.pending = []

/-- With a package, a root and a scan there is a plan. -/
theorem prepare_succeeds {package : Package} {scan : Scan.Result}
    (hpackage : Package.load world.files settings.projectDir = .ok package)
    (hroot : settings.deployRoot world.files = .ok root) (hscan : Scan.scanProject world.files settings = .ok scan) :
    ∃ prepared, prepare settings world = .ok ⟨root, Metadata.ofPackage package, scan,
        Manifest.renderPatches scan.descriptors settings.honorMatchIndent⟩ prepared
      ∧ prepared.files = world.files ∧ prepared.pending = world.pending := by
  unfold prepare
  simp only [bind, EStateM.bind, run_get, hpackage, hroot, hscan, require, pure, EStateM.pure, note, run_modify]
  exact ⟨_, rfl, rfl, rfl⟩

namespace Repeatable

variable (h : Repeatable compiler settings scratchName world root)

include h

/-- The directories that must be kept are where they were. -/
theorem canonical?_kept (hchanges : Changes (Changeable world.files root settings scratchName) world.files fs')
    (hkept : path ∈ settings.keptPaths) (hplace : fs'.canonical? path = some place) :
    world.files.canonical? path = some place := by
  obtain ⟨entry, hresolve⟩ := canonical?_eq_some_iff.1 hplace
  have haway : Away world.files (Changeable world.files root settings scratchName) path := by
    rcases Settings.mem_keptPaths.1 hkept with rfl | rfl | rfl
    · have hname : ValidName packageFileName := by decide
      have hpath := (resolve_eq_ok_iff.1 hresolve).1.2.1
      refine fun other hother => h.package other (mem_way_of_part ?_ hother)
      rw [namesTo_child world.files hpath hname.1 hname.2.2.2.1]
      exact List.prefix_append _ _
    · exact h.build.away
    · exact h.aux
  exact canonical?_eq_some_iff.2 ⟨entry, (hchanges.resolve haway).symm.trans hresolve⟩

/-- The root is accepted again once its directory is made. -/
theorem deployRoot_eq (haccepted : settings.deployRoot world.files = .ok root) (site : Site world.files root)
    (hchanges : Changes (Changeable world.files root settings scratchName) world.files fs')
    (hdir : fs'.entry? site.dir = some .directory) (hlocation : fs'.canonical? root = some site.dir) :
    settings.deployRoot fs' = .ok root := by
  have hroot := h.orderly.direct.followable
  have wf := h.orderly.wellFormed
  refine Settings.deployRoot_again haccepted hchanges.workingDir (fun path hkept location place hroot' hplace => ?_)
    fun location place hroot' hplace => ?_
  · obtain rfl := Option.some.inj (hlocation.symm.trans hroot')
    exact site.not_contains haccepted hroot wf hkept (h.canonical?_kept hchanges hkept hplace)
  · obtain rfl := Option.some.inj (hlocation.symm.trans hroot')
    have hkept : settings.buildDir ∈ settings.keptPaths := Settings.mem_keptPaths.2 (.inr (.inl rfl))
    have hbuild : Apart world.files settings.buildDir (Affected world.files root) :=
      fun names hnames place hplace haffected => h.build names hnames place hplace (.inl haffected)
    exact site.not_inside haccepted hroot wf hbuild (h.canonical?_kept hchanges hkept hplace) (hchanges.wellFormed wf) hdir

/-- There is the same plan as before. -/
theorem prepare_again (haccepted : settings.deployRoot world.files = .ok root) (site : Site world.files root)
    (hchanges : Changes (Changeable world.files root settings scratchName) world.files world'.files)
    (hdir : world'.files.entry? site.dir = some .directory) (hlocation : world'.files.canonical? root = some site.dir)
    (hprepare : prepare settings world = .ok plan prepared) :
    ∃ prepared', prepare settings world' = .ok plan prepared' ∧ prepared'.files = world'.files
      ∧ prepared'.pending = world'.pending := by
  obtain ⟨-, -, hroot, ⟨package, hpackage, hmetadata⟩, hscan, hmanifest⟩ := prepare_inv hprepare
  have hpackage' : Package.load world'.files settings.projectDir = .ok package := by
    rw [Package.load_eq fun _ => hchanges.resolve h.package, hpackage]
  have hroot' : settings.deployRoot world'.files = .ok plan.root := by
    rw [h.deployRoot_eq haccepted site hchanges hdir hlocation, ← haccepted, hroot]
  have hscan' : Scan.scanProject world'.files settings = .ok plan.scan := by
    rw [Scan.scanProject_congr h.orderly.wellFormed h.sources hchanges, hscan]
  obtain ⟨prepared', hprepare', hfiles, hpending⟩ := prepare_succeeds hpackage' hroot' hscan'
  refine ⟨prepared', ?_, hfiles, hpending⟩
  rw [hprepare', ← hmetadata, ← hmanifest]

end Repeatable

end Pipeline

end ModPackager
