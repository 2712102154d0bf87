import ModPackager.Proofs.Deploy.Holding
import ModPackager.Proofs.Pipeline.Layout

/-!
# What the digests of a report describe

The digests are those of the manifest and of the metadata document as they are rendered, before the first
step. Both are written and then stay, unless the build tree has a file of its own for one of their places
(`run_digests`): the names of scripts and of their manifest have other endings, so nothing else is written
there.

The build tree is copied over what is there already. A manifest of its own takes the place of the one that
was rendered, and the report still has the digest of the latter (`run_overlays_manifest`).
-/

namespace ModPackager

open FileSystem FileAction Deploy

/-! ### The place of the metadata document -/

/-- The names of the metadata document spell a place with the ending of documents. -/
theorem Metadata.climb_fileName (metadata : Metadata) :
    ∃ dir front, climb [] (namesOf metadata.fileName) = dir ++ [String.ofList (front ++ ".json".toList)] := by
  have hending : '/' ∉ ".json".toList := by decide
  obtain ⟨front, hlast⟩ := Path.getLast?_pieces_append hending metadata.id.toList
  obtain ⟨before, hpieces⟩ := List.getLast?_eq_some_iff.1 hlast
  have hnames : namesOf metadata.fileName = nonEmpty before ++ [String.ofList (front ++ ".json".toList)] := by
    rw [namesOf_eq, Metadata.fileName, String.toList_append, hpieces, nonEmpty_append]
    simp [nonEmpty]
  have hlong : ∀ text : String, text.toList.length < 5 → String.ofList (front ++ ".json".toList) ≠ text := by
    rintro text htext rfl
    rw [String.toList_ofList, List.length_append] at htext
    exact absurd htext (by simp)
  refine ⟨climb [] (nonEmpty before), front, ?_⟩
  rw [hnames, climb_append, climb_cons, climb_nil,
    climbStep_of_ne (hlong "." (by decide)) (hlong ".." (by decide))]

/-- Files in a directory below the root whose names end differently lie elsewhere. -/
theorem Metadata.climb_fileName_ne (metadata : Metadata) {dir name : String} (h : name.toList.getLast? ≠ some 'n') :
    [dir, name] ≠ climb [] (namesOf metadata.fileName) := by
  obtain ⟨above, front, hdocument⟩ := metadata.climb_fileName
  intro heq
  rw [hdocument] at heq
  have hlast := congrArg List.getLast? heq
  simp only [List.getLast?_append, List.getLast?_singleton, Option.some_or, List.getLast?_cons_cons,
    Option.some.injEq] at hlast
  refine h ?_
  rw [hlast]
  simp

namespace Pipeline

variable {fs now : FileSystem} {settings : Settings} {plan : Plan} {world world' : World} {report : Report}
  {compiler : Compiler} {root : Path} {scratchName : String → Prop} {extra : Location → Prop}
  {site : Site fs root} {package : Package} {rel : Location}

/-! ### The documents of a plan -/

/-- The manifest of patches and the metadata document, with the directories on the way to them. -/
def Plan.documents (plan : Plan) (rel : List String) (entry : Entry) : Prop :=
  Layer.ofFile [lovelyDir, patchesName] plan.manifest.toUTF8 rel = some entry
    ∨ Layer.ofFile (namesOf plan.metadata.fileName) plan.metadata.render.toUTF8 rel = some entry

/-- The places of the documents are those of their files. -/
theorem Plan.documents_file {contents : ByteArray} (h : plan.documents rel (.file contents)) :
    rel = [lovelyDir, patchesName] ∨ rel = climb [] (namesOf plan.metadata.fileName) :=
  h.imp Layer.eq_climb_of_ofFile Layer.eq_climb_of_ofFile

/-- Scripts and their manifest have places of their own. -/
theorem Plan.documents_fitsScripts (plan : Plan) :
    AuxScript.FitsScripts fun names => ∀ contents, ¬ plan.documents (climb [] names) (.file contents) := by
  constructor
  · intro name hname hscript contents hkept
    obtain ⟨-, hdot, hup, -⟩ := scriptTarget_plain hname
    have hclimb : climb [] [scriptDir, scriptTarget name] = [scriptDir, scriptTarget name] := by
      refine climb_of_plain fun other hother => ?_
      simp only [List.mem_cons, List.not_mem_nil, or_false] at hother
      rcases hother with rfl | rfl
      · decide
      · exact ⟨hdot, hup⟩
    rw [hclimb] at hkept
    rcases plan.documents_file hkept with hpatches | hdocument
    · exact absurd (List.cons.inj hpatches).1 (by decide)
    · exact plan.metadata.climb_fileName_ne (by simp [scriptTarget]) hdocument
  · intro contents hkept
    rcases plan.documents_file hkept with hpatches | hdocument
    · exact absurd hpatches (by decide)
    · exact plan.metadata.climb_fileName_ne (by decide) hdocument

/-- The build tree has nothing for a place below the root, and the path to it there runs through nothing that
the deployment changes. -/
structure Uncovered (fs : FileSystem) (settings : Settings) (root : Path) (rel : Location) : Prop where
  nothing : fs.holds (settings.buildDir.descend rel) = false
  way : ∀ place ∈ fs.way (settings.buildDir.descend rel), ¬ Affected fs root place

/-! ### The run -/

/-- The stages behind clearing write the documents, and leave them alone then. -/
theorem laterStages_hold (hspares : site.Spares fun _ => False) (wf : fs.WellFormed) (htext : root.text ≠ "")
    (hroot : plan.root = root) (hmetadata : plan.metadata.StaysBelow)
    (hpatches : Uncovered fs settings root [lovelyDir, patchesName])
    (hdocument : Uncovered fs settings root (climb [] (namesOf plan.metadata.fileName)))
    (h : site.Prepared (fun _ => False) now)
    (hsucceeds : ∀ name reason, ⟨name, .failed reason⟩ ∉ (runStages (plan.laterStages settings) now).1) :
    Straight plan.patchesPath [lovelyDir, patchesName]
      ∧ Straight plan.metadataPath (namesOf plan.metadata.fileName)
      ∧ site.Holds (fun _ => False) plan.documents (runStages (plan.laterStages settings) now).2 := by
  subst hroot
  unfold Plan.laterStages at hsucceeds ⊢
  have hpatchesPath : Extends plan.root plan.patchesPath [lovelyDir, patchesName] :=
    AuxScript.extends_manifest htext validName_patchesName
  have hmetadataPath : Extends plan.root plan.metadataPath (namesOf plan.metadata.fileName) :=
    Metadata.extends_fileName htext hmetadata
  obtain ⟨-, hrest⟩ := runStages_cons_succeeds hsucceeds
  obtain ⟨hpatched, hrest⟩ := runStages_cons_succeeds hrest
  obtain ⟨hdescribed, -⟩ := runStages_cons_succeeds hrest
  have hstart : site.Holds (fun _ => False) (fun _ _ => False) now := ⟨h, fun _ _ _ => False.elim⟩
  have hfounded := (Site.Holds.deployable hspares wf htext).createSkeleton hstart
  obtain ⟨hstraight, hheld⟩ := writeFile_holds hspares wf hpatchesPath
    (AuxScript.staysInside_manifest validName_patchesName) (by simp) hfounded (fun _ => id) hpatched
  have hother : ∀ old, ¬ (False ∨ Layer.ofFile [lovelyDir, patchesName] plan.manifest.toUTF8
      (climb [] (namesOf plan.metadata.fileName)) = some (.file old)) := by
    rintro old (hnever | hfile)
    · exact hnever
    · exact plan.metadata.climb_fileName_ne (by decide) (Layer.eq_climb_of_ofFile hfile).symm
  obtain ⟨hstraight', hheld'⟩ := writeFile_holds hspares wf hmetadataPath hmetadata.2
    plan.metadata.namesOf_fileName_ne_nil hheld hother hdescribed
  have hdocuments : site.Holds (fun _ => False) plan.documents _ :=
    hheld'.weaken fun _ _ hentry => hentry.imp_left .inr
  refine ⟨hstraight, hstraight', ?_⟩
  -- Whatever is copied has a file in the build tree, and the documents have none.
  refine (Site.Holds.deployable hspares wf htext).copyTree (fun {later rel} hlater hvalid hholds contents hkept => ?_)
    hdocuments
  rw [climb_of_plain (ValidName.plain hvalid), List.nil_append] at hkept
  have huncovered : Uncovered fs settings plan.root rel := by
    rcases plan.documents_file hkept with rfl | rfl
    · exact hpatches
    · exact hdocument
  have hsame := hlater.prepared.changes.lookup fun place hplace hchanged =>
    huncovered.way place hplace (site.affected_iff.2 (hchanged.resolve_right id))
  have hnothing := huncovered.nothing
  rw [holds, lookup?, hsame] at hholds
  rw [holds, lookup?, hholds] at hnothing
  cases hnothing

/-- After a run without failures the manifest of patches and the metadata document are read back with the
digests of the report, unless the build tree covers them. -/
theorem run_digests (hrun : run compiler settings world = .ok report world')
    (hroot : settings.deployRoot world.files = .ok root)
    (orderly : Orderly compiler settings scratchName world root)
    (hpackage : Package.load world.files settings.projectDir = .ok package)
    (hpatches : Uncovered world.files settings root [lovelyDir, patchesName])
    (hdocument : Uncovered world.files settings root (climb [] (namesOf (Metadata.ofPackage package).fileName)))
    (hsucceeds : report.hasFailures = false) :
    ∃ patches document,
      readBytes ((root.child lovelyDir).child patchesName) world'.files = .ok patches world'.files
      ∧ Sha256.hexDigest patches.toList = report.manifestDigest
      ∧ readBytes (root.child (Metadata.ofPackage package).fileName) world'.files = .ok document world'.files
      ∧ Sha256.hexDigest document.toList = report.metadataDigest := by
  obtain ⟨plan, prepared, ended, hprepare, hcarry, hfiles, -⟩ := run_inv hrun
  obtain ⟨hprepared, hpending, hplanRoot, ⟨_, hloaded, hmetadata⟩, -⟩ := prepare_inv hprepare
  obtain rfl : plan.root = root := Except.ok.inj (hplanRoot.symm.trans hroot)
  obtain rfl := Except.ok.inj (hloaded.symm.trans hpackage)
  rw [← hmetadata] at hdocument ⊢
  obtain ⟨staged, summary, hstaged, hstagedPending, htranspile, hsteps, -⟩ := carryOut_inv hcarry
  rw [hprepared] at hstaged hsteps
  have hunfailed : ∀ name reason, ⟨name, .failed reason⟩ ∉ report.steps :=
    fun _ _ => not_mem_steps_of_not_hasFailures hsucceeds
  rw [hsteps] at hunfailed
  have hstages : ∀ name reason, ⟨name, .failed reason⟩
      ∉ (runStages (("clear", clearDirectory plan.root) :: plan.laterStages settings) world.files).1 :=
    fun name reason hmem => hunfailed name reason (List.mem_append_left _ hmem)
  obtain ⟨hclear, hlater⟩ := runStages_cons_succeeds hstages
  have wf := orderly.wellFormed
  have hfollow := orderly.direct.followable
  have hbelow : plan.metadata.StaysBelow := hmetadata ▸ orderly.metadata _ hloaded
  obtain ⟨site⟩ := exists_site orderly.direct wf (runStages_cons_succeeds hlater).1
  have hspares := orderly.staging.aside.spares orderly.direct wf site
  obtain ⟨hpatchesPath, hmetadataPath, hheld⟩ := laterStages_hold (hspares.mono fun _ => False.elim) wf hfollow.2.1
    rfl hbelow hpatches hdocument (clearDirectory_prepared site hfollow wf hclear) hlater
  have hready : Staged world.files plan.root settings scratchName
      (site.Holds (Scratch world.files plan.root settings scratchName) plan.documents) staged := by
    refine ⟨?_, ?_⟩
    · rw [hstaged]
      exact hheld.mono fun _ => False.elim
    · rw [hstagedPending, hpending]
      exact orderly.pending
  -- Compiling keeps what the site holds, since scripts have places of their own.
  have hcompiling : Compilable world.files plan.root settings scratchName
      (site.Holds (Scratch world.files plan.root settings scratchName) plan.documents) :=
    orderly.staging.compilable_beneath hroot hfollow wf hspares Site.Holds.prepared Site.Holds.beside
  have hended := ((AuxScript.transpile_staged (Site.Holds.deployable hspares wf hfollow.2.1)
    plan.documents_fitsScripts hcompiling orderly.compiler orderly.staging plan.metadata.modPrefix).ok hready
    htranspile).1.files
  rw [← hfiles] at hended
  have hreport := carryOut_report hcarry
  refine ⟨plan.manifest.toUTF8, plan.metadata.render.toUTF8, ?_, ?_, ?_, ?_⟩
  · exact hended.readBytes hspares wf (AuxScript.extends_manifest hfollow.2.1 validName_patchesName)
      (AuxScript.staysInside_manifest validName_patchesName) (by simp) hpatchesPath fun _ _ => .inl
  · rw [hreport]
    rfl
  · exact hended.readBytes hspares wf (Metadata.extends_fileName hfollow.2.1 hbelow) hbelow.2
      plan.metadata.namesOf_fileName_ne_nil hmetadataPath fun _ _ => .inr
  · rw [hreport]
    rfl

/-! ### Runs of small projects -/

theorem scriptProject_uncovered {rel : Location}
    (hnothing : scriptProject.holds ((hereSettings "deploy").buildDir.descend rel) = false)
    (hway : ∀ place ∈ scriptProject.way ((hereSettings "deploy").buildDir.descend rel),
      ¬ (Beneath ["w", "deploy"] place ∨ place <+: ["w", "deploy"] ∧ scriptProject.entry? place = none)) :
    Uncovered scriptProject (hereSettings "deploy") ⟨"./deploy"⟩ rel :=
  ⟨hnothing, fun place hplace hchanged => hway place hplace (scriptSite.affected_iff.1 hchanged)⟩

theorem run_digests_scriptProject :
    ∃ report world patches document,
      run fooCompiler (hereSettings "deploy") { files := scriptProject } = .ok report world
      ∧ readBytes ⟨"./deploy/lovely/patches.toml"⟩ world.files = .ok patches world.files
      ∧ Sha256.hexDigest patches.toList = report.manifestDigest
      ∧ readBytes ⟨"./deploy/m.json"⟩ world.files = .ok document world.files
      ∧ Sha256.hexDigest document.toList = report.metadataDigest := by
  obtain ⟨report, world, hrun, hsucceeds⟩ := scriptProject_succeeds
  have hroot : (hereSettings "deploy").deployRoot scriptProject = .ok ⟨"./deploy"⟩ := by decide +kernel
  obtain ⟨package, hpackage, hname⟩ : ∃ package,
      Package.load scriptProject (hereSettings "deploy").projectDir = .ok package
      ∧ (Metadata.ofPackage package).fileName = "m.json" := by
    have hloads : (Package.load scriptProject (hereSettings "deploy").projectDir).toOption.any
        (fun package => (Metadata.ofPackage package).fileName == "m.json") = true := by decide +kernel
    rcases hload : Package.load scriptProject (hereSettings "deploy").projectDir with _ | package
    · simp [hload, Except.toOption] at hloads
    · exact ⟨package, rfl, by simpa [hload, Except.toOption] using hloads⟩
  have hdocument : Uncovered scriptProject (hereSettings "deploy") ⟨"./deploy"⟩
      (climb [] (namesOf (Metadata.ofPackage package).fileName)) := by
    rw [hname]
    exact scriptProject_uncovered (by decide +kernel) (by decide +kernel)
  obtain ⟨patches, document, hread⟩ := run_digests hrun hroot scriptProject_orderly hpackage
    (scriptProject_uncovered (by decide +kernel) (by decide +kernel)) hdocument hsucceeds
  rw [hname] at hread
  exact ⟨report, world, patches, document, hrun, hread⟩

/-- A project whose build tree has a manifest of its own. -/
def coveredProject : FileSystem :=
  ofEntries ⟨"/w"⟩ [(["w"], .directory),
    (["w", "package.json"], .file "\x7b\"name\":\"m\",\"main\":\"a.ts\"\x7d".toUTF8),
    (["w", "build"], .directory), (["w", "build", "lovely"], .directory),
    (["w", "build", "lovely", "patches.toml"], .file "mine".toUTF8)]

/-- The manifest of the build tree takes the place of the one whose digest is reported. -/
theorem run_overlays_manifest :
    ∃ report world patches,
      run fooCompiler (hereSettings "deploy") { files := coveredProject } = .ok report world
      ∧ report.hasFailures = false
      ∧ readBytes ⟨"./deploy/lovely/patches.toml"⟩ world.files = .ok patches world.files
      ∧ Sha256.hexDigest patches.toList ≠ report.manifestDigest := by
  have hends : endsWith (fun report world => !report.hasFailures
      && world.files.lookup? ⟨"./deploy/lovely/patches.toml"⟩
        == some (["w", "deploy", "lovely", "patches.toml"], .file "mine".toUTF8)
      && Sha256.hexDigest "mine".toUTF8.toList != report.manifestDigest)
      (run fooCompiler (hereSettings "deploy") { files := coveredProject }) = true := by decide +kernel
  obtain ⟨report, world, hrun, htest⟩ := exists_of_endsWith hends
  simp only [Bool.and_eq_true, Bool.not_eq_true', beq_iff_eq, bne_iff_ne, ne_eq] at htest
  obtain ⟨⟨hsucceeds, hlookup⟩, hdigest⟩ := htest
  refine ⟨report, world, "mine".toUTF8, hrun, hsucceeds, ?_, hdigest⟩
  rw [readBytes_eq, lookup_eq_ok_iff.2 (lookup?_eq_some_iff.1 hlookup)]

end Pipeline

end ModPackager
