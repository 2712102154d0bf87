import ModPackager.Proofs.Glob.Base
import ModPackager.Proofs.Pipeline.Layout
import ModPackager.Proofs.Pipeline.Preparation

/-!
# Running again

A run without failures has carried out its plan: the stages succeed, and then all scripts are deployed
(`exists_carriedOut`). It leaves a tidy site with the layout of the mod (`Repeatable.tidy_ended`,
`Repeatable.laid_ended`). The next run has the same plan. Clearing empties the site again, so the stages go on in a twin
of the site that the first run had (`stages_again`), and the scripts are compiled in peers
(`Repeatable.transpile_again`). So a repeatable run is followed by one that ends in the same report, but that there is
something to clear, and leaves the same tree (`run_again`).

A run that is not repeatable feeds back into the next one. If the pattern reaches into the deploy root, what has been
deployed is scanned (`run_scans_deployed`).
-/

namespace ModPackager

open FileSystem Deploy

namespace Pipeline

variable {fs now s t : FileSystem} {settings : Settings} {plan : Plan} {world world' : World} {report : Report}
  {compiler : Compiler} {root source : Path} {scratchName : String → Prop} {extra hidden : Location → Prop}
  {site : Site fs root} {metadata : Metadata} {scan : Scan.Result} {scripts : List (String × ByteArray)}

/-! ### Stages in twins -/

/-- The steps of a stage and others. -/
theorem runStages_cons_fst (name : String) (step : Step) (rest : List (String × Step)) (fs : FileSystem) :
    (runStages ((name, step) :: rest) fs).1 = ⟨name, (step fs).1⟩ :: (runStages rest (step fs).2).1 := rfl

/-- Stages come to the same in related states, and leave them related, if each of them does. -/
theorem runStages_tracks {rel : FileSystem → FileSystem → Prop} {stages : List (String × Step)}
    (hstages : ∀ stage ∈ stages, StepTracks rel stage.2) (h : rel s t) :
    (runStages stages t).1 = (runStages stages s).1 ∧ rel (runStages stages s).2 (runStages stages t).2 := by
  induction stages generalizing s t with
  | nil => exact ⟨rfl, h⟩
  | cons stage rest ih =>
      obtain ⟨name, step⟩ := stage
      obtain ⟨houtcome, hrel⟩ := hstages (name, step) List.mem_cons_self s t h
      obtain ⟨hrest, hend⟩ := ih (fun other hother => hstages other (List.mem_cons_of_mem _ hother)) hrel
      refine ⟨?_, hend⟩
      rw [runStages, runStages, houtcome, hrest]

theorem copyStage_tracks (hspares : site.Spares extra) (wf : fs.WellFormed) (hhidden : ∀ {place}, hidden place → extra place)
    (hapart : Apart fs source fun place => site.Affects place ∨ extra place) (hsource : source.text ≠ "")
    (htext : root.text ≠ "") : StepTracks (site.Twins extra hidden) (copyStage source root) := by
  intro s t h
  obtain ⟨hcopied, htwins⟩ := copyTree_tracks hspares wf hhidden hapart hsource htext h
  exact ⟨by rw [copyStage_eq, copyStage_eq, hcopied], htwins⟩

/-! ### Names that are laid out -/

theorem named_ofScripts (h : Followable (root.child scriptDir)) (scripts : List (String × ByteArray)) :
    Named root (Layer.ofScripts scripts) := by
  induction scripts with
  | nil => exact named_empty
  | cons script rest ih => exact ih.over (named_ofFile (by decide) h)

theorem named_ofScriptManifest (h : Followable (root.child lovelyDir)) (names : List String) :
    Named root (Layer.ofScriptManifest names) := by
  unfold Layer.ofScriptManifest
  split
  · exact named_empty
  · exact named_ofFile (by decide) h

/-- Whatever is laid out by stages that succeed has paths that can be followed, with scripts as well. -/
theorem laterStages_named (hspares : site.Spares extra) (wf : fs.WellFormed) (htext : root.text ≠ "")
    (hroot : plan.root = root) (hmetadata : plan.metadata.StaysBelow)
    (hapart : Apart fs settings.buildDir fun place => site.Affects place ∨ extra place) (h : site.Prepared extra now)
    (hsucceeds : ∀ name reason, ⟨name, .failed reason⟩ ∉ (runStages (plan.laterStages settings) now).1) :
    Named root (layout settings fs plan.metadata plan.scan scripts) := by
  subst hroot
  have deployable : Deployable plan.root (fun _ => True) (site.Prepared extra) := hspares.deployable wf htext
  have hpatches : Extends plan.root plan.patchesPath [lovelyDir, patchesName] :=
    AuxScript.extends_manifest htext validName_patchesName
  have hdocument : Extends plan.root plan.metadataPath (namesOf plan.metadata.fileName) :=
    Metadata.extends_fileName htext hmetadata
  unfold Plan.laterStages at hsucceeds
  obtain ⟨hskeleton, hrest⟩ := runStages_cons_succeeds hsucceeds
  obtain ⟨hpatched, hrest⟩ := runStages_cons_succeeds hrest
  obtain ⟨hdescribed, hrest⟩ := runStages_cons_succeeds hrest
  obtain ⟨hcopied, -⟩ := runStages_cons_succeeds hrest
  rw [copyStage_eq] at hcopied
  obtain ⟨hlovely, hsource⟩ := followable_of_createSkeleton hskeleton
  have hmanifest := followable_of_writeFile hpatched
  have hdocumented := followable_of_writeFile hdescribed
  -- The name of the directory of scripts is not longer than the names of the manifest.
  have hscripts : Followable (plan.root.child scriptDir) :=
    hmanifest.child_of_size validName_lovelyDir validName_patchesName (by decide) (by decide) (by decide)
  have hcopy := deployable.writeFile hdocument hmetadata.2 plan.metadata.namesOf_fileName_ne_nil trivial plan.metadata.render
    (deployable.writeFile hpatches (AuxScript.staysInside_manifest validName_patchesName) (by simp) trivial plan.manifest
      (deployable.createSkeleton h))
  have htree := named_of_copyTree wf hcopy hapart hcopied
  refine (named_ofScriptManifest hlovely _).over <| (named_ofScripts hscripts _).over <| htree.over <| Named.over ?_ <|
    (named_ofFile validName_lovelyDir hlovely).over <| (named_ofDirectories hsource).over (named_ofDirectories hlovely)
  exact fun name hentry => hdocumented.child_of_mem hmetadata.1 (mem_of_mem_onWay (mem_onWay_of_ofFile hentry))

/-! ### Stages taken again -/

theorem createSkeleton_success (hsucceeds : ∀ reason, (createSkeleton root now).1 ≠ .failed reason) :
    (createSkeleton root now).1 = .success := by
  have hrun := toStep_inv hsucceeds
  unfold createSkeleton toStep lift
  rw [hrun]

theorem holdsDirectory_of_copyTree (hsucceeds : ∀ reason, (copyTree source root now).1.outcome ≠ .failed reason) :
    now.holdsDirectory source = true := by
  by_contra hgone
  unfold copyTree at hsucceeds
  rw [if_neg hgone] at hsucceeds
  exact hsucceeds _ rfl

/-- The stages behind clearing succeed again at a site that was cleared, and leave it as before. -/
theorem laterStages_again (hspares : site.Spares extra) (wf : fs.WellFormed) (hroot : Followable root)
    (hplan : plan.root = root) (hmetadata : plan.metadata.StaysBelow)
    (hapart : Apart fs settings.buildDir fun place => site.Affects place ∨ extra place)
    (h : site.Laid extra Layer.empty s) (h' : site.Laid extra Layer.empty t) (hdir : t.entry? site.dir = some .directory)
    (hsucceeds : ∀ name reason, ⟨name, .failed reason⟩ ∉ (runStages (plan.laterStages settings) s).1) :
    (runStages (plan.laterStages settings) t).1 = (runStages (plan.laterStages settings) s).1
      ∧ site.Twins extra extra (runStages (plan.laterStages settings) s).2 (runStages (plan.laterStages settings) t).2 := by
  subst hplan
  have htext := hroot.2.1
  have hpatches : Extends plan.root plan.patchesPath [lovelyDir, patchesName] :=
    AuxScript.extends_manifest htext validName_patchesName
  have hdocument : Extends plan.root plan.metadataPath (namesOf plan.metadata.fileName) :=
    Metadata.extends_fileName htext hmetadata
  unfold Plan.laterStages at hsucceeds ⊢
  obtain ⟨hskeleton, hrest⟩ := runStages_cons_succeeds hsucceeds
  have hsource : settings.buildDir.text ≠ "" := by
    obtain ⟨-, hrest⟩ := runStages_cons_succeeds hrest
    obtain ⟨-, hrest⟩ := runStages_cons_succeeds hrest
    have hcopied := (runStages_cons_succeeds hrest).1
    rw [copyStage_eq] at hcopied
    exact (followable_of_holdsDirectory (holdsDirectory_of_copyTree hcopied)).2.1
  obtain ⟨hlovely, hsources⟩ := followable_of_createSkeleton hskeleton
  have hagain := createSkeleton_again hspares wf hroot hdir h' hlovely hsources
  have hlaid := createSkeleton_laid hspares wf htext h hskeleton
  have hlaid' := createSkeleton_laid hspares wf htext h' (by simp [hagain])
  have hlayer : ((Layer.ofDirectories [sourceDir]).over ((Layer.ofDirectories [lovelyDir]).over Layer.empty)) [lovelyDir]
      ≠ none := by decide
  have htracks : ∀ stage ∈ [(patchesName, writeFile plan.patchesPath plan.manifest),
      (plan.metadata.fileName, writeFile plan.metadataPath plan.metadata.render),
      ("copy", copyStage settings.buildDir plan.root)], StepTracks (site.Twins extra extra) stage.2 := by
    intro stage hstage
    simp only [List.mem_cons, List.not_mem_nil, or_false] at hstage
    rcases hstage with rfl | rfl | rfl <;> dsimp only
    · exact writeFile_tracks hspares wf id hpatches (AuxScript.staysInside_manifest validName_patchesName) (by simp) _
    · exact writeFile_tracks hspares wf id hdocument hmetadata.2 plan.metadata.namesOf_fileName_ne_nil _
    · exact copyStage_tracks hspares wf id hapart hsource htext
  obtain ⟨hsteps, htwins⟩ := runStages_tracks htracks (hlaid.twins wf hlaid' hlayer)
  refine ⟨?_, htwins⟩
  rw [runStages_cons_fst "skeleton" _ _ t, runStages_cons_fst "skeleton" _ _ s, hagain, createSkeleton_success hskeleton,
    hsteps]

/-- Clearing takes no time. -/
theorem clearDirectory_now (wf : t.WellFormed) : (clearDirectory root t).2.now = t.now := by
  have hkept : Maintains (fun later => later.WellFormed ∧ later.now = t.now) (clearEntries root) fun _ => True :=
    clearEntries_maintains And.left fun h _ _ => ⟨h.1.erase, h.2⟩
  have hend := hkept t ⟨wf, rfl⟩
  unfold clearDirectory toStep lift
  split
  · generalize clearEntries root t = result at hend
    cases result with
    | ok _ later => exact hend.1.2
    | error _ later => exact hend.2
  · rfl

/-- All stages succeed again where a site is laid out, and leave it as before. -/
theorem stages_again {layer : Layer} (hspares : site.Spares extra) (wf : fs.WellFormed) (hroot : Followable root)
    (hplan : plan.root = root) (hmetadata : plan.metadata.StaysBelow)
    (hapart : Apart fs settings.buildDir fun place => site.Affects place ∨ extra place)
    (h : site.Laid extra Layer.empty s) (htidy : site.Tidy extra t.now t) (hlaid : site.Laid extra layer t)
    (hnamed : Named root layer)
    (hsucceeds : ∀ name reason, ⟨name, .failed reason⟩ ∉ (runStages (plan.laterStages settings) s).1) :
    (runStages (plan.stages settings) t).1 = ⟨"clear", .success⟩ :: (runStages (plan.laterStages settings) s).1
      ∧ site.Twins extra extra (runStages (plan.laterStages settings) s).2 (runStages (plan.stages settings) t).2
      ∧ site.Tidy extra t.now (runStages (plan.stages settings) t).2 := by
  subst hplan
  obtain ⟨hclear, hempty, hdir, hpruned⟩ := clearDirectory_again hspares wf hroot htidy.there hlaid hnamed
  obtain ⟨hsteps, htwins⟩ := laterStages_again hspares wf hroot rfl hmetadata hapart h hempty hdir hsucceeds
  have hcleared : site.Tidy extra t.now (clearDirectory plan.root t).2 := by
    refine ⟨hempty.prepared, hdir, fun place hplace => ?_, clearDirectory_now (htidy.prepared.changes.wellFormed wf)⟩
    rw [hpruned.entries place fun hbeneath => hspares.below place hplace hbeneath.1]
    exact htidy.leaves place hplace
  refine ⟨?_, htwins, laterStages_keep (Deploy.Site.Tidy.deployable hspares wf hroot.2.1) hmetadata hcleared⟩
  rw [Plan.stages, runStages_cons_fst, hclear, hsteps]

/-! ### A run without failures -/

/-- Where nothing but the deployment has changed anything, a site that is laid out is tidy. -/
theorem tidy_of_laid {layer : Layer} {name : String} (hspares : site.Spares extra) (wf : fs.WellFormed)
    (h : site.Laid (fun _ => False) layer now) (hthere : layer [name] ≠ none)
    (hleaves : ∀ place, extra place → fs.entry? place ≠ some .directory) : site.Tidy extra now.now now where
  prepared := h.prepared.mono fun _ => False.elim
  there := by
    obtain ⟨entry, hentry⟩ := Option.ne_none_iff_exists'.1 hthere
    exact (h.prepared.changes.wellFormed wf).isDirectory_of_child ((h.lays [name] (by simp)).trans hentry)
  leaves := by
    intro place hplace
    have hkept : ¬ (site.Affects place ∨ False) := by
      rintro ((hbeneath | ⟨habove, -⟩) | hfalse)
      · exact hspares.below place hplace hbeneath.1
      · exact hspares.above place hplace habove
      · exact hfalse
    rw [h.prepared.changes.entries place hkept]
    exact hleaves place hplace
  time_eq := rfl

theorem runs_length_le {summary : AuxScript.Summary} (h : ∀ name reason, ⟨name, .failed reason⟩ ∉ summary.steps) :
    summary.runs.length ≤ summary.steps.length := by
  unfold AuxScript.Summary.steps at h ⊢
  split
  next fault heq => exact absurd (by simp [heq]) (h "aux" (Error.io fault).message)
  · simp

/-- A plan has been carried out without failures: all of its stages have succeeded, which leads to one world, and then
all scripts have been deployed, which leads to another one. -/
structure CarriedOut (compiler : Compiler) (settings : Settings) (world : World) (plan : Plan) (staged ended : World)
    (summary : AuxScript.Summary) : Prop where
  metadata : plan.metadata.StaysBelow
  manifest : plan.manifest = Manifest.renderPatches plan.scan.descriptors settings.honorMatchIndent
  clears : ∀ reason, (clearDirectory plan.root world.files).1 ≠ .failed reason
  succeeds : ∀ name reason, ⟨name, .failed reason⟩
    ∉ (runStages (plan.laterStages settings) (clearDirectory plan.root world.files).2).1
  files : staged.files = (runStages (plan.laterStages settings) (clearDirectory plan.root world.files).2).2
  pending : staged.pending = world.pending
  scripts : AuxScript.transpile compiler settings plan.root plan.metadata.modPrefix staged = .ok summary ended
  deploys : ∀ name reason, ⟨name, .failed reason⟩ ∉ summary.steps

/-- The report of a plan that has been carried out, whatever clearing came to. -/
def Plan.reportOf (plan : Plan) (cleared : Outcome) (stages : List StepReport) (summary : AuxScript.Summary) : Report :=
  { plan.report with steps := ⟨"clear", cleared⟩ :: stages ++ summary.steps, auxScripts := summary.deployed }

/-- A run without failures has carried out its plan. -/
theorem exists_carriedOut (hrun : run compiler settings world = .ok report world')
    (hroot : settings.deployRoot world.files = .ok root)
    (orderly : Orderly compiler settings scratchName world root) (hsucceeds : report.hasFailures = false) :
    ∃ plan prepared staged ended summary, prepare settings world = .ok plan prepared ∧ plan.root = root
      ∧ CarriedOut compiler settings world plan staged ended summary
      ∧ report = plan.reportOf (clearDirectory root world.files).1
        (runStages (plan.laterStages settings) (clearDirectory root world.files).2).1 summary
      ∧ world'.files = ended.files ∧ world'.pending = ended.pending := by
  obtain ⟨plan, prepared, ended, hprepare, hcarry, hended⟩ := run_inv hrun
  obtain ⟨hprepared, hpending, hplanRoot, ⟨package, hpackage, hmetadata⟩, -, hmanifest⟩ := prepare_inv hprepare
  obtain rfl : plan.root = root := Except.ok.inj (hplanRoot.symm.trans hroot)
  have hreport := carryOut_report hcarry
  obtain ⟨staged, summary, hstaged, hstagedPending, htranspile, hsteps, hdeployed⟩ := carryOut_inv hcarry
  rw [hprepared] at hstaged hsteps
  have hunfailed : ∀ name reason, ⟨name, .failed reason⟩ ∉ report.steps :=
    fun _ _ => not_mem_steps_of_not_hasFailures hsucceeds
  rw [hsteps] at hunfailed
  have hstages : ∀ name reason, ⟨name, .failed reason⟩
      ∉ (runStages (("clear", clearDirectory plan.root) :: plan.laterStages settings) world.files).1 :=
    fun name reason hmem => hunfailed name reason (List.mem_append_left _ hmem)
  obtain ⟨hclear, hlater⟩ := runStages_cons_succeeds hstages
  refine ⟨plan, prepared, staged, ended, summary, hprepare, rfl, ?_, ?_, hended⟩
  · exact ⟨hmetadata ▸ orderly.metadata package hpackage, hmanifest, hclear, hlater, hstaged,
      hstagedPending.trans hpending, htranspile, fun name reason hmem => hunfailed name reason (List.mem_append_right _ hmem)⟩
  · rw [hreport, hsteps, hdeployed]
    rfl

namespace Repeatable

variable {site : Site world.files root} {summary : AuxScript.Summary} {staged staged' ended : World}
  (h : Repeatable compiler settings scratchName world root) (haccepted : settings.deployRoot world.files = .ok root)

include h

theorem spares (site : Site world.files root) : site.Spares (Scratch world.files root settings scratchName) :=
  h.orderly.staging.aside.spares h.orderly.direct h.orderly.wellFormed site

theorem apart (site : Site world.files root) : Apart world.files settings.buildDir fun place =>
    site.Affects place ∨ Scratch world.files root settings scratchName place :=
  fun names hnames place hplace hchanged => h.build names hnames place hplace (hchanged.imp_left site.affected_iff.2)

include haccepted

/-- Scripts that are all deployed from one of two peers are deployed from the other one, if the clock can count their
time there. -/
theorem transpile_again {modPrefix : String} (peers : AuxScript.Peers site settings scratchName staged staged')
    (hclock : staged = staged' ∨ staged'.now / 1000 + summary.runs.length * settings.compiler.timeoutSecs
      < AuxScript.clockLimit)
    (htranspile : AuxScript.transpile compiler settings root modPrefix staged = .ok summary ended)
    (hdeploys : ∀ name reason, ⟨name, .failed reason⟩ ∉ summary.steps) :
    ∃ ended', AuxScript.transpile compiler settings root modPrefix staged' = .ok summary ended'
      ∧ AuxScript.Peers site settings scratchName ended ended' :=
  AuxScript.transpile_again h.orderly.staging h.scripts h.orderly.wellFormed (h.spares site) h.orderly.compiler h.steady
    haccepted h.orderly.direct.followable peers hclock htranspile hdeploys

section CarriedOut

variable (hplan : plan.root = root) (done : CarriedOut compiler settings world plan staged ended summary)

include hplan done

omit haccepted in
/-- Before the scripts are compiled, a site is laid out, and scratch places are untouched. -/
theorem laid_staged (site : Site world.files root) :
    site.Laid (fun _ => False) (baseLayout settings world.files plan.metadata plan.scan) staged.files := by
  subst hplan
  rw [done.files]
  refine laterStages_laid ((h.spares site).mono fun _ => False.elim) h.orderly.wellFormed h.orderly.direct.followable.2.1
    rfl done.metadata done.manifest (fun names hnames place hplace hchanged => ?_)
    (clearDirectory_laid site h.orderly.direct.followable h.orderly.wellFormed done.clears) done.succeeds
  exact h.apart site names hnames place hplace (hchanged.imp_right False.elim)

omit haccepted in
theorem tidy_staged (site : Site world.files root) :
    site.Tidy (Scratch world.files root settings scratchName) staged.now staged.files ∧ staged.pending = [] := by
  have hbottom : Layer.ofDirectories [lovelyDir] [lovelyDir] = some .directory := by decide
  have hlovely : baseLayout settings world.files plan.metadata plan.scan [lovelyDir] ≠ none := by
    simp [baseLayout, Layer.over_apply, hbottom]
  exact ⟨tidy_of_laid (h.spares site) h.orderly.wellFormed (h.laid_staged hplan done site) hlovely h.leaves,
    done.pending.trans h.idle⟩

/-- In the end the site is tidy as well. -/
theorem tidy_ended (site : Site world.files root) :
    site.Tidy (Scratch world.files root settings scratchName) ended.now ended.files ∧ ended.pending = [] := by
  obtain ⟨htidy, hidle⟩ := h.tidy_staged hplan done site
  have peers : AuxScript.Peers site settings scratchName staged staged :=
    ⟨⟨htidy.prepared, htidy.prepared, rfl, fun _ _ => rfl⟩, htidy, htidy, hidle, hidle⟩
  obtain ⟨ended', -, hended⟩ := h.transpile_again haccepted peers (.inl rfl) (hplan ▸ done.scripts) done.deploys
  exact ⟨hended.left, hended.pending⟩

/-- And it is laid out with entries whose paths can be followed. -/
theorem laid_ended (site : Site world.files root) : ∃ layer, Named root layer
    ∧ site.Laid (Scratch world.files root settings scratchName) layer ended.files := by
  obtain ⟨htidy, hidle⟩ := h.tidy_staged hplan done site
  have hstaged : LaidOut site settings scratchName (baseLayout settings world.files plan.metadata plan.scan) staged :=
    ⟨(h.laid_staged hplan done site).mono fun _ => False.elim, by simp [hidle]⟩
  have hroot := h.orderly.direct.followable
  have wf := h.orderly.wellFormed
  subst hplan
  obtain ⟨scripts, hscripts, hlaid⟩ := AuxScript.transpile_laid h.orderly.staging haccepted hroot wf (h.spares site)
    h.orderly.compiler hstaged done.scripts done.deploys
  refine ⟨layout settings world.files plan.metadata plan.scan scripts, ?_, ?_⟩
  · exact laterStages_named (h.spares site) wf hroot.2.1 rfl done.metadata (h.apart site)
      (clearDirectory_laid site hroot wf done.clears).prepared done.succeeds
  · rw [layout, hscripts]
    exact hlaid.files

end CarriedOut

end Repeatable

/-! ### The run -/

/-- A plan that is carried out leads to a report. -/
theorem run_of_carryOut {prepared ended : World} (hprepare : prepare settings world = .ok plan prepared)
    (hcarry : carryOut compiler settings plan prepared = .ok report ended) :
    ∃ world', run compiler settings world = .ok report world' ∧ world'.files = ended.files := by
  obtain ⟨noted, hnoted, hfiles, -⟩ := noteEnd_eq report ended
  refine ⟨noted, ?_, hfiles⟩
  exact bind_eq_ok.2 ⟨plan, prepared, hprepare, bind_eq_ok.2 ⟨report, ended, hcarry, bind_eq_ok.2 ⟨(), noted, hnoted, rfl⟩⟩⟩

/-- A run that follows one without failures ends in the same report, but that there is something to clear, and leaves
the same tree. -/
theorem run_again (hrun : run compiler settings world = .ok report world')
    (hroot : settings.deployRoot world.files = .ok root)
    (repeatable : Repeatable compiler settings scratchName world root)
    (hclock : world'.now / 1000 + report.steps.length * settings.compiler.timeoutSecs < AuxScript.clockLimit)
    (hsucceeds : report.hasFailures = false) :
    ∃ world'' dir,
      run compiler settings world' = .ok { report with steps := ⟨"clear", .success⟩ :: report.steps.tail } world''
      ∧ world'.files.canonical? root = some dir ∧ world''.files.canonical? root = some dir
      ∧ ∀ rel, world''.files.entry? (dir ++ rel) = world'.files.entry? (dir ++ rel) := by
  have wf := repeatable.orderly.wellFormed
  have hfollow := repeatable.orderly.direct.followable
  obtain ⟨plan, prepared, staged, ended, summary, hprepare, rfl, done, hreport, hfiles, hpending⟩ :=
    exists_carriedOut hrun hroot repeatable.orderly hsucceeds
  obtain ⟨site⟩ := exists_site repeatable.orderly.direct wf (runStages_cons_succeeds done.succeeds).1
  have hspares := repeatable.spares site
  obtain ⟨hstaged, hidle⟩ := repeatable.tidy_staged rfl done site
  obtain ⟨htidy, hended⟩ := repeatable.tidy_ended hroot rfl done site
  obtain ⟨layer, hnamed, hlaid⟩ := repeatable.laid_ended hroot rfl done site
  rw [← hfiles] at htidy hlaid
  -- There is the same plan, and its stages succeed again.
  have hlocation := htidy.prepared.canonical?_root hspares hfollow wf htidy.there
  obtain ⟨prepared', hprepare', hprepared', hpending'⟩ := repeatable.prepare_again hroot site
    (htidy.prepared.changes.weaken fun hplace => hplace.imp_left site.affected_iff.2) htidy.there hlocation hprepare
  obtain ⟨staged', hstaged', hidle', hcarry'⟩ := carryOut_eq compiler settings plan prepared'
  obtain ⟨hsteps, htwins, htidy'⟩ := stages_again hspares wf hfollow rfl done.metadata (repeatable.apart site)
    (clearDirectory_laid site hfollow wf done.clears) htidy.at_now hlaid hnamed done.succeeds
  rw [hprepared'] at hstaged' hcarry'
  rw [← hstaged'] at htwins htidy'
  rw [← done.files] at htwins
  have peers : AuxScript.Peers site settings scratchName staged staged' := by
    refine ⟨htwins, hstaged, htidy'.at_now, hidle, ?_⟩
    rw [hidle', hpending', hpending, hended]
  -- So the scripts are compiled and deployed again.
  have hclock' : staged'.now / 1000 + summary.runs.length * settings.compiler.timeoutSecs < AuxScript.clockLimit := by
    have htime : staged'.now = world'.now := htidy'.time_eq
    have hcount : summary.runs.length ≤ report.steps.length := by
      refine (runs_length_le done.deploys).trans ?_
      rw [hreport, Plan.reportOf, List.length_append]
      exact Nat.le_add_left _ _
    have hless := Nat.mul_le_mul_right settings.compiler.timeoutSecs hcount
    rw [htime]
    omega
  obtain ⟨ended', htranspile', hended'⟩ :=
    repeatable.transpile_again hroot peers (.inr hclock') done.scripts done.deploys
  have hcarried : carryOut compiler settings plan prepared'
      = .ok { report with steps := ⟨"clear", .success⟩ :: report.steps.tail } ended' := by
    rw [hcarry', takeScripts]
    simp only [htranspile']
    rw [hreport, hsteps]
    rfl
  obtain ⟨world'', hrun', hfiles'⟩ := run_of_carryOut hprepare' hcarried
  refine ⟨world'', site.dir, hrun', hlocation, ?_, fun rel => ?_⟩
  · rw [hfiles']
    exact hended'.right.prepared.canonical?_root hspares hfollow wf hended'.right.there
  · rw [hfiles', hfiles]
    exact hended'.twins.alike.entries _ fun hscratch => hspares.below _ hscratch (List.prefix_append _ _)

/-! ### Runs of small projects -/

/-- Any name but that of a script. -/
abbrev OtherName (name : String) : Prop := isScriptName name = false

theorem scriptProject_away {path : Path}
    (h : ∀ place ∈ scriptProject.way path, ¬ (Beneath ["w", "deploy"] place ∨ Beneath ["w", "extra_lua"] place
      ∨ place <+: ["w", "deploy"] ∧ scriptProject.entry? place = none)) :
    Away scriptProject (Changeable scriptProject ⟨"./deploy"⟩ (hereSettings "deploy") OtherName) path :=
  fun place hplace hchange => h place hplace (changeable_scriptProject (hchange.mono fun _ => trivial))

theorem scriptProject_aux :
    scriptProject.resolve true (hereSettings "deploy").auxDir = .ok (.found ["w", "extra_lua"] .directory) :=
  resolve_of_canonical? (by decide +kernel : scriptProject.holdsDirectory (hereSettings "deploy").auxDir = true)
    (by decide +kernel)

theorem scriptProject_orderly_beside :
    Orderly fooCompiler (hereSettings "deploy") OtherName { files := scriptProject } ⟨"./deploy"⟩ where
  wellFormed := scriptProject_orderly.wellFormed
  direct := scriptProject_orderly.direct
  metadata := scriptProject_orderly.metadata
  staging := by
    have hroot : Away scriptProject (Changeable scriptProject ⟨"./deploy"⟩ (hereSettings "deploy") OtherName) ⟨"./deploy"⟩ :=
      scriptProject_away (by decide +kernel)
    exact ⟨fun name _ => isScriptName_scriptTarget name, fun _ _ _ _ text => scriptProject_unlinked _ text,
      .inl (scriptProject_away (by decide +kernel)), fun place hplace hscratch => hroot place hplace (.inr hscratch)⟩
  compiler := fooCompiler_staged (by decide)
  pending := nofun

theorem extraDir_kept {world : World} (h : Fit scriptProject ⟨"./deploy"⟩ (hereSettings "deploy") OtherName world) :
    world.files.entry? ["w", "extra_lua"] = some .directory := by
  rw [h.changes.entries _ fun hchange => ?_, entry?_of_found scriptProject_aux]
  rcases changeable_scriptProject (hchange.mono fun _ => trivial) with hdeploy | haux | ⟨habove, -⟩
  · exact absurd hdeploy.1 (by decide)
  · exact haux.2 rfl
  · exact absurd habove (by decide)

/-- The compiler works in every world that a run leaves to it. -/
theorem fooCompiler_eq {world : World} (h : Fit scriptProject ⟨"./deploy"⟩ (hereSettings "deploy") OtherName world)
    (invocation : Invocation) (limit : Nat) : fooCompiler invocation limit world
      = (.exited (.code 0) "" "", { world with files := world.files.put fooOutput (.file "y".toUTF8) }) :=
  if_pos ⟨extraDir_kept h, h.leaves _ (scratch_fooOutput (by decide))⟩

theorem eq_of_extraDir {name : String} {entry : Entry}
    (h : scriptProject.entry? ["w", "extra_lua", name] = some entry) : name = "foo.ts" := by
  obtain ⟨node, hnode⟩ := exists_mem_nodes h (by simp)
  have honly : ∀ node ∈ scriptProject.nodes, ["w", "extra_lua"] <+: node.1 →
      node.1 = ["w", "extra_lua"] ∨ node.1 = ["w", "extra_lua", "foo.ts"] := by decide +kernel
  simpa using honly _ hnode (List.prefix_append ["w", "extra_lua"] [name])

/-- There is one script to compile. -/
theorem eq_fooOutput {place : Location}
    (h : Output scriptProject ⟨"./deploy"⟩ (hereSettings "deploy") OtherName place) : place = fooOutput := by
  obtain ⟨-, dir, name, hdir, hname, -, hfile, rfl⟩ := h
  obtain rfl : dir = ["w", "extra_lua"] :=
    Option.some.inj (hdir.symm.trans (canonical?_eq_some_iff.2 ⟨_, scriptProject_aux⟩))
  obtain ⟨location, contents, hresolve⟩ := holdsFile_iff.1 hfile
  obtain ⟨hne, hdot, hup, hslash, -⟩ := id hname
  obtain rfl : location = ["w", "extra_lua"] ++ [name] :=
    place_entry hne hslash hdot hup (by decide) (leadsTo_of_resolve scriptProject_aux)
      (fun _ text => scriptProject_unlinked _ text) hresolve
  obtain rfl := eq_of_extraDir (entry?_of_found hresolve)
  decide

theorem fooCompiler_steady : fooCompiler.Steady (Fit scriptProject ⟨"./deploy"⟩ (hereSettings "deploy") OtherName)
    (Output scriptProject ⟨"./deploy"⟩ (hereSettings "deploy") OtherName) where
  fits := by
    intro invocation limit world h
    rw [fooCompiler_eq h]
    have hscratch : Scratch scriptProject ⟨"./deploy"⟩ (hereSettings "deploy") OtherName fooOutput :=
      scratch_fooOutput (by decide)
    refine ⟨h.changes.trans ?_, fun place hplace => ?_, h.pending⟩
    · exact (Changes.refl _).put ⟨["w", "extra_lua"], "foo.lua", rfl, by decide, extraDir_kept h, h.leaves _ hscratch⟩
        (.inr hscratch) nofun
    · dsimp only
      rw [entry?_put _ (by decide)]
      split
      · simp
      · exact h.leaves place hplace
  inTime := by
    intro invocation limit world h
    rw [fooCompiler_eq h]
    exact (Nat.le_of_eq now_put).trans (Nat.le_add_right _ _)
  ends := by
    intro invocation limit world other h hother
    rw [fooCompiler_eq h, fooCompiler_eq hother]
  writes := by
    intro invocation limit world place h _ hplace
    rw [fooCompiler_eq h, eq_fooOutput hplace]
    refine ⟨"y".toUTF8, world.now, Nat.le_refl _, ?_⟩
    dsimp only
    rw [node?_put, if_pos rfl]
    rfl
  repeats := by
    intro invocation limit world other place h hother _ hplace
    rw [fooCompiler_eq h, fooCompiler_eq hother, eq_fooOutput hplace, entry?_put_self (by decide), entry?_put_self (by decide)]

theorem changeable_beside {place : Location}
    (h : Changeable scriptProject ⟨"./deploy"⟩ (hereSettings "deploy") OtherName place) :
    ["w", "deploy"] <+: place ∨ ∃ name, OtherName name ∧ place = ["w", "extra_lua", name] := by
  rcases h with haffected | hscratch
  · rcases scriptSite.affected_iff.1 haffected with hbeneath | ⟨habove, hnone⟩
    · exact .inl hbeneath.1
    · have hthere : ∀ front ∈ scriptSite.dir.inits, scriptProject.entry? front ≠ none := by decide +kernel
      exact absurd hnone (hthere _ ((List.mem_inits _ _).2 habove))
  · exact .inr (scratch_scriptProject hscratch)

theorem scriptProject_scripts :
    AuxScript.ScriptsAway scriptProject ⟨"./deploy"⟩ (hereSettings "deploy") OtherName := by
  intro _ name hname hscript place hplace hchange
  obtain ⟨hne, hdot, hup, hslash, -⟩ := id hname
  have hnames : scriptProject.namesTo ((hereSettings "deploy").auxDir.child name)
      = scriptProject.namesTo (hereSettings "deploy").auxDir ++ [name] := namesTo_child _ (by decide) hne hslash
  have haux : ".." ∉ scriptProject.namesTo (hereSettings "deploy").auxDir
      ∧ climb [] (scriptProject.namesTo (hereSettings "deploy").auxDir) = ["w", "extra_lua"] := by decide +kernel
  have hprefix : place <+: ["w", "extra_lua", name] := by
    have hway := prefix_of_mem_way (fun front _ => scriptProject_unlinked _)
      (by simp [hnames, haux.1, Ne.symm hup]) hplace
    rwa [hnames, climb_append, haux.2, climb_cons, climb_nil, climbStep_of_ne hdot hup] at hway
  rcases changeable_beside hchange with hdeploy | ⟨other, hother, rfl⟩
  · exact absurd (hdeploy.trans hprefix) (by simp)
  · obtain rfl : other = name := by simpa using hprefix
    rw [hother] at hscript
    cases hscript

theorem scriptProject_sources : Glob.Avoids scriptProject
    (Scan.sourcePattern (hereSettings "deploy").projectDir (hereSettings "deploy").sources)
    (Changeable scriptProject ⟨"./deploy"⟩ (hereSettings "deploy") OtherName) := by
  have hpattern : Glob.components
        (Scan.sourcePattern (hereSettings "deploy").projectDir (hereSettings "deploy").sources)
      = .ok ([".", "src"].map Glob.named ++ [[.anyDepth], [.anySequence, .char '.', .char 't', .char 's']]) := by
    decide +kernel
  have hliterals : ∀ pattern ∈ [".", "src"].map Glob.named
      ++ [[.anyDepth], [.anySequence, .char '.', .char 't', .char 's']],
      ∀ name ∈ pattern.literal?, name ≠ "" ∧ name ≠ ".." ∧ '/' ∉ name.toList := by decide +kernel
  refine Glob.avoids_of_base hpattern ⟨by decide +kernel, hliterals⟩ (by decide +kernel)
    (by decide +kernel : _ = ["w", "src"]) (fun place _ => scriptProject_unlinked place) fun place hchange hplace => ?_
  rcases changeable_beside hchange with hdeploy | ⟨name, -, rfl⟩
  · rcases hplace with habove | hbelow
    · exact absurd (hdeploy.trans habove) (by decide)
    · exact (List.prefix_or_prefix_of_prefix hbelow hdeploy).elim (by decide) (by decide)
  · exact hplace.elim (by simp) (by simp)

theorem scriptProject_repeatable :
    Repeatable fooCompiler (hereSettings "deploy") OtherName { files := scriptProject } ⟨"./deploy"⟩ where
  orderly := scriptProject_orderly_beside
  package := scriptProject_away (by decide +kernel)
  sources := scriptProject_sources
  build := by
    have hdir := leadsTo_of_canonical?
      (by decide +kernel : scriptProject.holdsDirectory (hereSettings "deploy").buildDir = true)
      (by decide +kernel : scriptProject.canonical? (hereSettings "deploy").buildDir = some ["w", "build"])
    refine apart_of_unlinked (by decide) hdir (fun place text _ => scriptProject_unlinked place text)
      (scriptProject_away (by decide +kernel)) fun place hbelow hchange => ?_
    rcases changeable_beside hchange with hdeploy | ⟨name, -, rfl⟩
    · exact (List.prefix_or_prefix_of_prefix hbelow hdeploy).elim (by decide) (by decide)
    · exact absurd hbelow (by simp)
  aux := scriptProject_away (by decide +kernel)
  scripts := scriptProject_scripts
  steady := fooCompiler_steady
  leaves := by
    intro place hscratch hdir
    obtain ⟨name, hname, rfl⟩ := scratch_scriptProject hscratch
    obtain rfl := eq_of_extraDir hdir
    exact absurd hname (by decide)
  idle := rfl

theorem run_again_scriptProject :
    ∃ report world' world'' dir, run fooCompiler (hereSettings "deploy") { files := scriptProject } = .ok report world'
      ∧ run fooCompiler (hereSettings "deploy") world'
        = .ok { report with steps := ⟨"clear", .success⟩ :: report.steps.tail } world''
      ∧ world'.files.canonical? ⟨"./deploy"⟩ = some dir ∧ world''.files.canonical? ⟨"./deploy"⟩ = some dir
      ∧ ∀ rel, world''.files.entry? (dir ++ rel) = world'.files.entry? (dir ++ rel) := by
  have hends : endsWith (fun report world => decide (report.hasFailures = false ∧
      world.now / 1000 + report.steps.length * (hereSettings "deploy").compiler.timeoutSecs < AuxScript.clockLimit))
      (run fooCompiler (hereSettings "deploy") { files := scriptProject }) = true := by decide +kernel
  obtain ⟨report, world', hrun, htest⟩ := exists_of_endsWith hends
  obtain ⟨hsucceeds, hclock⟩ := of_decide_eq_true htest
  have hroot : (hereSettings "deploy").deployRoot scriptProject = .ok ⟨"./deploy"⟩ := by decide +kernel
  obtain ⟨world'', dir, hagain, hsame⟩ := run_again hrun hroot scriptProject_repeatable hclock hsucceeds
  exact ⟨report, world', world'', dir, hrun, hagain, hsame⟩

/-- A project with an annotation in its build tree. -/
def annotatedProject : FileSystem :=
  ofEntries ⟨"/w"⟩ [(["w"], .directory),
    (["w", "package.json"], .file "\x7b\"name\":\"m\",\"main\":\"a.ts\"\x7d".toUTF8),
    (["w", "build"], .directory),
    (["w", "build", "a.ts"], .file "/** @lovelyType p */\nfunction f() \x7b\x7d\n".toUTF8)]

/-- Settings whose pattern reaches into the deploy root. -/
def deployedSources : Settings := { hereSettings "deploy" with sources := "deploy/a.ts" }

/-- What a run has deployed is scanned by the next one, if the pattern reaches it. -/
theorem run_scans_deployed :
    ∃ report world, run fooCompiler deployedSources { files := annotatedProject } = .ok report world
      ∧ report.hasFailures = false ∧ report.descriptors = 0
      ∧ ∀ report' world', run fooCompiler deployedSources world = .ok report' world' → report'.descriptors = 1 := by
  have hends : endsWith (fun report world => !report.hasFailures && report.descriptors == 0
      && (Scan.scanProject world.files deployedSources).toOption.map (·.descriptors.length) == some 1)
      (run fooCompiler deployedSources { files := annotatedProject }) = true := by decide +kernel
  obtain ⟨report, world, hrun, htest⟩ := exists_of_endsWith hends
  simp only [Bool.and_eq_true, Bool.not_eq_true', beq_iff_eq] at htest
  obtain ⟨⟨hsucceeds, hnone⟩, hscanned⟩ := htest
  refine ⟨report, world, hrun, hsucceeds, hnone, fun report' world' hagain => ?_⟩
  obtain ⟨plan, prepared, ended, hprepare, hcarry, -⟩ := run_inv hagain
  obtain ⟨-, -, -, -, hscan, -⟩ := prepare_inv hprepare
  rw [carryOut_report hcarry]
  rw [hscan] at hscanned
  exact Option.some.inj hscanned

end Pipeline

end ModPackager
