import ModPackager.Proofs.AuxScript.Beside
import ModPackager.Proofs.AuxScript.Jobs

/-!
# What becomes of a job

A job that fails leaves everything as it is but for the products of the compiler, and directories that it may have
made; a job that succeeds puts one more script in its place (`runJob_places`). The latter is what the output held
when the compiler had run for this job, embedded if its script asks for that (`Yields`): nothing else writes the
output before it is copied, and once it is copied it can be removed.
-/

namespace ModPackager

open FileSystem FileAction Deploy

variable {fs now later : FileSystem} {root : Path} {settings : Settings} {dir : Location} {name modPrefix : String}
  {job : Job} {contents : ByteArray} {scripts : List (String × ByteArray)} {world world' : World}
  {compiler : Compiler} {holds : List (String × ByteArray) → FileSystem → Prop}

/-- A compiler that changes its products only, leaves no links among them, and has ended when it is done. -/
def Builds (compiler : Compiler) (fs : FileSystem) (root : Path) (settings : Settings) : Prop :=
  ∀ invocation limit world, Changes (Touched fs root settings) fs world.files → world.pending = [] →
    Changes (Product fs settings) world.files (compiler invocation limit world).2.files
      ∧ (∀ place text, Product fs settings place →
        (compiler invocation limit world).2.files.entry? place ≠ some (.link text))
      ∧ (compiler invocation limit world).2.pending = []

/-- The compiler runs for a job as it does from any world that was reached. -/
theorem Builds.compiled (h : Builds compiler fs root settings)
    (hreach : Changes (Touched fs root settings) fs world.files) (hpending : world.pending = []) (job : Job)
    (auxDir : Path) (deadline : Nat) :
    Changes (Product fs settings) world.files (AuxScript.compiled compiler settings job auxDir deadline world).files
      ∧ (∀ place text, Product fs settings place →
        (AuxScript.compiled compiler settings job auxDir deadline world).files.entry? place ≠ some (.link text))
      ∧ (AuxScript.compiled compiler settings job auxDir deadline world).pending = [] :=
  h _ _ (world.note _ _ _ _) hreach hpending

namespace AuxScript

/-- What is deployed of the bytes of an output: these bytes, or the string that their text is embedded in. -/
def Wraps (modPrefix : String) (job : Job) (embedded : Bool) (bytes contents : ByteArray) : Prop :=
  if embedded then
    ∃ body, String.fromUTF8? bytes = some body ∧ contents = (Lua.embed modPrefix job.stem body).toUTF8
  else contents = bytes

/-- What a job has to deploy that starts in a world: what its output holds when the compiler has run for it,
embedded if its script asks for that. -/
def Yields (compiler : Compiler) (settings : Settings) (modPrefix : String) (job : Job) (start : World)
    (contents : ByteArray) : Prop :=
  ∃ deadline auxDir embedded bytes,
    deadline? start.now settings.compiler.timeoutSecs = some deadline
    ∧ settings.auxDir.absolute? start.files.workingDir = some auxDir
    ∧ job.embeds start.files = .ok embedded start.files
    ∧ readBytes job.output (compiled compiler settings job auxDir deadline start).files
      = .ok bytes (compiled compiler settings job auxDir deadline start).files
    ∧ Wraps modPrefix job embedded bytes contents

/-! ### Outputs -/

/-- A compiled script is not named like a source. -/
theorem dropEnding?_scriptTarget (name : String) : Text.dropEnding? (scriptTarget name) ".ts" = none := by
  rw [Option.eq_none_iff_forall_ne_some]
  intro stem hstem
  have hlast := congrArg (fun text : String => text.toList.getLast?) (Text.dropEnding?_eq_some_iff.1 hstem)
  simp [scriptTarget] at hlast

theorem product_output (haux : fs.resolve true settings.auxDir = .ok (.found dir .directory)) (name : String) :
    Product fs settings (dir ++ [scriptTarget name]) :=
  ⟨dir, scriptTarget name, [], canonical?_eq_some_iff.2 ⟨_, haux⟩, dropEnding?_scriptTarget name, rfl⟩

section Outputs

variable (shelf : Shelf fs root settings holds) (beside : Beside fs root settings)
  (haux : fs.resolve true settings.auxDir = .ok (.found dir .directory)) (hjob : IsJob settings root job name)

include shelf beside haux hjob

/-- The path of an output leads to its place, unless a link is there that is followed. -/
theorem place_output {follow : Bool} {target : Target} (h : holds scripts now)
    (hlink : follow = true → ∀ text, now.entry? (dir ++ [scriptTarget name]) ≠ some (.link text))
    (hresolve : now.resolve follow job.output = .ok target) : target.place = dir ++ [scriptTarget name] := by
  obtain ⟨hempty, hdot, hup, hslash⟩ := scriptTarget_plain hjob.valid
  have hthere := (beside.resolve_aux (shelf.reach h)).trans haux
  rw [hjob.output_eq] at hresolve
  exact place_entry hempty hslash hdot hup (resolve_eq_ok_iff.1 haux).1.2.1 (leadsTo_of_resolve hthere) hlink hresolve

/-- A file at the place of an output is found on its path. -/
theorem resolve_output (hfollow : Followable job.output) (h : holds scripts now)
    (hentry : now.entry? (dir ++ [scriptTarget name]) = some (.file contents)) {follow : Bool} :
    now.resolve follow job.output = .ok (.found (dir ++ [scriptTarget name]) (.file contents)) := by
  obtain ⟨hempty, -, -, hslash⟩ := scriptTarget_plain hjob.valid
  have hthere := (beside.resolve_aux (shelf.reach h)).trans haux
  have hname := (((shelf.reach h).wellFormed beside.wellFormed).validName hentry).ordinary
  rw [hjob.output_eq] at hfollow ⊢
  exact resolve_entry hempty hslash hname hfollow hthere hentry nofun

/-- Writing an output changes products only. -/
theorem writeOutput_places (now : FileSystem) (text : String) :
    Maintains (fun later => holds scripts later ∧ Grows (Product fs settings) now later
        ∧ ∀ text, later.entry? (dir ++ [scriptTarget name]) ≠ some (.link text))
      (writeText job.output text) fun _ => True := by
  refine writeBytes_maintains fun {later location} h hwrites => ?_
  obtain ⟨hholds, hgrows, hunlinked⟩ := h
  obtain ⟨target, hresolve, rfl⟩ := id hwrites.place
  have hplace := place_output shelf beside haux hjob hholds (fun _ => hunlinked) hresolve
  have hwritable := hwrites.writable ((shelf.reach hholds).wellFormed beside.wellFormed)
  rw [hplace] at hwritable ⊢
  have hchanges : Changes (Product fs settings) later (later.put _ (.file text.toUTF8)) :=
    (Changes.refl later).put hwritable (product_output haux name) nofun
  refine ⟨shelf.closed hholds hchanges, hgrows.trans hchanges.grows, fun text => ?_⟩
  rw [entry?_put_self hwritable.ne_nil]
  exact nofun

/-- Removing an output changes products only. -/
theorem removeOutput_places (now : FileSystem) :
    Maintains (fun later => holds scripts later ∧ Grows (Product fs settings) now later) (removeFile job.output)
      fun _ => True := by
  refine removeFile_maintains fun {later location entry} h hresolve hleaf => ?_
  obtain ⟨hholds, hgrows⟩ := h
  have hplace := place_output shelf beside haux hjob hholds (absurd · Bool.false_ne_true) hresolve
  obtain rfl : location = dir ++ [scriptTarget name] := hplace
  have hchanges := (Changes.refl later).erase_leaf ((shelf.reach hholds).wellFormed beside.wellFormed)
    (product_output haux name) (entry?_of_found hresolve) hleaf
  exact ⟨shelf.closed hholds hchanges, hgrows.trans hchanges.grows⟩

/-- Copying an output to the place of its script does all of it or nothing. -/
theorem copyFile_places (hfresh : ∀ script ∈ scripts, script.1 ≠ scriptTarget name) (h : holds scripts now)
    (hlink : ∀ text, now.entry? (dir ++ [scriptTarget name]) ≠ some (.link text)) :
    match copyFile job.output job.deployPath now with
    | .error _ later => later = now
    | .ok _ later => ∃ contents, readBytes job.output now = .ok contents now
        ∧ later.resolve false job.output = .ok (.found (dir ++ [scriptTarget name]) (.file contents))
        ∧ holds ((scriptTarget name, contents) :: scripts) later := by
  have hdir := canonical?_eq_some_iff.2 ⟨_, haux⟩
  rw [copyFile_eq]
  rcases hlookup : now.lookup job.output with fault | ⟨place, contents | _ | _⟩
  · rfl
  · have hsource := lookup_eq_ok_iff.1 hlookup
    have hfollow := (resolve_eq_ok_iff.1 hsource).1
    have hentry : now.entry? (dir ++ [scriptTarget name]) = some (.file contents) :=
      place_output shelf beside haux hjob h (fun _ => hlink) hsource ▸ entry?_of_found hsource
    simp only [bind, EStateM.bind]
    rcases hempty : writeBytes job.deployPath ByteArray.empty now with ⟨⟨⟩, between⟩ | ⟨fault, between⟩
    · -- The copy is there now, so the bytes are read and written as well.
      obtain ⟨hbetween, hsame⟩ := shelf.write hjob hfresh h hempty
      have hthere := (hsame dir [scriptTarget name] hdir).trans hentry
      have hread : readBytes job.output between = .ok contents between := by
        rw [readBytes_eq, lookup_eq_ok_iff.2 (resolve_output shelf beside haux hjob hfollow hbetween hthere)]
      obtain ⟨made, hcopy⟩ := shelf.read hbetween List.mem_cons_self
      have hdeploy : job.deployPath = (root.child scriptDir).child (scriptTarget name) := hjob.deployPath_eq
      have hwrite : writeBytes job.deployPath contents between
          = .ok () (between.put (made ++ [scriptTarget name]) (.file contents)) := by
        rw [writeBytes_eq, hdeploy, hcopy]
      obtain ⟨hlater, hsame'⟩ := shelf.write hjob hfresh (shelf.drop hbetween) hwrite
      simp only [hread, hwrite]
      refine ⟨contents, by rw [readBytes_eq, hlookup], ?_, hlater⟩
      exact resolve_output shelf beside haux hjob hfollow hlater ((hsame' dir _ hdir).trans hthere)
    · exact writeBytes_error hempty
  · rfl
  · rfl

/-- An output that is placed is that of the start, and one that is not leaves everything but the products. -/
theorem placeOutput_places (hfresh : ∀ script ∈ scripts, script.1 ≠ scriptTarget name) (h : holds scripts world.files)
    (hlink : ∀ text, world.files.entry? (dir ++ [scriptTarget name]) ≠ some (.link text)) :
    match placeOutput job world with
    | .error _ after => after.pending = world.pending ∧ holds scripts after.files
        ∧ Grows (Product fs settings) world.files after.files
    | .ok _ after => after.pending = world.pending ∧ ∃ contents,
        readBytes job.output world.files = .ok contents world.files
        ∧ holds ((scriptTarget name, contents) :: scripts) after.files := by
  unfold placeOutput
  simp only [bind, EStateM.bind]
  have hmade : Maintains (fun later => Grows (fun _ => False) world.files later
      ∧ later.workingDir = world.files.workingDir) (createParent job.deployPath) fun _ => True :=
    createParent_grows job.deployPath
  rcases hparent : createParent job.deployPath world.files with ⟨⟨⟩, between⟩ | ⟨fault, between⟩
  · obtain ⟨hbetween, -⟩ := (shelf.parent hjob).ok h hparent
    obtain ⟨⟨hgrows, -⟩, -⟩ := hmade.ok ⟨.refl _, rfl⟩ hparent
    have hsame : ∀ {entry}, between.entry? (dir ++ [scriptTarget name]) = some entry → entry ≠ .directory →
        world.files.entry? (dir ++ [scriptTarget name]) = some entry := by
      intro entry hentry hleaf
      rcases hgrows (dir ++ [scriptTarget name]) id with hsame | ⟨-, hdirectory⟩
      · rw [← hsame, hentry]
      · exact absurd (Option.some.inj (hentry.symm.trans hdirectory)) hleaf
    have hlink' : ∀ text, between.entry? (dir ++ [scriptTarget name]) ≠ some (.link text) := fun text hentry =>
      hlink text (hsame hentry (by simp))
    have hcopied := copyFile_places shelf beside haux hjob hfresh hbetween hlink'
    rcases hcopy : copyFile job.output job.deployPath between with ⟨⟨⟩, copied⟩ | ⟨fault, copied⟩
    · rw [hcopy] at hcopied
      obtain ⟨contents, hread, hresolve, hholds⟩ := hcopied
      -- What was copied is still there, so it can be removed.
      have hremove : removeFile job.output copied = .ok () (copied.erase (dir ++ [scriptTarget name])) := by
        rw [removeFile_eq, hresolve]
      obtain ⟨⟨hended, -⟩, -⟩ := (removeOutput_places shelf beside haux hjob copied).ok ⟨hholds, .refl _⟩ hremove
      simp only [JobAction.lift, hparent, onOutput, hcopy, hremove]
      refine ⟨trivial, contents, ?_, hended⟩
      obtain ⟨-, place, hfound⟩ := readBytes_inv hread
      obtain rfl : place = dir ++ [scriptTarget name] :=
        place_output shelf beside haux hjob hbetween (fun _ => hlink') hfound
      have hentry := hsame (entry?_of_found hfound) (by simp)
      rw [readBytes_eq, lookup_eq_ok_iff.2
        (resolve_output shelf beside haux hjob (resolve_eq_ok_iff.1 hfound).1 h hentry)]
    · rw [hcopy] at hcopied
      obtain rfl : copied = between := hcopied
      simp only [JobAction.lift, hparent]
      unfold onOutput
      rw [hcopy]
      cases fault <;> exact ⟨rfl, hbetween, hgrows.weaken False.elim⟩
  · have hbetween := (shelf.parent hjob).error h hparent
    obtain ⟨hgrows, -⟩ := hmade.error ⟨.refl _, rfl⟩ hparent
    simp only [JobAction.lift, hparent]
    exact ⟨trivial, hbetween, hgrows.weaken False.elim⟩

/-- An output that is embedded holds the string of what it held before. -/
theorem embedOutput_places (h : holds scripts world.files)
    (hlink : ∀ text, world.files.entry? (dir ++ [scriptTarget name]) ≠ some (.link text)) :
    match embedOutput modPrefix job world with
    | .error _ after => after.pending = world.pending ∧ holds scripts after.files
        ∧ Grows (Product fs settings) world.files after.files
    | .ok _ after => after.pending = world.pending ∧ holds scripts after.files
        ∧ Grows (Product fs settings) world.files after.files
        ∧ (∀ text, after.files.entry? (dir ++ [scriptTarget name]) ≠ some (.link text))
        ∧ ∃ bytes body, readBytes job.output world.files = .ok bytes world.files
          ∧ String.fromUTF8? bytes = some body
          ∧ readBytes job.output after.files = .ok (Lua.embed modPrefix job.stem body).toUTF8 after.files := by
  unfold embedOutput onOutput
  simp only [bind, EStateM.bind]
  rw [readText_eq]
  rcases hread : readBytes job.output world.files with ⟨bytes, read⟩ | ⟨fault, read⟩
  · obtain ⟨rfl, -⟩ := readBytes_inv hread
    rcases hbody : String.fromUTF8? bytes with _ | body
    · simp only [hbody]
      exact ⟨trivial, h, .refl _⟩
    · simp only [hbody, JobAction.lift]
      have hkept : Maintains (fun later => holds scripts later ∧ Grows (Product fs settings) world.files later
          ∧ ∀ text, later.entry? (dir ++ [scriptTarget name]) ≠ some (.link text))
          (writeText job.output (Lua.embed modPrefix job.stem body)) fun _ => True :=
        writeOutput_places shelf beside haux hjob world.files _
      rcases hwrite : writeText job.output (Lua.embed modPrefix job.stem body) world.files with
        ⟨⟨⟩, written⟩ | ⟨fault, written⟩
      · obtain ⟨⟨hwritten, hgrows, hunlinked⟩, -⟩ := hkept.ok ⟨h, .refl _, hlink⟩ hwrite
        simp only
        refine ⟨trivial, hwritten, hgrows, hunlinked, bytes, body, rfl, hbody, ?_⟩
        refine readBytes_writeBytes (fun location text hresolve => hlink text ?_) hwrite
        obtain rfl : location = dir ++ [scriptTarget name] :=
          place_output shelf beside haux hjob h (absurd · Bool.false_ne_true) hresolve
        exact entry?_of_found hresolve
      · obtain ⟨hwritten, hgrows, -⟩ := hkept.error ⟨h, .refl _, hlink⟩ hwrite
        simp only
        exact ⟨trivial, hwritten, hgrows⟩
  · simp only
    cases fault <;> exact ⟨rfl, h, .refl _⟩

/-- What is deployed is what the output holds, embedded if that is asked for. -/
theorem deployOutput_places (hfresh : ∀ script ∈ scripts, script.1 ≠ scriptTarget name)
    (h : holds scripts world.files)
    (hlink : ∀ text, world.files.entry? (dir ++ [scriptTarget name]) ≠ some (.link text)) (modPrefix : String)
    (embedded : Bool) :
    match deployOutput modPrefix job embedded world with
    | .error _ after => after.pending = world.pending ∧ holds scripts after.files
        ∧ Grows (Product fs settings) world.files after.files
    | .ok _ after => after.pending = world.pending ∧ ∃ bytes contents,
        readBytes job.output world.files = .ok bytes world.files ∧ Wraps modPrefix job embedded bytes contents
        ∧ holds ((scriptTarget name, contents) :: scripts) after.files := by
  rw [deployOutput_eq]
  cases embedded with
  | false =>
      have hplaced := placeOutput_places shelf beside haux hjob hfresh h hlink
      simp only [Bool.false_eq_true, if_false]
      split at hplaced
      · exact hplaced
      · obtain ⟨hpending, contents, hread, hholds⟩ := hplaced
        exact ⟨hpending, contents, contents, hread, rfl, hholds⟩
  | true =>
      simp only [if_true, bind, EStateM.bind]
      have hembedded : match embedOutput modPrefix job world with | .error .. => _ | .ok .. => _ :=
        embedOutput_places shelf beside haux hjob h hlink
      rcases hrun : embedOutput modPrefix job world with ⟨⟨⟩, written⟩ | ⟨e, written⟩
      · rw [hrun] at hembedded
        obtain ⟨hpending, hwritten, hgrows, hunlinked, bytes, body, hread, hbody, hback⟩ := hembedded
        have hplaced := placeOutput_places shelf beside haux hjob hfresh hwritten hunlinked
        simp only
        split at hplaced
        · exact ⟨hplaced.1.trans hpending, hplaced.2.1, hgrows.trans hplaced.2.2⟩
        · obtain ⟨hpending', contents, hcopied, hholds⟩ := hplaced
          obtain ⟨rfl, -⟩ := EStateM.Result.ok.inj (hback.symm.trans hcopied)
          exact ⟨hpending'.trans hpending, bytes, _, hread, ⟨body, hbody, rfl⟩, hholds⟩
      · rw [hrun] at hembedded
        exact hembedded

/-! ### Jobs -/

/-- However a job ends, the compiler has changed its products, and its script is in place if it succeeds. -/
theorem attempt_places (hcompiler : Builds compiler fs root settings)
    (hfresh : ∀ script ∈ scripts, script.1 ≠ scriptTarget name) (h : holds scripts world.files)
    (hpending : world.pending = []) (modPrefix : String) {deadline : Nat}
    (hdeadline : deadline? world.now settings.compiler.timeoutSecs = some deadline) :
    match attempt compiler settings modPrefix job world.now deadline world with
    | .error _ after => after.pending = [] ∧ holds scripts after.files
        ∧ Grows (Product fs settings) world.files after.files
    | .ok deployed after => deployed = job.targetName ∧ after.pending = [] ∧ ∃ contents, Yields compiler settings modPrefix job world contents
        ∧ holds ((scriptTarget name, contents) :: scripts) after.files := by
  have hidle := fun auxDir => (hcompiler.compiled (shelf.reach h) hpending job auxDir deadline).2.2
  have hbuilt : ∀ {auxDir after}, Built compiler settings job auxDir deadline world after →
      holds scripts after.files ∧ Grows (Product fs settings) world.files after.files
        ∧ ∀ text, after.files.entry? (dir ++ [scriptTarget name]) ≠ some (.link text) := by
    rintro auxDir after ⟨⟨now, hafter⟩, -⟩
    obtain ⟨hchanges, hlinks, -⟩ := hcompiler.compiled (shelf.reach h) hpending job auxDir deadline
    rw [hafter]
    exact ⟨shelf.closed h (hchanges.later now), (hchanges.later now).grows, fun text =>
      hlinks _ text (product_output haux name)⟩
  have hparts := attempt_built hidle modPrefix world.now
  rcases hrun : attempt compiler settings modPrefix job world.now deadline world with ⟨deployed, after⟩ | ⟨e, after⟩ <;>
    rw [hrun] at hparts
  · obtain ⟨hdeployed, auxDir, embedded, awaited, hauxDir, hembeds, hawaited, hdeploy⟩ := hparts
    obtain ⟨hholds, -, hunlinked⟩ := hbuilt hawaited
    obtain ⟨⟨now, hfiles⟩, hidle⟩ := hawaited
    have hplaced := deployOutput_places shelf beside haux hjob hfresh hholds hunlinked modPrefix embedded
    rw [hdeploy] at hplaced
    obtain ⟨hidle', bytes, contents, hread, hwraps, hholds'⟩ := hplaced
    rw [hfiles] at hread
    exact ⟨hdeployed, hidle'.trans hidle, contents,
      ⟨deadline, auxDir, embedded, bytes, hdeadline, hauxDir, hembeds, readBytes_later hread, hwraps⟩, hholds'⟩
  · rcases hparts with rfl | ⟨auxDir, hafter | ⟨embedded, awaited, hawaited, hdeploy⟩⟩
    · exact ⟨hpending, h, .refl _⟩
    · obtain ⟨hholds, hgrows, -⟩ := hbuilt hafter
      exact ⟨hafter.2, hholds, hgrows⟩
    · obtain ⟨hholds, hgrows, hunlinked⟩ := hbuilt hawaited
      have hplaced := deployOutput_places shelf beside haux hjob hfresh hholds hunlinked modPrefix embedded
      rw [hdeploy] at hplaced
      exact ⟨hplaced.1.trans hawaited.2, hplaced.2.1, hgrows.trans hplaced.2.2⟩

/-- What becomes of a job: a script in its place, or nothing beside the products. -/
theorem runJob_places (hcompiler : Builds compiler fs root settings)
    (hfresh : ∀ script ∈ scripts, script.1 ≠ scriptTarget name) (h : holds scripts world.files)
    (hpending : world.pending = []) {run : JobRun}
    (hrun : runJob compiler settings modPrefix job world = .ok run world') :
    run.job = job ∧ world'.pending = [] ∧
      ((∃ e, run.result = .error e) ∧ holds scripts world'.files ∧ Grows (Product fs settings) world.files world'.files
        ∨ run.result = .ok job.targetName ∧ ∃ contents, Yields compiler settings modPrefix job world contents
          ∧ holds ((scriptTarget name, contents) :: scripts) world'.files) := by
  unfold runJob at hrun
  rcases hdeadline : deadline? world.now settings.compiler.timeoutSecs with _ | deadline
  · simp [hdeadline] at hrun
  · have hplaces := attempt_places shelf beside haux hjob hcompiler hfresh h hpending modPrefix hdeadline
    simp only [hdeadline] at hrun
    rcases hattempt : attempt compiler settings modPrefix job world.now deadline world with
      ⟨deployed, after⟩ | ⟨e, after⟩ <;> rw [hattempt] at hplaces <;> simp only [hattempt] at hrun <;> cases hrun
    · obtain ⟨rfl, hidle, hdeployed⟩ := hplaces
      exact ⟨rfl, hidle, .inr ⟨rfl, hdeployed⟩⟩
    · exact ⟨rfl, hplaces.1, .inl ⟨⟨e, rfl⟩, hplaces.2⟩⟩

end Outputs

end AuxScript

end ModPackager
