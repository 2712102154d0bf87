import ModPackager.Proofs.AuxScript.Steady

/-!
# Compiling scripts once more

Two worlds in which a deployment has come equally far are `Peers`: they hold the same but in the auxiliary directory.
A steady compiler ends in the same way in both, and writes the same output. So a job that succeeds in one of them
succeeds in the other one with the same run, and leaves them peers (`runJob_again`), and all scripts are compiled and
deployed as before (`transpile_again`).
-/

namespace ModPackager

open FileSystem FileAction Deploy

variable {fs now : FileSystem} {root path : Path} {settings : Settings} {scratchName : String → Prop}
  {dir place location : Location} {name modPrefix : String} {job : Job} {entry : Entry} {site : Site fs root}
  {time : Nat} {compiler : Compiler}

namespace AuxScript

/-! ### Parts of a job -/

/-- An output that is fresh already is not waited for. -/
theorem awaitOutput_fresh {since deadline fuel looks : Nat} {world : World}
    (h : isFresh world.files job.output since = true) :
    awaitOutput settings.compiler job since deadline (fuel + 1) looks world = .ok () world := by
  unfold awaitOutput
  simp only [bind, EStateM.bind, run_get, h, if_true]
  rfl

/-! ### Peers -/

/-- Idle worlds in which a deployment has come equally far: tidy twins, whatever lies at scratch places. -/
structure Peers (site : Site fs root) (settings : Settings) (scratchName : String → Prop) (s t : World) : Prop where
  twins : site.Twins (Scratch fs root settings scratchName) (Scratch fs root settings scratchName) s.files t.files
  left : site.Tidy (Scratch fs root settings scratchName) s.now s.files
  right : site.Tidy (Scratch fs root settings scratchName) t.now t.files
  pending : s.pending = []
  pending' : t.pending = []

namespace Peers

variable {s t : World}

theorem symm (h : Peers site settings scratchName s t) : Peers site settings scratchName t s :=
  ⟨⟨h.twins.right, h.twins.left, h.twins.alike.symm⟩, h.right, h.left, h.pending', h.pending⟩

/-- It makes no difference what is noted. -/
theorem of_files {s' t' : World} (h : Peers site settings scratchName s t) (hfiles : s'.files = s.files)
    (hpending : s'.pending = s.pending) (hfiles' : t'.files = t.files) (hpending' : t'.pending = t.pending) :
    Peers site settings scratchName s' t' := by
  refine ⟨?_, ?_, ?_, hpending.trans h.pending, hpending'.trans h.pending'⟩
  · rw [hfiles, hfiles']
    exact h.twins
  · rw [World.now, hfiles]
    exact h.left
  · rw [World.now, hfiles']
    exact h.right

theorem noteStep (h : Peers site settings scratchName s t) (source step : String) (path : Path) (outcome : Outcome) :
    Peers site settings scratchName (noteStep source step path outcome s) (noteStep source step path outcome t) :=
  h.of_files (noteStep_files source step path outcome s).1 (noteStep_files source step path outcome s).2
    (noteStep_files source step path outcome t).1 (noteStep_files source step path outcome t).2

/-- Files are written below the root in the same way. -/
theorem writeFile (h : Peers site settings scratchName s t) {rel : List String}
    (hspares : site.Spares (Scratch fs root settings scratchName)) (wf : fs.WellFormed) (hroot : root.text ≠ "")
    (hpath : Extends root path rel) (hinside : staysInside 0 rel = true) (hne : rel ≠ []) (text : String) :
    (t.onFiles (writeFile path text)).1 = (s.onFiles (writeFile path text)).1
      ∧ Peers site settings scratchName (s.onFiles (writeFile path text)).2 (t.onFiles (writeFile path text)).2 := by
  obtain ⟨houtcome, htwins⟩ := writeFile_tracks hspares wf id hpath hinside hne text s.files t.files h.twins
  have tidy : ∀ time, Deployable root (fun _ => True) (site.Tidy (Scratch fs root settings scratchName) time) :=
    fun _ => Deploy.Site.Tidy.deployable hspares wf hroot
  exact ⟨houtcome, htwins, ((tidy _).writeFile hpath hinside hne trivial text h.left).at_now,
    ((tidy _).writeFile hpath hinside hne trivial text h.right).at_now, h.pending, h.pending'⟩

end Peers

theorem fit_of_tidy {world : World} (h : site.Tidy (Scratch fs root settings scratchName) time world.files)
    (hpending : world.pending = []) : Fit fs root settings scratchName world where
  changes := h.prepared.changes.weaken fun hplace => hplace.imp_left site.affected_iff.2
  leaves := h.leaves
  pending := hpending

/-- Twins prepare a job alike. -/
theorem prepare_tracks (hsource : Away fs (Changeable fs root settings scratchName) job.source) :
    Tracks (Both (site.Twins (Scratch fs root settings scratchName) (Scratch fs root settings scratchName)))
      (prepare settings job) := by
  have hfollows : Follows (site.Twins (Scratch fs root settings scratchName) (Scratch fs root settings scratchName))
      job.source := fun _ _ h => h.resolve_away fun place hplace hchanged =>
    hsource place hplace (hchanged.imp_left site.affected_iff.2)
  refine Tracks.get_bind (fun h => ?_) fun seen => ?_
  · rw [h.1.alike.workingDir]
  · split
    · exact .throw
    · exact (JobAction.lift_tracks ((readBytes_tracks hfollows).bind fun _ => .pure)).bind fun _ => .pure

section Compiling

variable {s s' t : World} (hspares : site.Spares (Scratch fs root settings scratchName))
  (hcompiler : StagedCompiler fs root settings scratchName compiler)
  (hsteady : compiler.Steady (Fit fs root settings scratchName) (Output fs root settings scratchName))

include hspares hcompiler hsteady

/-- Once the compiler has run, a tidy site is still tidy, but for the time. -/
theorem compiled_tidy (h : site.Tidy (Scratch fs root settings scratchName) time s.files) (hpending : s.pending = []) (job : Job)
    (auxDir : Path) (deadline : Nat) :
    Changes (Scratch fs root settings scratchName) s.files (compiled compiler settings job auxDir deadline s).files
      ∧ (compiled compiler settings job auxDir deadline s).pending = []
      ∧ ∀ now, site.Tidy (Scratch fs root settings scratchName) now
        { (compiled compiler settings job auxDir deadline s).files with now } := by
  have hfit := fit_of_tidy h hpending
  have hchanges : Changes (Scratch fs root settings scratchName) s.files
      (compiled compiler settings job auxDir deadline s).files :=
    (hcompiler _ _ (s.note _ _ _ _) ⟨hfit.changes, fun task htask => by simp [World.note, hpending] at htask⟩).1
  have hafter : Fit fs root settings scratchName (compiled compiler settings job auxDir deadline s) :=
    hsteady.fits (hfit.note _ _ _ _)
  refine ⟨hchanges, hafter.pending, fun now => ⟨h.prepared.trans_extra (hchanges.later now), ?_, hafter.leaves, rfl⟩⟩
  exact (hchanges.entries _ fun hscratch => hspares.below _ hscratch (List.prefix_refl _)).trans h.there

/-- Once the compiler has run in peers, they hold the same output. -/
theorem compiled_matched (peers : Peers site settings scratchName s t) {auxDir : Path} {deadline deadline' : Nat}
    (hlimit : deadline' - t.now = deadline - s.now)
    (hsucceeds : (completion compiler settings job auxDir deadline s).Succeeds)
    (hput : Output fs root settings scratchName (dir ++ [scriptTarget name])) (a b : Nat) :
    (completion compiler settings job auxDir deadline' t).Succeeds
      ∧ Matched site settings scratchName (dir ++ [scriptTarget name]) a b
        { (compiled compiler settings job auxDir deadline s).files with now := a }
        { (compiled compiler settings job auxDir deadline' t).files with now := b } := by
  have hs := fit_of_tidy peers.left peers.pending
  have ht := fit_of_tidy peers.right peers.pending'
  obtain ⟨hchanges, -, htidy⟩ := compiled_tidy hspares hcompiler hsteady peers.left peers.pending job auxDir deadline
  obtain ⟨hchanges', -, htidy'⟩ :=
    compiled_tidy hspares hcompiler hsteady peers.right peers.pending' job auxDir deadline'
  have hends : completion compiler settings job auxDir deadline' t = completion compiler settings job auxDir deadline s := by
    unfold completion
    rw [hlimit]
    exact hsteady.ends (hs.note _ _ _ _) (ht.note _ _ _ _)
  have hsame : (compiled compiler settings job auxDir deadline' t).files.entry? (dir ++ [scriptTarget name])
      = (compiled compiler settings job auxDir deadline s).files.entry? (dir ++ [scriptTarget name]) := by
    unfold compiled
    rw [hlimit]
    exact hsteady.repeats (hs.note _ _ _ _) (ht.note _ _ _ _) hsucceeds hput
  refine ⟨hends ▸ hsucceeds, ⟨(htidy a).prepared, (htidy' b).prepared, ?_, fun place hplace => ?_⟩, htidy a, htidy' b⟩
  · exact hchanges'.workingDir.trans (peers.twins.alike.workingDir.trans hchanges.workingDir.symm)
  · by_cases hoffered : place = dir ++ [scriptTarget name]
    · rw [hoffered]
      exact hsame
    · have hkept : ¬ Scratch fs root settings scratchName place := fun hscratch => hplace ⟨hscratch, hoffered⟩
      exact (hchanges'.entries _ hkept).trans ((peers.twins.alike.entries _ hkept).trans (hchanges.entries _ hkept).symm)

/-- An output that is expected is fresh once the compiler has succeeded. -/
theorem compiled_fresh (wf : fs.WellFormed) (haway : Away fs (Changeable fs root settings scratchName) settings.auxDir)
    (haux : fs.resolve true settings.auxDir = .ok (.found dir .directory)) (hjob : IsJob settings root job name)
    (h : site.Tidy (Scratch fs root settings scratchName) time s.files) (hpending : s.pending = []) {auxDir : Path}
    {deadline : Nat} (hsucceeds : (completion compiler settings job auxDir deadline s).Succeeds)
    (hput : Output fs root settings scratchName (dir ++ [scriptTarget name])) (hfollow : Followable job.output) :
    isFresh (compiled compiler settings job auxDir deadline s).files job.output (s.now - clockSlack) = true := by
  obtain ⟨-, hidle, htidy⟩ := compiled_tidy hspares hcompiler hsteady h hpending job auxDir deadline
  have hchanges := (fit_of_tidy (htidy (compiled compiler settings job auxDir deadline s).now) hidle).changes
  obtain ⟨contents, written, hlate, hnode⟩ :=
    hsteady.writes ((fit_of_tidy h hpending).note _ _ _ _) hsucceeds hput
  change (compiled compiler settings job auxDir deadline s).files.node? (dir ++ [scriptTarget name])
    = some ⟨.file contents, written⟩ at hnode
  change s.now ≤ written at hlate
  generalize (compiled compiler settings job auxDir deadline s).files = files at hchanges hnode ⊢
  obtain ⟨hempty, -, -, hslash⟩ := scriptTarget_plain hjob.valid
  have hentry : files.entry? (dir ++ [scriptTarget name]) = some (.file contents) := by
    rw [entry?_of_ne (by simp), hnode]
    rfl
  have hresolve : files.resolve true job.output = .ok (.found (dir ++ [scriptTarget name]) (.file contents)) := by
    rw [hjob.output_eq] at hfollow ⊢
    exact resolve_entry hempty hslash ((hchanges.wellFormed wf).validName hentry).ordinary hfollow
      ((hchanges.resolve haway).trans haux) hentry nofun
  simp only [isFresh, modified?, canonical?_eq_some_iff.2 ⟨_, hresolve⟩, hnode, Option.bind_eq_bind, Option.bind_some,
    Option.any_some, decide_eq_true_eq]
  omega

variable (staging : Staging fs root settings scratchName) (haccepted : settings.deployRoot fs = .ok root)
  (hroot : Followable root) (wf : fs.WellFormed) (haway : Away fs (Changeable fs root settings scratchName) settings.auxDir)
  (haux : fs.resolve true settings.auxDir = .ok (.found dir .directory)) (hjob : IsJob settings root job name)
  (hsource : Away fs (Changeable fs root settings scratchName) job.source)

include staging haccepted hroot wf haway haux hjob hsource

/-- A job that succeeds in one of two peers succeeds in the other one, and leaves them peers. -/
theorem attempt_again (peers : Peers site settings scratchName s t) {deadline deadline' : Nat} {deployed : String}
    (hdeadline : deadline? s.now settings.compiler.timeoutSecs = some deadline)
    (hdeadline' : deadline? t.now settings.compiler.timeoutSecs = some deadline')
    (hrun : attempt compiler settings modPrefix job s.now deadline s = .ok deployed s') :
    Output fs root settings scratchName (dir ++ [scriptTarget name])
      ∧ ∃ t', attempt compiler settings modPrefix job t.now deadline' t = .ok deployed t'
        ∧ Peers site settings scratchName s' t' ∧ t'.now ≤ t.now + settings.compiler.timeoutSecs * 1000 := by
  have hlimit : deadline' - t.now = deadline - s.now := by
    rw [(deadline?_eq_some_iff.1 hdeadline).2, (deadline?_eq_some_iff.1 hdeadline').2]
    omega
  obtain ⟨rfl, auxDir, embedded, prepared, invoked, awaited, hprepare, hinvoke, hawait, hdeploy⟩ := attempt_inv hrun
  -- The script is the same, so it asks for the same.
  obtain ⟨prepared', hprepare', -⟩ :=
    (prepare_tracks hsource).ok ⟨peers.twins, peers.pending, peers.pending'⟩ hprepare
  obtain ⟨rfl, -, hembeds⟩ := prepare_inv hprepare
  obtain ⟨rfl, -, -⟩ := prepare_inv hprepare'
  have hthere : fs.holdsFile job.source = true := by
    have hresolve : prepared.files.resolve true job.source = fs.resolve true job.source :=
      (fit_of_tidy peers.left peers.pending).changes.resolve hsource
    rw [holdsFile, lookup?, ← lookup_of_resolve hresolve]
    exact holdsFile_of_embeds hembeds
  -- What is deployed is what the compiler has left, since nothing but time passes after it.
  rw [invoke_eq] at hinvoke
  obtain ⟨hsucceeds, hfiles, hpending⟩ := conclude_inv hinvoke
  obtain ⟨-, hidle, htidy⟩ :=
    compiled_tidy hspares hcompiler hsteady peers.left peers.pending job auxDir deadline
  obtain ⟨⟨⟨a, hawaited⟩, hidleAwaited⟩, -⟩ :=
    (awaitOutput_idle settings.compiler job (compiled compiler settings job auxDir deadline prepared).files
      (prepared.now - clockSlack) deadline (deadline - prepared.now + 1) 0).ok ⟨⟨_, hfiles⟩, hpending.trans hidle⟩ hawait
  have htidyAwaited : site.Tidy (Scratch fs root settings scratchName) a awaited.files := hawaited ▸ htidy a
  obtain ⟨hput, hfollowable⟩ :=
    output_of_deployOutput staging haccepted hroot wf hspares haux hjob htidyAwaited hthere hdeploy
  refine ⟨hput, ?_⟩
  obtain ⟨hsucceeds', hmatched⟩ := compiled_matched hspares hcompiler hsteady peers hlimit hsucceeds hput a (compiled compiler settings job auxDir deadline' prepared').now
  obtain ⟨noted, hinvoke', hfiles', hpending'⟩ :=
    conclude_succeeds hsucceeds' settings job (compiled compiler settings job auxDir deadline' prepared')
  obtain ⟨-, hidle', -⟩ := compiled_tidy hspares hcompiler hsteady peers.right peers.pending' job auxDir deadline'
  -- The output is written anew, so it is not waited for.
  have hfresh : isFresh noted.files job.output (prepared'.now - clockSlack) = true := by
    rw [hfiles']
    exact compiled_fresh hspares hcompiler hsteady wf haway haux hjob peers.right peers.pending' hsucceeds' hput hfollowable
  have hawait' : awaitOutput settings.compiler job (prepared'.now - clockSlack) deadline'
      (deadline' - prepared'.now + 1) 0 noted = .ok () noted := awaitOutput_fresh hfresh
  have hboth : Both (Matched site settings scratchName (dir ++ [scriptTarget name]) a
      (compiled compiler settings job auxDir deadline' prepared').now) awaited noted :=
    ⟨by rw [hawaited, hfiles']; exact hmatched, hidleAwaited, hpending'.trans hidle'⟩
  obtain ⟨t', hdeploy', ⟨htwins, hleft, hright⟩, hended, hended'⟩ :=
    (deployOutput_tracks staging haccepted hroot wf hspares haway haux hjob embedded a
      (compiled compiler settings job auxDir deadline' prepared').now).ok hboth hdeploy
  refine ⟨t', ?_, ⟨htwins.mono (·.1), hleft.at_now, hright.at_now, hended, hended'⟩, ?_⟩
  · refine bind_eq_ok.2 ⟨_, _, hprepare', bind_eq_ok.2 ⟨(), noted, ?_, bind_eq_ok.2 ⟨(), noted, hawait', ?_⟩⟩⟩
    · rw [invoke_eq]
      exact hinvoke'
    · exact bind_eq_ok.2 ⟨(), t', hdeploy', rfl⟩
  · rw [World.now, hright.time_eq]
    have hend : (compiled compiler settings job auxDir deadline' prepared').now
        ≤ prepared'.now + (deadline' - prepared'.now) :=
      hsteady.inTime ((fit_of_tidy peers.right peers.pending').note _ _ _ _)
    rw [(deadline?_eq_some_iff.1 hdeadline').2] at hend ⊢
    omega

/-- A job whose run succeeds in one of two peers has the same run in the other one, if the clock can count its time
there. -/
theorem runJob_again (peers : Peers site settings scratchName s t) {run : JobRun}
    (hclock : s = t ∨ t.now / 1000 + settings.compiler.timeoutSecs < clockLimit)
    (hrun : runJob compiler settings modPrefix job s = .ok run s')
    (hsucceeds : ∀ reason, run.step.outcome ≠ .failed reason) :
    Output fs root settings scratchName (dir ++ [scriptTarget name])
      ∧ ∃ t', runJob compiler settings modPrefix job t = .ok run t'
        ∧ Peers site settings scratchName s' t' ∧ t'.now ≤ t.now + settings.compiler.timeoutSecs * 1000 := by
  obtain ⟨deadline, deployed, ended, hdeadline, hattempt, rfl, hfiles, hpending⟩ := runJob_inv hrun hsucceeds
  obtain ⟨deadline', hdeadline'⟩ : ∃ deadline', deadline? t.now settings.compiler.timeoutSecs = some deadline' :=
    hclock.elim (fun heq => ⟨deadline, heq ▸ hdeadline⟩) fun hlimit => ⟨_, if_pos hlimit⟩
  obtain ⟨hput, ended', hattempt', hpeers, hend⟩ := attempt_again hspares hcompiler hsteady staging haccepted hroot wf
    haway haux hjob hsource peers hdeadline hdeadline' hattempt
  refine ⟨hput, noteRun ⟨job, .ok deployed⟩ ended', ?_, hpeers.of_files hfiles hpending rfl rfl, hend⟩
  simp only [runJob, hdeadline', hattempt']

end Compiling

/-! ### All jobs -/

section Jobs

variable {s s' t : World} {jobs : List Job} (staging : Staging fs root settings scratchName) (wf : fs.WellFormed)
  (haux : fs.resolve true settings.auxDir = .ok (.found dir .directory))
  (hspares : site.Spares (Scratch fs root settings scratchName))
  (hcompiler : StagedCompiler fs root settings scratchName compiler)
  (hsteady : compiler.Steady (Fit fs root settings scratchName) (Output fs root settings scratchName))
  (haccepted : settings.deployRoot fs = .ok root) (hroot : Followable root)
  (haway : Away fs (Changeable fs root settings scratchName) settings.auxDir)
  (hjobs : ∀ job ∈ jobs, ∃ name, IsJob settings root job name
    ∧ Away fs (Changeable fs root settings scratchName) job.source)

include staging wf haux

/-- Where an output is at a scratch place, peers are still peers once it is removed from one of them. -/
theorem removeLeftover_peers (peers : Peers site settings scratchName s t) (hjob : IsJob settings root job name)
    (hput : Output fs root settings scratchName (dir ++ [scriptTarget name])) :
    Peers site settings scratchName (removeLeftover job s) t := by
  have hremove : Maintains (fun now => site.Twins (Scratch fs root settings scratchName)
      (Scratch fs root settings scratchName) now t.files ∧ site.Tidy (Scratch fs root settings scratchName) s.now now)
      (removeFile job.output) fun _ => True := by
    refine removeFile_maintains fun {now location entry} h hresolve hleaf => ?_
    have hentry := entry?_of_found hresolve
    have hchanges := h.1.left.changes.weaken fun hplace => hplace.imp_left site.affected_iff.2
    rw [hjob.output_eq] at hresolve
    obtain rfl : location = dir ++ [scriptTarget name] :=
      staging.place_output hchanges (canonical?_eq_some_iff.2 ⟨_, haux⟩) hjob.valid hjob.script hresolve
    have herased : Changes (Scratch fs root settings scratchName) now (now.erase (dir ++ [scriptTarget name])) :=
      (Changes.refl now).erase_leaf (h.1.left.changes.wellFormed wf) hput.1 hentry hleaf
    exact ⟨h.1.left_extra herased id, h.2.erase wf (h.2.prepared.trans_extra herased) hentry hleaf⟩
  unfold removeLeftover
  split
  · have hend := hremove s.files ⟨peers.twins, peers.left⟩
    split
    next heq =>
        rw [heq] at hend
        exact ⟨hend.1.1, hend.1.2.at_now, peers.right, peers.pending, peers.pending'⟩
    · exact peers
  · exact peers

theorem removeLeftovers_peers (peers : Peers site settings scratchName s t)
    (hputs : ∀ job ∈ jobs, ∃ name, IsJob settings root job name
      ∧ Output fs root settings scratchName (dir ++ [scriptTarget name])) :
    Peers site settings scratchName (jobs.foldl (fun world job => removeLeftover job world) s) t := by
  refine List.foldlRecOn (motive := fun world => Peers site settings scratchName world t) jobs _ peers
    fun world hworld job hmem => ?_
  obtain ⟨name, hjob, hput⟩ := hputs job hmem
  exact removeLeftover_peers staging wf haux hworld hjob hput

include hspares hcompiler hsteady haccepted hroot haway hjobs

/-- Jobs that all succeed in one of two peers have the same runs in the other one. The clock can count their time where
it has done so. -/
theorem mapM_again (peers : Peers site settings scratchName s t) {runs : List JobRun}
    (hclock : s = t ∨ t.now / 1000 + jobs.length * settings.compiler.timeoutSecs < clockLimit)
    (hrun : jobs.mapM (runJob compiler settings modPrefix) s = .ok runs s')
    (hsucceeds : ∀ run ∈ runs, ∀ reason, run.step.outcome ≠ .failed reason) :
    (∀ job ∈ jobs, ∃ name, IsJob settings root job name ∧ Output fs root settings scratchName (dir ++ [scriptTarget name]))
      ∧ ∃ t', jobs.mapM (runJob compiler settings modPrefix) t = .ok runs t'
        ∧ Peers site settings scratchName s' t' := by
  induction jobs generalizing s t runs with
  | nil =>
      cases hrun
      exact ⟨by simp, t, rfl, peers⟩
  | cons job rest ih =>
      rw [List.mapM_cons] at hrun
      obtain ⟨run, between, hfirst, hrest⟩ := bind_eq_ok.1 hrun
      obtain ⟨later, ended, hlater, hend⟩ := bind_eq_ok.1 hrest
      cases hend
      obtain ⟨name, hjob, hsource⟩ := hjobs job List.mem_cons_self
      rw [List.length_cons, Nat.add_mul, Nat.one_mul] at hclock
      obtain ⟨hput, between', hfirst', hbetween, htime⟩ := runJob_again hspares hcompiler hsteady staging haccepted hroot
        wf haway haux hjob hsource peers (hclock.imp_right fun hlimit => by omega) hfirst
        (hsucceeds run List.mem_cons_self)
      have hclock' : between = between' ∨ between'.now / 1000 + rest.length * settings.compiler.timeoutSecs < clockLimit := by
        rcases hclock with rfl | hlimit
        · rw [hfirst] at hfirst'
          exact .inl (EStateM.Result.ok.inj hfirst').2
        · exact .inr (by omega)
      obtain ⟨hputs, ended', hlater', hended⟩ := ih (fun other hother => hjobs other (List.mem_cons_of_mem _ hother))
        hbetween hclock' hlater fun other hother => hsucceeds other (List.mem_cons_of_mem _ hother)
      refine ⟨List.forall_mem_cons.2 ⟨⟨name, hjob, hput⟩, hputs⟩, ended', ?_, hended⟩
      rw [List.mapM_cons]
      exact bind_eq_ok.2 ⟨run, between', hfirst', bind_eq_ok.2 ⟨later, ended', hlater', rfl⟩⟩

theorem runJobs_again (peers : Peers site settings scratchName s t) {runs : List JobRun}
    (hclock : s = t ∨ t.now / 1000 + jobs.length * settings.compiler.timeoutSecs < clockLimit)
    (hrun : runJobs compiler settings modPrefix jobs s = .ok runs s')
    (hsucceeds : ∀ run ∈ runs, ∀ reason, run.step.outcome ≠ .failed reason) :
    ∃ t', runJobs compiler settings modPrefix jobs t = .ok runs t' ∧ Peers site settings scratchName s' t' := by
  obtain ⟨runs', ended, hruns, hrest⟩ := bind_eq_ok.1 hrun
  obtain ⟨⟨⟩, cleaned, hcleaned, hend⟩ := bind_eq_ok.1 hrest
  cases hcleaned
  cases hend
  obtain ⟨hputs, ended', hruns', hended⟩ := mapM_again staging wf haux hspares hcompiler hsteady haccepted hroot haway hjobs
    peers hclock hruns hsucceeds
  refine ⟨_, bind_eq_ok.2 ⟨_, ended', hruns', bind_eq_ok.2 ⟨(), _, run_modify _ _, rfl⟩⟩, ?_⟩
  have hcleaned := removeLeftovers_peers staging wf haux hended hputs
  exact (removeLeftovers_peers staging wf haux hcleaned.symm hputs).symm

end Jobs

/-! ### The whole directory -/

theorem runAndList_of_runs {jobs : List Job} {runs : List JobRun} {world ended : World}
    (h : runJobs compiler settings modPrefix jobs world = .ok runs ended) :
    runAndList compiler settings root modPrefix jobs world
      = if (Summary.deployed { runs }).isEmpty then .ok { runs } ended
        else
          let path := (root.child lovelyDir).child manifestName
          let written := ended.onFiles (writeFile path (Manifest.renderScripts (Summary.deployed { runs })))
          .ok { runs, manifest := some written.1 } (noteStep "lovepack::deploy" "write" path written.1 written.2) := by
  simp only [runAndList, bind, EStateM.bind, h]
  split <;> rfl

/-- What may change is kept apart from the scripts of the auxiliary directory. -/
def ScriptsAway (fs : FileSystem) (root : Path) (settings : Settings) (scratchName : String → Prop) : Prop :=
  fs.holdsDirectory settings.auxDir = true → ∀ name, ValidName name → isScriptName name = true →
    Away fs (Changeable fs root settings scratchName) (settings.auxDir.child name)

section Directory

variable (staging : Staging fs root settings scratchName) (hscripts : ScriptsAway fs root settings scratchName)
  (wf : fs.WellFormed)

include staging hscripts wf

/-- The same jobs are discovered, whatever has changed. -/
theorem discoverJobs_eq (h : Changes (Changeable fs root settings scratchName) fs now) :
    discoverJobs now settings.auxDir root = discoverJobs fs settings.auxDir root := by
  by_cases haux : fs.holdsDirectory settings.auxDir = true
  · obtain ⟨dir, hresolve⟩ := holdsDirectory_iff.1 haux
    have haway : Away fs (Changeable fs root settings scratchName) settings.auxDir :=
      staging.auxWay.resolve_right fun hnever => by simp [hnever fs (Changes.refl fs)] at haux
    have hnow := (h.resolve haway).trans hresolve
    have hpath := (resolve_eq_ok_iff.1 hresolve).1.2.1
    have hfiles : ∀ name ∈ now.names dir, (isScriptName name && now.holdsFile (settings.auxDir.child name))
        = (isScriptName name && fs.holdsFile (settings.auxDir.child name)) := by
      intro name hmem
      obtain ⟨entry, hentry⟩ := Option.isSome_iff_exists.1 (mem_names.1 hmem)
      cases hscript : isScriptName name with
      | false => rfl
      | true =>
          rw [holdsFile, holdsFile, lookup?, lookup?,
            lookup_of_resolve (h.resolve (hscripts haux name ((h.wellFormed wf).validName hentry) hscript))]
    have hnames : ((now.names dir).filter fun name => isScriptName name && fs.holdsFile (settings.auxDir.child name)).Perm
        ((fs.names dir).filter fun name => isScriptName name && fs.holdsFile (settings.auxDir.child name)) := by
      refine Glob.perm_filter_names wf (h.wellFormed wf) fun name hname hkeep => ?_
      obtain ⟨hscript, -⟩ := Bool.and_eq_true_iff.1 hkeep
      exact h.entries _ (hscripts haux name hname hscript _
        (mem_way_child hpath hname (leadsTo_of_resolve hresolve)))
    simp only [discoverJobs, haux, holdsDirectory_iff.2 ⟨_, hnow⟩, if_true, readNames_eq, lookup_eq_ok_iff.2 hresolve,
      lookup_eq_ok_iff.2 hnow, List.filter_congr hfiles, Glob.mergeSort_eq_of_perm hnames]
  · have hgone : now.holdsDirectory settings.auxDir = false := by
      rw [Bool.eq_false_iff]
      intro hthere
      rw [holdsDirectory_of_resolve (staging.resolve_aux h hthere)] at hthere
      exact haux hthere
    simp [discoverJobs, haux, hgone]

section Peers

variable {s s' t : World} {jobs : List Job} (hspares : site.Spares (Scratch fs root settings scratchName))
  (hcompiler : StagedCompiler fs root settings scratchName compiler)
  (hsteady : compiler.Steady (Fit fs root settings scratchName) (Output fs root settings scratchName))
  (haccepted : settings.deployRoot fs = .ok root) (hroot : Followable root)

include hspares hcompiler hsteady haccepted hroot

theorem runJobs_discovered {runs : List JobRun} (hlisted : discoverJobs fs settings.auxDir root = .ok jobs)
    (peers : Peers site settings scratchName s t)
    (hclock : s = t ∨ t.now / 1000 + jobs.length * settings.compiler.timeoutSecs < clockLimit)
    (hrun : runJobs compiler settings modPrefix jobs s = .ok runs s')
    (hsucceeds : ∀ run ∈ runs, ∀ reason, run.step.outcome ≠ .failed reason) :
    ∃ t', runJobs compiler settings modPrefix jobs t = .ok runs t' ∧ Peers site settings scratchName s' t' := by
  by_cases haux : fs.holdsDirectory settings.auxDir = true
  · obtain ⟨dir, hresolve⟩ := holdsDirectory_iff.1 haux
    have haway : Away fs (Changeable fs root settings scratchName) settings.auxDir :=
      staging.auxWay.resolve_right fun hnever => by simp [hnever fs (Changes.refl fs)] at haux
    refine runJobs_again staging wf hresolve hspares hcompiler hsteady haccepted hroot haway (fun job hmem => ?_) peers
      hclock hrun hsucceeds
    obtain ⟨-, name, -, -, hjob⟩ := isJob_of_discoverJobs wf hlisted hmem
    refine ⟨name, hjob, ?_⟩
    rw [hjob.eq]
    exact hscripts haux name hjob.valid hjob.script
  · rw [discoverJobs, if_neg haux] at hlisted
    cases hlisted
    cases hrun
    exact ⟨t, rfl, peers⟩

omit staging hscripts hcompiler hsteady haccepted in
/-- What peers deployed is listed in the same way. -/
theorem runAndList_again {ended ended' : World} {summary : Summary}
    (hran : runJobs compiler settings modPrefix jobs s = .ok summary.runs ended)
    (hran' : runJobs compiler settings modPrefix jobs t = .ok summary.runs ended')
    (peers : Peers site settings scratchName ended ended')
    (hrun : runAndList compiler settings root modPrefix jobs s = .ok summary s') :
    ∃ t', runAndList compiler settings root modPrefix jobs t = .ok summary t' ∧ Peers site settings scratchName s' t' := by
  rw [runAndList_of_runs hran] at hrun
  rw [runAndList_of_runs hran']
  split at hrun
  next hempty =>
      obtain ⟨hsummary, rfl⟩ := EStateM.Result.ok.inj hrun
      rw [if_pos hempty, hsummary]
      exact ⟨ended', rfl, peers⟩
  next hdeployed =>
      obtain ⟨hsummary, rfl⟩ := EStateM.Result.ok.inj hrun
      rw [if_neg hdeployed]
      have hpath := extends_manifest hroot.2.1 validName_manifestName
      have hinside := staysInside_manifest validName_manifestName
      obtain ⟨houtcome, hwritten⟩ := peers.writeFile hspares wf hroot.2.1 hpath hinside (by simp)
        (Manifest.renderScripts (Summary.deployed { runs := summary.runs }))
      simp only at hsummary ⊢
      rw [houtcome, hsummary]
      exact ⟨_, rfl, hwritten.noteStep _ _ _ _⟩

/-- Scripts that are all deployed from one of two peers are deployed from the other one as well, if the clock can
count their time. -/
theorem transpile_again {summary : Summary} (peers : Peers site settings scratchName s t)
    (hclock : s = t ∨ t.now / 1000 + summary.runs.length * settings.compiler.timeoutSecs < clockLimit)
    (hrun : transpile compiler settings root modPrefix s = .ok summary s')
    (hsucceeds : ∀ name reason, ⟨name, .failed reason⟩ ∉ summary.steps) :
    ∃ t', transpile compiler settings root modPrefix t = .ok summary t' ∧ Peers site settings scratchName s' t' := by
  have hfit := fit_of_tidy peers.left peers.pending
  have hfit' := fit_of_tidy peers.right peers.pending'
  obtain ⟨noted, hfiles, hpending, ⟨fault, hlisted, heq⟩ | ⟨jobs, hlisted, heq⟩⟩ :=
    transpile_cases compiler settings root modPrefix s
  · cases heq.symm.trans hrun
    exact absurd (by simp [Summary.steps]) (hsucceeds "aux" (Error.io fault).message)
  · rw [discoverJobs_eq staging hscripts wf hfit.changes] at hlisted
    obtain ⟨noted', hfiles', hpending', heq', hsame⟩ : ∃ noted', noted'.files = t.files ∧ noted'.pending = t.pending
        ∧ transpile compiler settings root modPrefix t = runAndList compiler settings root modPrefix jobs noted'
        ∧ (s = t → noted = noted') := by
      by_cases hst : s = t
      · subst hst
        exact ⟨noted, hfiles, hpending, heq, fun _ => rfl⟩
      · obtain ⟨noted', hfiles', hpending', ⟨fault, hlisted', -⟩ | ⟨jobs', hlisted', heq'⟩⟩ :=
          transpile_cases compiler settings root modPrefix t
        · rw [discoverJobs_eq staging hscripts wf hfit'.changes, hlisted] at hlisted'
          cases hlisted'
        · rw [discoverJobs_eq staging hscripts wf hfit'.changes, hlisted] at hlisted'
          cases hlisted'
          exact ⟨noted', hfiles', hpending', heq', fun heq => absurd heq hst⟩
    have hnoted := peers.of_files hfiles hpending hfiles' hpending'
    rw [heq] at hrun
    rw [heq']
    obtain ⟨ended, hran, hlistable, -⟩ := runAndList_inv hrun
    have hsteps : summary.steps
        = summary.runs.map (·.step) ++ (summary.manifest.map (StepReport.mk manifestName)).toList := by
      simp [Summary.steps, hlistable]
    rw [hsteps] at hsucceeds
    have hruns : ∀ run ∈ summary.runs, ∀ reason, run.step.outcome ≠ .failed reason := fun run hmem reason hfailed =>
      hsucceeds run.step.name reason (List.mem_append_left _ (List.mem_map.2 ⟨run, hmem, by rw [← hfailed]⟩))
    have hlength : summary.runs.length = jobs.length := by rw [← runJobs_jobs hran, List.length_map]
    rw [hlength, World.now, ← hfiles'] at hclock
    obtain ⟨ended', hran', hended⟩ := runJobs_discovered staging hscripts wf hspares hcompiler hsteady haccepted hroot
      hlisted hnoted (hclock.imp_left hsame) hran hruns
    exact runAndList_again wf hspares hroot hran hran' hended hrun

end Peers

end Directory

end AuxScript

end ModPackager
