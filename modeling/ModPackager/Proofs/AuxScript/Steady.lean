import ModPackager.Proofs.AuxScript.Deployed
import ModPackager.Proofs.Deploy.Renewal
import ModPackager.Proofs.Glob.Reach

/-!
# Steady compilers

Compiling may find the auxiliary directory in another state than before: what an earlier run has left there is not
what was there at first. A compiler is `Steady` if that makes no difference to how it ends and to what it writes at
some places, as long as what it finds is fit.

Where a `Tidy` site holds the same as another one, and so does the place of an output, the output is deployed in the
same way (`deployOutput_tracks`).
-/

namespace ModPackager

open FileSystem FileAction Deploy

variable {fs now : FileSystem} {root path : Path} {settings : Settings} {scratchName : String → Prop}
  {dir place location : Location} {name modPrefix : String} {job : Job} {entry : Entry} {extra : Location → Prop}
  {site : Site fs root} {time : Nat} {compiler : Compiler}

/-! ### Steady compilers -/

/-- A compiler ends and writes some outputs in the same way in all worlds that are fit for it, leaves a fit world
within its time, and writes these outputs anew if it succeeds. -/
structure Compiler.Steady (compiler : Compiler) (fit : World → Prop) (output : Location → Prop) : Prop where
  fits : ∀ {invocation limit world}, fit world → fit (compiler invocation limit world).2
  inTime : ∀ {invocation limit world}, fit world → (compiler invocation limit world).2.now ≤ world.now + limit
  ends : ∀ {invocation limit world other}, fit world → fit other →
    (compiler invocation limit other).1 = (compiler invocation limit world).1
  writes : ∀ {invocation limit world place}, fit world → (compiler invocation limit world).1.Succeeds → output place →
    ∃ contents time, world.now ≤ time
      ∧ (compiler invocation limit world).2.files.node? place = some ⟨.file contents, time⟩
  repeats : ∀ {invocation limit world other place}, fit world → fit other →
    (compiler invocation limit world).1.Succeeds → output place →
    (compiler invocation limit other).2.files.entry? place = (compiler invocation limit world).2.files.entry? place

/-- A world that a compiler may find in a run: only what the run may change has changed, no scratch entry is a
directory, and nothing is pending. -/
structure Fit (fs : FileSystem) (root : Path) (settings : Settings) (scratchName : String → Prop) (world : World) :
    Prop where
  changes : Changes (Changeable fs root settings scratchName) fs world.files
  leaves : ∀ place, Scratch fs root settings scratchName place → world.files.entry? place ≠ some .directory
  pending : world.pending = []

theorem Fit.note {world : World} (h : Fit fs root settings scratchName world) (source : String) (level : Log.Level)
    (message : String) (fields : List (String × String)) :
    Fit fs root settings scratchName (world.note source level message fields) := ⟨h.changes, h.leaves, h.pending⟩

/-- The scratch places where the compiled scripts of the auxiliary directory are expected. -/
def Output (fs : FileSystem) (root : Path) (settings : Settings) (scratchName : String → Prop) (place : Location) :
    Prop :=
  Scratch fs root settings scratchName place ∧ ∃ dir name, fs.canonical? settings.auxDir = some dir
    ∧ ValidName name ∧ isScriptName name = true ∧ fs.holdsFile (settings.auxDir.child name) = true
    ∧ place = dir ++ [scriptTarget name]

/-! ### Tidy sites -/

/-- A prepared site that is there, with no directories at extra places, at some time. -/
structure Deploy.Site.Tidy (site : Site fs root) (extra : Location → Prop) (time : Nat) (now : FileSystem) :
    Prop where
  prepared : site.Prepared extra now
  there : now.entry? site.dir = some .directory
  leaves : ∀ place, extra place → now.entry? place ≠ some .directory
  time_eq : now.now = time

namespace Deploy.Site.Tidy

theorem at_now (h : site.Tidy extra time now) : site.Tidy extra now.now now := ⟨h.prepared, h.there, h.leaves, rfl⟩

theorem put (h : site.Tidy extra time now) (hprepared : site.Prepared extra (now.put location entry))
    (hwritable : now.Writable location) (hentry : extra location → entry ≠ .directory) :
    site.Tidy extra time (now.put location entry) where
  prepared := hprepared
  there := by
    rw [entry?_put_of_ne hwritable.ne_nil, h.there]
    intro heq
    exact hwritable.not_directory (heq ▸ h.there)
  leaves := by
    intro place hplace
    rw [entry?_put _ hwritable.ne_nil]
    split
    next heq => simpa using hentry (heq ▸ hplace)
    · exact h.leaves place hplace
  time_eq := now_put.trans h.time_eq

theorem erase (h : site.Tidy extra time now) (wf : fs.WellFormed)
    (hprepared : site.Prepared extra (now.erase location)) (hentry : now.entry? location = some entry)
    (hleaf : entry ≠ .directory) : site.Tidy extra time (now.erase location) where
  prepared := hprepared
  there := by
    rw [entry?_erase, if_neg, h.there]
    rintro ⟨-, more, hmore⟩
    have hdirectory : now.entry? location = some .directory := by
      by_cases hnil : more = []
      · rw [hnil, List.append_nil] at hmore
        exact hmore ▸ h.there
      · exact (h.prepared.changes.wellFormed wf).isDirectory_of_append hnil (hmore ▸ h.there)
    exact hleaf (Option.some.inj (hentry.symm.trans hdirectory))
  leaves := by
    intro place hplace
    rw [entry?_erase]
    split
    · simp
    · exact h.leaves place hplace
  time_eq := h.time_eq

/-- The deployment steps keep a site tidy. -/
theorem deployable (hspares : site.Spares extra) (wf : fs.WellFormed) (htext : root.text ≠ "") :
    Deployable root (fun _ => True) (site.Tidy extra time) where
  text_ne := htext
  wellFormed := fun h => h.prepared.changes.wellFormed wf
  makes := by
    intro now path rel location h hpath hinside _ hmakes
    obtain ⟨_, -, -, hvacant⟩ := id hmakes
    refine h.put (h.prepared.makeDirectory hspares wf hpath hinside hmakes) (writable_of_vacant hvacant) fun hextra => ?_
    rcases h.prepared.makesAt hspares hpath hinside hmakes with ⟨front, hfront, rfl⟩ | ⟨hbeneath, -⟩
    · exact absurd (site.climb_prefix_dir hfront) (hspares.above _ hextra)
    · exact absurd hbeneath.1 (hspares.below _ hextra)
  writes := by
    intro now path rel location contents h hpath hinside hne _ hwrites
    exact h.put (h.prepared.writeFile hspares wf hpath hinside hne hwrites)
      (hwrites.writable (h.prepared.changes.wellFormed wf)) nofun

end Deploy.Site.Tidy

/-! ### The same in two worlds -/

section Tracks

variable {σ ε α : Type} {rel : σ → σ → Prop} {inv inv' : σ → Prop} {action : EStateM ε σ α}

/-- What an action keeps on either side is kept along with what it does the same. -/
theorem Tracks.and_maintains (h : Tracks rel action) (hinv : Maintains inv action fun _ => True)
    (hinv' : Maintains inv' action fun _ => True) : Tracks (fun s t => rel s t ∧ inv s ∧ inv' t) action := by
  rintro s t ⟨hst, hs, ht⟩
  have hend := h s t hst
  have hkept := hinv s hs
  have hkept' := hinv' t ht
  generalize action s = first, action t = other at hend hkept hkept'
  cases hend with
  | ok hrel => exact .ok ⟨hrel, hkept.1, hkept'.1⟩
  | error hrel => exact .error ⟨hrel, hkept, hkept'⟩

end Tracks

/-- Idle worlds with related files. -/
def Both (rel : FileSystem → FileSystem → Prop) (s t : World) : Prop :=
  rel s.files t.files ∧ s.pending = [] ∧ t.pending = []

section Lifting

variable {α : Type} {rel : FileSystem → FileSystem → Prop} {action : FileAction α}

theorem JobAction.lift_tracks (h : Tracks rel action) : Tracks (Both rel) (JobAction.lift action) := by
  rintro s t ⟨hfiles, hpending, hpending'⟩
  have hend := h s.files t.files hfiles
  unfold JobAction.lift
  generalize action s.files = first, action t.files = other at hend
  cases hend with
  | ok hrel => exact .ok ⟨hrel, hpending, hpending'⟩
  | error hrel => exact .error ⟨hrel, hpending, hpending'⟩

theorem AuxScript.onOutput_tracks (h : Tracks rel action) (job : Job) : Tracks (Both rel) (onOutput job action) := by
  rintro s t ⟨hfiles, hpending, hpending'⟩
  have hend := h s.files t.files hfiles
  unfold onOutput
  generalize action s.files = first, action t.files = other at hend
  cases hend with
  | ok hrel => exact .ok ⟨hrel, hpending, hpending'⟩
  | @error fault _ _ hrel => cases fault <;> exact .error ⟨hrel, hpending, hpending'⟩

end Lifting

namespace AuxScript

section Jobs

variable (staging : Staging fs root settings scratchName) (haccepted : settings.deployRoot fs = .ok root)
  (hroot : Followable root) (wf : fs.WellFormed) (hspares : site.Spares (Scratch fs root settings scratchName))
  (haway : Away fs (Changeable fs root settings scratchName) settings.auxDir)
  (haux : fs.resolve true settings.auxDir = .ok (.found dir .directory)) (hjob : IsJob settings root job name)

/-- Scratch places other than the output of a script. -/
def Besides (fs : FileSystem) (root : Path) (settings : Settings) (scratchName : String → Prop) (output place : Location) :
    Prop := Scratch fs root settings scratchName place ∧ place ≠ output

/-! ### Outputs -/

include staging haway haux hjob

/-- The path of an output comes by no other scratch place. -/
theorem follows_output : Follows (site.Twins (Scratch fs root settings scratchName)
    (Besides fs root settings scratchName (dir ++ [scriptTarget name]))) job.output := by
  intro s t h follow
  have hchanges : Changes (Changeable fs root settings scratchName) fs s :=
    h.left.changes.weaken fun hplace => hplace.imp_left site.affected_iff.2
  obtain ⟨hempty, hdot, hup, hslash⟩ := scriptTarget_plain hjob.valid
  have hpath := (resolve_eq_ok_iff.1 haux).1.2.1
  have hleads : s.LeadsTo (s.namesTo settings.auxDir) dir := leadsTo_of_resolve ((hchanges.resolve haway).trans haux)
  have hunlinked : s.Unlinked dir [scriptTarget name] := by
    intro front hfront text hlink
    rcases List.prefix_cons_iff.1 hfront with rfl | ⟨more, rfl, hmore⟩
    · rw [climb_nil, hleads.isDirectory] at hlink
      cases hlink
    · rw [List.prefix_nil.1 hmore, climb_cons, climb_nil, climbStep_of_ne hdot hup] at hlink
      exact staging.unlinked dir name (canonical?_eq_some_iff.2 ⟨_, haux⟩) hjob.script text (hchanges.links _ _ hlink)
  refine h.alike.resolve (fun place hplace hbesides => ?_) follow
  obtain ⟨fewer, hfewer⟩ := Leads.mem_trail_append hleads
  rw [hjob.output_eq, way, namesTo_child s hpath hempty hslash, hfewer] at hplace
  rcases hplace with hknown | hbehind
  · have hway : place ∈ fs.way settings.auxDir := hchanges.way haway ▸ hknown
    exact haway place hway (.inr hbesides.1)
  · obtain ⟨front, hfront, rfl⟩ := exists_climb_of_mem_trail hunlinked hbehind
    rcases List.prefix_cons_iff.1 hfront with rfl | ⟨more, rfl, hmore⟩
    · -- The directory itself is none of its entries.
      obtain ⟨⟨⟨other, entry, hother, -, heq⟩, -⟩, -⟩ := hbesides
      obtain rfl : dir = other := Option.some.inj ((canonical?_eq_some_iff.2 ⟨_, haux⟩).symm.trans hother)
      rw [climb_nil] at heq
      simpa using congrArg List.length heq
    · refine hbesides.2 ?_
      rw [List.prefix_nil.1 hmore, climb_cons, climb_nil, climbStep_of_ne hdot hup]

include haccepted hroot wf hspares

omit haway haux hjob in
theorem compilable_prepared :
    Compilable fs root settings scratchName (site.Prepared (Scratch fs root settings scratchName)) :=
  staging.compilable haccepted hroot wf (site.confines hspares wf hroot.2.1)

theorem writeOutput_tracks (text : String) : Tracks (site.Twins (Scratch fs root settings scratchName)
    (Besides fs root settings scratchName (dir ++ [scriptTarget name]))) (writeText job.output text) := by
  have hfollows : Follows (site.Twins _ _) job.output := follows_output staging haway haux hjob
  have compilable := compilable_prepared staging haccepted hroot wf hspares
  have hdir := canonical?_eq_some_iff.2 ⟨_, haux⟩
  refine writeBytes_tracks hfollows fun {s t location} h hwrites => ?_
  have hwritesToo : WritesAt t job.output location := by
    unfold WritesAt
    rw [hfollows s t h]
    exact hwrites
  have hwritable := hwrites.writable (h.left.changes.wellFormed wf)
  rw [hjob.output_eq] at hwrites hwritesToo
  exact ⟨compilable.write h.left hdir hjob.valid hjob.script hwrites,
    compilable.write h.right hdir hjob.valid hjob.script hwritesToo, h.alike.put hwritable.ne_nil⟩

theorem removeOutput_tracks : Tracks (site.Twins (Scratch fs root settings scratchName)
    (Besides fs root settings scratchName (dir ++ [scriptTarget name]))) (removeFile job.output) := by
  have hfollows : Follows (site.Twins _ _) job.output := follows_output staging haway haux hjob
  have compilable := compilable_prepared staging haccepted hroot wf hspares
  have hdir := canonical?_eq_some_iff.2 ⟨_, haux⟩
  refine removeFile_tracks hfollows fun {s t location entry} h hresolve hleaf => ?_
  have hresolveToo := (hfollows s t h false).trans hresolve
  rw [hjob.output_eq] at hresolve hresolveToo
  exact ⟨compilable.erase h.left hdir hjob.valid hjob.script hresolve hleaf,
    compilable.erase h.right hdir hjob.valid hjob.script hresolveToo hleaf, h.alike.erase⟩

omit haway in
theorem writeOutput_tidy (text : String) :
    Maintains (site.Tidy (Scratch fs root settings scratchName) time) (writeText job.output text) fun _ => True := by
  refine writeBytes_maintains fun h hwrites => ?_
  have hwritable := hwrites.writable (h.prepared.changes.wellFormed wf)
  rw [hjob.output_eq] at hwrites
  exact h.put ((compilable_prepared staging haccepted hroot wf hspares).write h.prepared
    (canonical?_eq_some_iff.2 ⟨_, haux⟩) hjob.valid hjob.script hwrites) hwritable nofun

omit haway in
theorem removeOutput_tidy :
    Maintains (site.Tidy (Scratch fs root settings scratchName) time) (removeFile job.output) fun _ => True := by
  refine removeFile_maintains fun h hresolve hleaf => ?_
  have hentry := entry?_of_found hresolve
  rw [hjob.output_eq] at hresolve
  exact h.erase wf ((compilable_prepared staging haccepted hroot wf hspares).erase h.prepared
    (canonical?_eq_some_iff.2 ⟨_, haux⟩) hjob.valid hjob.script hresolve hleaf) hentry hleaf

/-- Tidy twins that hold the same output. -/
abbrev Matched (site : Site fs root) (settings : Settings) (scratchName : String → Prop) (output : Location) (a b : Nat)
    (s t : FileSystem) : Prop :=
  site.Twins (Scratch fs root settings scratchName) (Besides fs root settings scratchName output) s t
    ∧ site.Tidy (Scratch fs root settings scratchName) a s ∧ site.Tidy (Scratch fs root settings scratchName) b t

/-- An output that is the same is deployed in the same way. -/
theorem deployOutput_tracks (embedded : Bool) (a b : Nat) :
    Tracks (Both (Matched site settings scratchName (dir ++ [scriptTarget name]) a b))
      (deployOutput modPrefix job embedded) := by
  have hfollows : Follows (site.Twins _ _) job.output := follows_output staging haway haux hjob
  have hpath := extends_deployPath hroot.2.1 hjob
  have hinside := staysInside_deployPath hjob
  have hhidden : ∀ {place}, Besides fs root settings scratchName (dir ++ [scriptTarget name]) place →
      Scratch fs root settings scratchName place := fun h => h.1
  have tidy : ∀ time, Deployable root (fun _ => True) (site.Tidy (Scratch fs root settings scratchName) time) :=
    fun time => Deploy.Site.Tidy.deployable hspares wf hroot.2.1
  have hplace : Tracks (Both (Matched site settings scratchName (dir ++ [scriptTarget name]) a b))
      (placeOutput job) := by
    have hparent := (Site.Twins.createParent hspares hhidden hpath hinside wf).and_maintains
      ((tidy a).createParent hpath hinside (by simp)) ((tidy b).createParent hpath hinside (by simp))
    have hcopy := (Site.Twins.copyFile hspares hhidden hpath hinside wf (by simp) hfollows).and_maintains
      ((tidy a).copyFile hpath hinside (by simp) trivial job.output)
      ((tidy b).copyFile hpath hinside (by simp) trivial job.output)
    have tidyRemove : ∀ time, Maintains (site.Tidy (Scratch fs root settings scratchName) time)
        (removeFile job.output) fun _ => True :=
      fun _ => removeOutput_tidy staging haccepted hroot wf hspares haux hjob
    have hremove := (removeOutput_tracks staging haccepted hroot wf hspares haway haux hjob).and_maintains
      (tidyRemove a) (tidyRemove b)
    exact (JobAction.lift_tracks hparent).bind fun _ => (onOutput_tracks hcopy job).bind fun _ =>
      JobAction.lift_tracks hremove
  rw [deployOutput_eq]
  cases embedded with
  | false => exact hplace
  | true =>
      have tidyRead : ∀ time, Maintains (site.Tidy (Scratch fs root settings scratchName) time)
          (readText job.output) fun _ => True := fun _ => readText_maintains
      have hread := (readText_tracks hfollows).and_maintains (tidyRead a) (tidyRead b)
      have hembed : Tracks (Both (Matched site settings scratchName (dir ++ [scriptTarget name]) a b))
          (embedOutput modPrefix job) := by
        refine (onOutput_tracks hread job).bind fun body => JobAction.lift_tracks ?_
        exact (writeOutput_tracks staging haccepted hroot wf hspares haway haux hjob _).and_maintains
          (writeOutput_tidy staging haccepted hroot wf hspares haux hjob _)
          (writeOutput_tidy staging haccepted hroot wf hspares haux hjob _)
      exact hembed.bind fun _ => hplace

omit haway hspares in
/-- A file at the place of an output is at a scratch place, where a site is there. -/
theorem output_of_file {contents : ByteArray} (h : site.Tidy (Scratch fs root settings scratchName) time now)
    (hsource : fs.holdsFile job.source = true)
    (hfile : now.entry? (dir ++ [scriptTarget name]) = some (.file contents)) :
    Output fs root settings scratchName (dir ++ [scriptTarget name]) := by
  have hdir := canonical?_eq_some_iff.2 ⟨_, haux⟩
  have habove : ¬ dir ++ [scriptTarget name] <+: site.dir := by
    rintro ⟨more, hmore⟩
    have hthere := h.there
    rw [← hmore] at hthere
    by_cases hnil : more = []
    · rw [hnil, List.append_nil, hfile] at hthere
      cases hthere
    · rw [(h.prepared.changes.wellFormed wf).isDirectory_of_append hnil hthere] at hfile
      cases hfile
  refine ⟨⟨⟨dir, _, hdir, staging.outputs name hjob.script, rfl⟩, fun other => ?_⟩,
    dir, name, hdir, hjob.valid, hjob.script, by rwa [hjob.source_eq] at hsource, rfl⟩
  rw [site.dir_unique other]
  refine ⟨habove, fun hbelow => ?_⟩
  rcases List.prefix_concat_iff.1 hbelow with heq | hinto
  · exact habove (heq ▸ List.prefix_refl _)
  · exact site.not_contains_aux haccepted hroot wf hdir hinto

omit haway in
/-- An output that is placed is a file at a scratch place, and its path can be followed. -/
theorem output_of_placeOutput {world world' : World}
    (h : site.Tidy (Scratch fs root settings scratchName) time world.files) (hsource : fs.holdsFile job.source = true)
    (hrun : placeOutput job world = .ok () world') :
    Output fs root settings scratchName (dir ++ [scriptTarget name]) ∧ Followable job.output := by
  obtain ⟨⟨⟩, parent, hparent, hrest⟩ := bind_eq_ok.1 hrun
  obtain ⟨⟨⟩, copied, hcopy, -⟩ := bind_eq_ok.1 hrest
  have tidy : Deployable root (fun _ => True) (site.Tidy (Scratch fs root settings scratchName) time) :=
    Deploy.Site.Tidy.deployable hspares wf hroot.2.1
  obtain ⟨hbetween, -⟩ := (tidy.createParent (extends_deployPath hroot.2.1 hjob) (staysInside_deployPath hjob)
    (by simp)).ok h (JobAction.lift_inv hparent).1
  obtain ⟨location, contents, _, _, hlookup, -⟩ := copyFile_inv (onOutput_inv hcopy).1
  have hresolve := lookup_eq_ok_iff.1 hlookup
  have hchanges := hbetween.prepared.changes.weaken fun hplace => hplace.imp_left site.affected_iff.2
  have hfollow := (resolve_eq_ok_iff.1 hresolve).1
  have hfile := entry?_of_found hresolve
  rw [hjob.output_eq] at hresolve
  obtain rfl : location = dir ++ [scriptTarget name] :=
    staging.place_output hchanges (canonical?_eq_some_iff.2 ⟨_, haux⟩) hjob.valid hjob.script hresolve
  exact ⟨output_of_file staging haccepted hroot wf haux hjob hbetween hsource hfile, hfollow⟩

omit haway in
/-- So is one that is deployed. -/
theorem output_of_deployOutput {embedded : Bool} {world world' : World}
    (h : site.Tidy (Scratch fs root settings scratchName) time world.files) (hsource : fs.holdsFile job.source = true)
    (hrun : deployOutput modPrefix job embedded world = .ok () world') :
    Output fs root settings scratchName (dir ++ [scriptTarget name]) ∧ Followable job.output := by
  rw [deployOutput_eq] at hrun
  cases embedded with
  | false => exact output_of_placeOutput staging haccepted hroot wf hspares haux hjob h hsource hrun
  | true =>
      obtain ⟨⟨⟩, embedded, hembed, hplace⟩ := bind_eq_ok.1 hrun
      obtain ⟨body, read, hread, hwrite⟩ := bind_eq_ok.1 hembed
      obtain ⟨hread, -⟩ := readText_maintains.ok h (onOutput_inv hread).1
      obtain ⟨hwritten, -⟩ := (writeOutput_tidy staging haccepted hroot wf hspares haux hjob _).ok hread
        (JobAction.lift_inv hwrite).1
      exact output_of_placeOutput staging haccepted hroot wf hspares haux hjob hwritten hsource hplace

end Jobs

end AuxScript

end ModPackager
