import ModPackager.AuxScript.Run
import ModPackager.Proofs.Deploy.Root
import ModPackager.Proofs.Text.Lines
import ModPackager.Proofs.World

/-!
# Compiling scripts beside a deploy root

The compiler leaves its outputs in the auxiliary directory, from where they are deployed and removed. A
`Staging` says that this happens out of the way of the deploy root: neither the way to the auxiliary
directory nor that to the root runs through what changes, and the outputs are no links.

Then the path of an output leads to one place all the time (`Staging.place_output`), and that place may
change, unless a directory is there (`Staging.allowed_output`). So whatever invariant confines the
deployment steps is kept where an output is written or removed (`Staging.compilable`).
-/

namespace ModPackager

open FileSystem FileAction Deploy

variable {fs now : FileSystem} {root : Path} {settings : Settings} {scratchName : String → Prop}
  {dir place location : Location} {name : String} {job : Job} {inv : FileSystem → Prop}

/-! ### Names of scripts -/

theorem prefix_scriptStem (fileName : String) : (scriptStem fileName).toList <+: fileName.toList := by
  unfold scriptStem
  rcases hstem : Text.dropEnding? fileName ".ts" with _ | stem
  · exact List.prefix_refl _
  · rw [Text.dropEnding?_eq_some_iff.1 hstem, String.toList_append]
    exact List.prefix_append _ _

theorem eq_scriptStem_append {fileName : String} (h : isScriptName fileName = true) :
    fileName = scriptStem fileName ++ ".ts" := by
  simp only [isScriptName, Bool.and_eq_true, Option.isSome_iff_exists] at h
  obtain ⟨⟨-, stem, hstem⟩, -⟩ := h
  rw [scriptStem, hstem, Option.getD_some]
  exact Text.dropEnding?_eq_some_iff.1 hstem

/-- Scripts of different names are compiled into files of different names. -/
theorem scriptTarget_inj {fileName other : String} (hname : isScriptName fileName = true)
    (hother : isScriptName other = true) (h : scriptTarget fileName = scriptTarget other) : fileName = other := by
  rw [scriptTarget, scriptTarget, String.append_left_inj] at h
  rw [eq_scriptStem_append hname, eq_scriptStem_append hother, h]

/-- The name of a compiled script is that of an entry, except that it may be too long. -/
theorem scriptTarget_plain (h : ValidName name) :
    scriptTarget name ≠ "" ∧ scriptTarget name ≠ "." ∧ scriptTarget name ≠ ".."
      ∧ '/' ∉ (scriptTarget name).toList := by
  have hlist : (scriptTarget name).toList = (scriptStem name).toList ++ ['.', 'l', 'u', 'a'] := by
    simp [scriptTarget]
  have hlength : ∀ text : String, text.toList.length < 4 → scriptTarget name ≠ text := by
    rintro text htext rfl
    rw [hlist, List.length_append, List.length_cons] at htext
    simp only [List.length_cons, List.length_nil] at htext
    omega
  refine ⟨hlength _ (by decide), hlength _ (by decide), hlength _ (by decide), ?_⟩
  rw [hlist, List.mem_append]
  rintro (hstem | hending)
  · exact h.2.2.2.1 ((prefix_scriptStem name).subset hstem)
  · simp at hending

/-- A compiled script is no script. -/
theorem isScriptName_scriptTarget (name : String) : isScriptName (scriptTarget name) = false := by
  rw [Bool.eq_false_iff]
  intro hscript
  have hlast := congrArg (fun text : String => text.toList.getLast?) (eq_scriptStem_append hscript)
  simp [scriptTarget] at hlast

theorem AuxScript.validName_manifestName : ValidName AuxScript.manifestName := by decide

/-- The manifest of scripts is not named like a script. -/
theorem scriptTarget_ne_manifestName (name : String) : scriptTarget name ≠ AuxScript.manifestName := by
  intro heq
  have hlast := congrArg (fun text : String => text.toList.getLast?) heq
  simp [scriptTarget, AuxScript.manifestName] at hlast

/-! ### The scratch places -/

/-- The entries of the auxiliary directory that compiling may change: those with certain names, unless
they have to do with the place of the root. -/
def Scratch (fs : FileSystem) (root : Path) (settings : Settings) (scratchName : String → Prop)
    (place : Location) : Prop :=
  (∃ dir name, fs.canonical? settings.auxDir = some dir ∧ scratchName name ∧ place = dir ++ [name])
    ∧ ∀ site : Site fs root, ¬ place <+: site.dir ∧ ¬ site.dir <+: place

/-- What may change during a run. -/
def Changeable (fs : FileSystem) (root : Path) (settings : Settings) (scratchName : String → Prop)
    (place : Location) : Prop :=
  Affected fs root place ∨ Scratch fs root settings scratchName place

theorem Changeable.mono {wider : String → Prop} (h : Changeable fs root settings scratchName place)
    (hwider : ∀ {name}, scratchName name → wider name) : Changeable fs root settings wider place := by
  rcases h with haffected | ⟨⟨dir, name, hdir, hname, hplace⟩, haside⟩
  · exact .inl haffected
  · exact .inr ⟨⟨dir, name, hdir, hwider hname, hplace⟩, haside⟩

/-- Compiling happens out of the way of the root. -/
structure Staging (fs : FileSystem) (root : Path) (settings : Settings) (scratchName : String → Prop) :
    Prop where
  /-- Compiled scripts are scratch. -/
  outputs : ∀ name, isScriptName name = true → scratchName (scriptTarget name)
  /-- None of them is a link. -/
  unlinked : ∀ dir name, fs.canonical? settings.auxDir = some dir → isScriptName name = true →
    ∀ text, fs.entry? (dir ++ [scriptTarget name]) ≠ some (.link text)
  /-- The way to the auxiliary directory leads past nothing that changes, or there never is such a
  directory. -/
  auxWay : (∀ place ∈ fs.way settings.auxDir, ¬ Changeable fs root settings scratchName place)
    ∨ ∀ now, Changes (Changeable fs root settings scratchName) fs now →
      now.holdsDirectory settings.auxDir = false
  /-- The way to the root leads past no scratch. -/
  rootWay : ∀ place ∈ fs.way root, ¬ Scratch fs root settings scratchName place

theorem Staging.aside (h : Staging fs root settings scratchName) :
    Aside fs root (Scratch fs root settings scratchName) where
  way := h.rootWay
  above := fun site _ hscratch => (hscratch.2 site).1
  below := fun site _ hscratch => (hscratch.2 site).2

/-- An accepted root does not contain any directory that must be kept. -/
theorem Deploy.Site.not_contains (site : Site fs root) (haccepted : settings.deployRoot fs = .ok root)
    (hroot : Followable root) (wf : fs.WellFormed) {path : Path} (hkept : path ∈ settings.keptPaths)
    (hdir : fs.canonical? path = some dir) : ¬ site.dir <+: dir := by
  by_cases hmissing : site.missing = []
  · have hlocation : fs.canonical? root = some site.dir :=
      canonical?_eq_some_iff.2 ⟨_, site.resolve_root hroot hmissing⟩
    exact Settings.not_contains_canonical haccepted hkept hlocation hdir
  · intro hbelow
    obtain ⟨entry, hresolve⟩ := canonical?_eq_some_iff.1 hdir
    have hnone := wf.entry?_eq_none_of_prefix hbelow (Site.entry?_dir wf hmissing)
    simp [entry?_of_found hresolve] at hnone

theorem Deploy.Site.not_contains_aux (site : Site fs root) (haccepted : settings.deployRoot fs = .ok root)
    (hroot : Followable root) (wf : fs.WellFormed) (hdir : fs.canonical? settings.auxDir = some dir) :
    ¬ site.dir <+: dir :=
  site.not_contains haccepted hroot wf (Settings.mem_keptPaths.2 (.inr (.inr rfl))) hdir

/-- A script to be compiled in the auxiliary directory. -/
structure IsJob (settings : Settings) (root : Path) (job : Job) (name : String) : Prop where
  valid : ValidName name
  script : isScriptName name = true
  eq : job = Job.ofName settings.auxDir (root.child scriptDir) name

theorem IsJob.source_eq (h : IsJob settings root job name) : job.source = settings.auxDir.child name := by
  rw [h.eq, Job.ofName]

theorem IsJob.output_eq (h : IsJob settings root job name) :
    job.output = settings.auxDir.child (scriptTarget name) := by
  rw [h.eq, Job.ofName]

theorem IsJob.deployPath_eq (h : IsJob settings root job name) :
    job.deployPath = (root.child scriptDir).child (scriptTarget name) := by
  rw [h.eq, Job.ofName]

theorem IsJob.targetName_eq (h : IsJob settings root job name) : job.targetName = scriptTarget name := by
  rw [h.eq, Job.targetName, Job.ofName]

/-- The scripts that are discovered are jobs, in a directory that is there. -/
theorem isJob_of_discoverJobs (wf : now.WellFormed) {jobs : List Job}
    (h : discoverJobs now settings.auxDir root = .ok jobs) (hjob : job ∈ jobs) :
    now.holdsDirectory settings.auxDir = true
      ∧ ∃ name dir, now.canonical? settings.auxDir = some dir ∧ IsJob settings root job name := by
  unfold discoverJobs at h
  split at h
  next haux =>
      refine ⟨haux, ?_⟩
      obtain ⟨dir, hresolve⟩ := holdsDirectory_iff.1 haux
      simp only [readNames_eq, lookup_eq_ok_iff.2 hresolve, Except.ok.injEq] at h
      subst h
      obtain ⟨name, hname, rfl⟩ := List.mem_map.1 hjob
      obtain ⟨hmem, hscript⟩ := List.mem_filter.1 (List.mem_mergeSort.1 hname)
      obtain ⟨found, hfound⟩ := Option.isSome_iff_exists.1 (mem_names.1 hmem)
      rw [Bool.and_eq_true] at hscript
      refine ⟨name, dir, canonical?_eq_some_iff.2 ⟨_, hresolve⟩, ?_⟩
      exact ⟨wf.validName hfound, hscript.1, rfl⟩
  · cases h
    cases hjob

/-! ### Invariants of compiling -/

/-- An invariant of compiling: others may change scratch places, and outputs are written and removed. -/
structure Compilable (fs : FileSystem) (root : Path) (settings : Settings) (scratchName : String → Prop)
    (inv : FileSystem → Prop) : Prop where
  reachable : ∀ {now}, inv now → Changes (Changeable fs root settings scratchName) fs now
  closed : ∀ {now later}, inv now → Changes (Scratch fs root settings scratchName) now later → inv later
  write : ∀ {now name dir location contents}, inv now → fs.canonical? settings.auxDir = some dir →
    ValidName name → isScriptName name = true →
    WritesAt now (settings.auxDir.child (scriptTarget name)) location → inv (now.put location (.file contents))
  erase : ∀ {now name dir location entry}, inv now → fs.canonical? settings.auxDir = some dir →
    ValidName name → isScriptName name = true →
    now.resolve false (settings.auxDir.child (scriptTarget name)) = .ok (.found location entry) →
    entry ≠ .directory → inv (now.erase location)

namespace Staging

variable (staging : Staging fs root settings scratchName)
  (h : Changes (Changeable fs root settings scratchName) fs now)

include staging h

/-- The auxiliary directory is where it was. -/
theorem resolve_aux (haux : now.holdsDirectory settings.auxDir = true) {follow : Bool} :
    now.resolve follow settings.auxDir = fs.resolve follow settings.auxDir := by
  rcases staging.auxWay with hway | hnever
  · exact h.resolve hway
  · simp [hnever now h] at haux

theorem canonical?_aux (haux : now.holdsDirectory settings.auxDir = true) :
    now.canonical? settings.auxDir = fs.canonical? settings.auxDir := by
  ext dir
  rw [canonical?_eq_some_iff, canonical?_eq_some_iff, staging.resolve_aux h haux]

/-- The output of a script lies in the auxiliary directory. -/
theorem place_output (hdir : fs.canonical? settings.auxDir = some dir) (hname : ValidName name)
    (hscript : isScriptName name = true) {follow : Bool} {target : Target}
    (hresolve : now.resolve follow (settings.auxDir.child (scriptTarget name)) = .ok target) :
    target.place = dir ++ [scriptTarget name] := by
  obtain ⟨hempty, hdot, hup, hslash⟩ := scriptTarget_plain hname
  obtain ⟨entry, haux⟩ := canonical?_eq_some_iff.1 hdir
  obtain ⟨hfollowable, -⟩ := resolve_eq_ok_iff.1 haux
  obtain ⟨other, hother⟩ := leadsTo_of_resolve_child hempty hslash hfollowable.2.1 hresolve
  -- The path of the directory is still followed to the place where the directory was at first.
  obtain rfl : other = dir := by
    have hnow : now.resolve true settings.auxDir = .ok (.found other .directory) :=
      resolve_eq_ok_iff.2 ⟨hfollowable, hother.of_slash⟩
    rw [staging.resolve_aux h (holdsDirectory_iff.2 ⟨other, hnow⟩), haux] at hnow
    cases hnow
    rfl
  exact place_entry hempty hslash hdot hup hfollowable.2.1 hother
    (fun _ text hlink => staging.unlinked other name hdir hscript text (h.links _ _ hlink)) hresolve

/-- The output of a script does not lie below the place of the root, and may change unless a directory is
there. -/
theorem allowed_output (haccepted : settings.deployRoot fs = .ok root) (hroot : Followable root)
    (wf : fs.WellFormed) (hdir : fs.canonical? settings.auxDir = some dir) (hname : ValidName name)
    (hscript : isScriptName name = true) {follow : Bool} {target : Target}
    (hresolve : now.resolve follow (settings.auxDir.child (scriptTarget name)) = .ok target)
    (hentry : now.entry? target.place ≠ some .directory) :
    Changeable fs root settings scratchName target.place
      ∧ ∀ site : Site fs root, ¬ Beneath site.dir target.place := by
  rw [staging.place_output h hdir hname hscript hresolve] at hentry ⊢
  have hbeside : ∀ site : Site fs root, site.dir <+: dir ++ [scriptTarget name] →
      site.dir = dir ++ [scriptTarget name] := fun site hbelow =>
    (List.prefix_concat_iff.1 hbelow).resolve_right (site.not_contains_aux haccepted hroot wf hdir)
  refine ⟨?_, fun site hbeneath => hbeneath.2 (hbeside site hbeneath.1).symm⟩
  by_cases habove : ∃ site : Site fs root, dir ++ [scriptTarget name] <+: site.dir
  · obtain ⟨site, habove⟩ := habove
    by_contra hunchanged
    -- Something on the way down to the root is a directory, if it is there and has not changed.
    obtain ⟨found, hfound⟩ : ∃ found, fs.entry? (dir ++ [scriptTarget name]) = some found := by
      rw [← Option.ne_none_iff_exists']
      exact fun hnone => hunchanged (.inl ⟨site, .inr ⟨habove, hnone⟩⟩)
    obtain rfl := site.isDirectory_of_prefix_dir wf habove hfound
    exact hentry (h.entries _ hunchanged ▸ hfound)
  · refine .inr ⟨⟨dir, _, hdir, staging.outputs name hscript, rfl⟩, fun site => ?_⟩
    have hnotAbove : ¬ dir ++ [scriptTarget name] <+: site.dir := fun h => habove ⟨site, h⟩
    exact ⟨hnotAbove, fun hbelow => hnotAbove (hbeside site hbelow ▸ List.prefix_refl _)⟩

omit h

/-- Whatever confines the deployment steps is kept by compiling. -/
theorem compilable (haccepted : settings.deployRoot fs = .ok root) (hroot : Followable root)
    (wf : fs.WellFormed) (confines : Confines fs root (Scratch fs root settings scratchName) inv) :
    Compilable fs root settings scratchName inv where
  reachable := confines.changes
  closed := confines.closed
  write := by
    intro now name dir location contents hnow hdir hname hscript hwrites
    have hwritable := hwrites.writable (confines.wellFormed hnow)
    obtain ⟨target, hresolve, rfl⟩ := hwrites.place
    have hallowed := staging.allowed_output (confines.changes hnow) haccepted hroot wf hdir hname hscript hresolve
      hwritable.not_directory
    exact confines.put hnow hwritable hallowed.1 nofun
  erase := by
    intro now name dir location entry hnow hdir hname hscript hresolve hleaf
    have hentry := entry?_of_found hresolve
    have hallowed := staging.allowed_output (confines.changes hnow) haccepted hroot wf hdir hname hscript hresolve
      (by simpa [Target.place, hentry] using hleaf)
    exact confines.erase hnow hallowed.1 hentry hleaf

/-- So is what a prepared site and the entries below it tell. -/
theorem compilable_beneath {site : Site fs root} (haccepted : settings.deployRoot fs = .ok root)
    (hroot : Followable root) (wf : fs.WellFormed) (hspares : site.Spares (Scratch fs root settings scratchName))
    (hprepared : ∀ {now}, inv now → site.Prepared (Scratch fs root settings scratchName) now)
    (hbeneath : ∀ {now later}, inv now → site.Prepared (Scratch fs root settings scratchName) later →
      (∀ place, Beneath site.dir place → later.entry? place = now.entry? place) → inv later) :
    Compilable fs root settings scratchName inv := by
  have base := staging.compilable haccepted hroot wf (site.confines hspares wf hroot.2.1)
  refine ⟨fun h => base.reachable (hprepared h), fun h hchanges => ?_, ?_, ?_⟩
  · exact hbeneath h (base.closed (hprepared h) hchanges) fun place hplace =>
      hchanges.entries place fun hscratch => (hscratch.2 site).2 hplace.1
  · intro now name dir location contents h hdir hname hscript hwrites
    have hwritable := hwrites.writable ((hprepared h).changes.wellFormed wf)
    obtain ⟨target, hresolve, rfl⟩ := id hwrites.place
    have hallowed := staging.allowed_output (base.reachable (hprepared h)) haccepted hroot wf hdir hname hscript
      hresolve hwritable.not_directory
    refine hbeneath h (base.write (hprepared h) hdir hname hscript hwrites) fun place hplace => ?_
    exact entry?_put_of_ne hwritable.ne_nil fun heq => hallowed.2 site (heq ▸ hplace)
  · intro now name dir location entry h hdir hname hscript hresolve hleaf
    have hentry := entry?_of_found hresolve
    have hallowed := staging.allowed_output (base.reachable (hprepared h)) haccepted hroot wf hdir hname hscript
      hresolve (by simpa [Target.place, hentry] using hleaf)
    have hchanges : Changes (fun place => place = location) now (now.erase location) :=
      (Changes.refl now).erase_leaf ((hprepared h).changes.wellFormed wf) rfl hentry hleaf
    refine hbeneath h (base.erase (hprepared h) hdir hname hscript hresolve hleaf) fun place hplace => ?_
    exact hchanges.entries place fun heq => hallowed.2 site (heq ▸ hplace)

end Staging

end ModPackager
