import ModPackager.Proofs.Deploy.Twins
import ModPackager.Proofs.FileSystem.Shorter

/-!
# Deploying once more

What was laid out below a root can be laid out again. Every entry of the root is on a path that could be followed
when it was made (`Named`), so clearing the root succeeds and leaves its site empty, and so does making the
skeleton there (`clearDirectory_again`, `createSkeleton_again`). Two sites with the same layer are twins
(`Site.Laid.twins`), so what comes next goes the same way as before.
-/

namespace ModPackager

namespace Deploy

open FileSystem FileAction

variable {fs now now' : FileSystem} {root path source target : Path} {name : String} {names : List String}
  {extra : Location → Prop} {site : Site fs root} {layer upper lower : Layer} {contents : ByteArray}

open Layer

/-! ### Entries whose paths can be followed -/

/-- The path of each entry directly below a root can be followed. -/
def Named (root : Path) (layer : Layer) : Prop := ∀ name, layer [name] ≠ none → Followable (root.child name)

theorem Named.over (hupper : Named root upper) (hlower : Named root lower) : Named root (upper.over lower) := by
  intro name hentry
  rw [Layer.over_apply] at hentry
  by_cases hnone : upper [name] = none
  · rw [hnone, Option.none_or] at hentry
    exact hlower name hentry
  · exact hupper name hnone

theorem named_empty : Named root Layer.empty := fun _ hentry => absurd rfl hentry

theorem mem_of_climb_eq {here place : Location} (h : climb here names = place) {other : String}
    (hother : other ∈ place) : other ∈ here ∨ other ∈ names := by
  induction names generalizing here with
  | nil =>
      subst h
      exact .inl hother
  | cons first rest ih =>
      rcases ih h with hstep | hrest
      · unfold climbStep at hstep
        split at hstep
        · exact .inl hstep
        · split at hstep
          · exact .inl (List.mem_of_mem_dropLast hstep)
          · rcases List.mem_append.1 hstep with hhere | hname
            · exact .inl hhere
            · exact .inr (List.mem_singleton.1 hname ▸ List.mem_cons_self)
      · exact .inr (List.mem_cons_of_mem _ hrest)

/-- An entry directly below a root that names spell on their way is called like one of them. -/
theorem mem_of_mem_onWay (h : [name] ∈ Layer.onWay names) : name ∈ names := by
  obtain ⟨front, hfront, hclimb⟩ := Layer.mem_onWay.1 h
  rcases mem_of_climb_eq hclimb List.mem_cons_self with hnil | hmem
  · cases hnil
  · exact hfront.subset hmem

theorem mem_onWay_of_ofFile {place : Location} (h : Layer.ofFile names contents place ≠ none) : place ∈ Layer.onWay names :=
  Classical.byContradiction fun hoff => h (Layer.ofFile_of_not_mem hoff)

/-- What comes with a file in a directory directly below a root is the directory. -/
theorem eq_of_mem_onWay {dir file : String} (hdir : Ordinary dir) (h : [name] ∈ Layer.onWay [dir, file]) : name = dir := by
  obtain ⟨front, hfront, hclimb⟩ := Layer.mem_onWay.1 h
  rcases List.prefix_cons_iff.1 hfront with rfl | ⟨more, rfl, hmore⟩
  · cases hclimb
  · rw [climb_cons, climbStep_of_ordinary hdir, List.nil_append] at hclimb
    rcases List.prefix_cons_iff.1 hmore with rfl | ⟨rest, rfl, hrest⟩
    · exact (List.singleton_inj.1 hclimb).symm
    · rw [List.prefix_nil.1 hrest, climb_cons, climb_nil, climbStep] at hclimb
      split at hclimb
      · exact (List.singleton_inj.1 hclimb).symm
      · split at hclimb
        · cases hclimb
        · cases hclimb

theorem named_ofFile {dir file : String} (hdir : ValidName dir) (h : Followable (root.child dir)) :
    Named root (Layer.ofFile [dir, file] contents) := by
  intro name hentry
  rwa [eq_of_mem_onWay hdir.ordinary (mem_onWay_of_ofFile hentry)]

theorem named_ofDirectories {dir : String} (h : Followable (root.child dir)) :
    Named root (Layer.ofDirectories [dir]) := by
  intro name hentry
  have hway : [name] ∈ Layer.onWay [dir] := Classical.byContradiction fun hoff => hentry (if_neg hoff)
  rwa [List.mem_singleton.1 (mem_of_mem_onWay hway)]

theorem followable_of_holdsDirectory (h : now.holdsDirectory path = true) : Followable path := by
  obtain ⟨_, hresolve⟩ := holdsDirectory_iff.1 h
  exact (resolve_eq_ok_iff.1 hresolve).1

theorem followable_of_writeBytes (h : writeBytes path contents now = .ok () now') : Followable path := by
  obtain ⟨location, hwrites, -⟩ := writeBytes_inv h
  obtain ⟨target, hresolve, -⟩ := hwrites.place
  exact (resolve_eq_ok_iff.1 hresolve).1

theorem followable_of_writeFile {text : String} (h : ∀ reason, (writeFile path text now).1 ≠ .failed reason) :
    Followable path := by
  obtain ⟨⟨⟩, between, -, hwrite⟩ := bind_eq_ok.1 (toStep_inv h)
  exact followable_of_writeBytes hwrite

theorem followable_of_createSkeleton (h : ∀ reason, (createSkeleton root now).1 ≠ .failed reason)
    : Followable (root.child lovelyDir) ∧ Followable (root.child sourceDir) := by
  obtain ⟨⟨⟩, between, hlovely, hrest⟩ := bind_eq_ok.1 (toStep_inv h)
  obtain ⟨⟨⟩, _, hsource, -⟩ := bind_eq_ok.1 hrest
  have hpath : ∀ {name}, ValidName name → (root.child name).text ≠ "" := fun hname =>
    Path.text_child_ne hname.1 hname.2.2.2.1
  exact ⟨followable_of_holdsDirectory (createDirectories_holds (hpath validName_lovelyDir) hlovely),
    followable_of_holdsDirectory (createDirectories_holds (hpath validName_sourceDir) hsource)⟩

/-- An entry that was copied has a path that can be followed. -/
theorem followable_of_copyEntry {fuel count count' : Nat} {ancestors : List Ancestor} (hname : ValidName name)
    (h : copyEntry fuel ancestors source target count name now = .ok count' now') : Followable (target.child name) := by
  obtain ⟨location, entry, -, ⟨-, between, _, _, hmade, -⟩ | ⟨-, between, -, hcopy⟩⟩ := copyEntry_inv h
  · exact followable_of_holdsDirectory (createDirectories_holds (Path.text_child_ne hname.1 hname.2.2.2.1) hmade)
  · obtain ⟨_, _, _, _, -, hempty, -⟩ := copyFile_inv hcopy
    exact followable_of_writeBytes hempty

/-- What is copied to a root can be found there. -/
theorem named_of_copyTree (wf : fs.WellFormed) (h : site.Prepared extra now)
    (hapart : Apart fs source fun place => site.Affects place ∨ extra place)
    (hsucceeds : ∀ reason, (copyTree source root now).1.outcome ≠ .failed reason) :
    Named root (Layer.ofTree fs source) := by
  intro name hentry
  unfold copyTree at hsucceeds
  split at hsucceeds
  · rcases hrun : copyEntries source root now with ⟨files, later⟩ | ⟨e, later⟩
    · obtain ⟨⟨location, entry⟩, s, hfound, hcopy⟩ := bind_eq_ok.1 hrun
      obtain ⟨rfl, -⟩ := entryOf_inv hfound
      change copyBelow depthLimit [⟨source, location⟩] source root s = _ at hcopy
      obtain ⟨fuel, hdepth⟩ : ∃ fuel, depthLimit = fuel + 1 := ⟨4095, rfl⟩
      rw [hdepth, copyBelow_succ] at hcopy
      obtain ⟨names, s', hread, hfold⟩ := bind_eq_ok.1 hcopy
      obtain ⟨rfl, dir, hdir, rfl⟩ := readNames_inv (lift_eq_ok.1 hread)
      rw [← under_names (keepsTree_of_apart hapart) h hdir (by simp), Layer.under_apply] at hentry
      have hmem : name ∈ s'.names dir := by
        by_contra hmem
        exact hentry (if_neg hmem)
      obtain ⟨found, hthere⟩ := Option.isSome_iff_exists.1 (mem_names.1 hmem)
      obtain ⟨_, _, _, _, hcopied⟩ := exists_of_foldlM hfold hmem
      exact followable_of_copyEntry ((h.changes.wellFormed wf).validName hthere) hcopied
    · simp [hrun] at hsucceeds
  · simp at hsucceeds

/-! ### Clearing a root again -/

theorem removeEntry_succeeds {location : Location} {entry : Entry}
    (h : now.resolve false path = .ok (.found location entry)) :
    removeEntry now path now = .ok () (now.erase location) := by
  unfold removeEntry
  rw [h]
  cases entry with
  | file contents => simp [removeFile_eq, h]
  | directory => simp [removeTree_eq, h]
  | link text => simp [removeFile_eq, h]

/-- Entries whose paths can be followed are removed one by one, as long as the path of the root leads to the same
directory. -/
theorem removeEntries_succeeds {dir : Location} (hroot : fs.resolve true root = .ok (.found dir .directory))
    (houtside : ∀ place ∈ fs.way root, ¬ Beneath dir place) (hnow : Pruned dir fs now) (hdistinct : names.Nodup)
    (hnames : ∀ name ∈ names, ValidName name ∧ Followable (root.child name)
      ∧ ∃ entry, now.entry? (dir ++ [name]) = some entry ∧ ∀ text, entry ≠ .link text) :
    ∃ later, (names.forM fun name => do removeEntry (← get) (root.child name) : FileAction Unit) now = .ok () later := by
  induction names generalizing now with
  | nil => exact ⟨now, rfl⟩
  | cons name rest ih =>
      obtain ⟨hname, hfollow, entry, hentry, hlink⟩ := hnames name List.mem_cons_self
      obtain ⟨hother, hrest⟩ := List.nodup_cons.1 hdistinct
      have hthere : now.resolve true root = .ok (.found dir .directory) :=
        (hnow.changes.resolve houtside).trans hroot
      have hremove := removeEntry_succeeds
        (resolve_entry hname.1 hname.2.2.2.1 hname.ordinary hfollow hthere hentry hlink)
      obtain ⟨later, hlater⟩ := ih (hnow.erase) hrest fun other hmem => by
        obtain ⟨hvalid, hfollow, entry, hentry, hlink⟩ := hnames other (List.mem_cons_of_mem _ hmem)
        refine ⟨hvalid, hfollow, entry, ?_, hlink⟩
        rw [entry?_erase, if_neg, hentry]
        rintro ⟨-, hbelow⟩
        obtain rfl : name = other := by
          simpa using (List.prefix_append_right_inj dir).1 hbelow
        exact hother hmem
      exact ⟨later, bind_eq_ok.2 ⟨⟨⟩, _, bind_eq_ok.2 ⟨now, now, rfl, hremove⟩, hlater⟩⟩

/-- The way to a root does not run below its site. -/
theorem Site.Prepared.not_beneath_of_way {place : Location} (h : site.Prepared extra now) (hspares : site.Spares extra)
    (htext : root.text ≠ "") (hplace : place ∈ now.way root) : ¬ Beneath site.dir place := by
  rcases h.mem_way hspares (extends_refl htext) rfl hplace with hknown | ⟨front, hfront, rfl⟩
  · exact fun hbeneath => hspares.way _ hknown (.inl hbeneath)
  · rw [List.append_nil] at hfront
    exact fun hbeneath => hbeneath.2 (hbeneath.1.eq_of_length_le (site.climb_prefix_dir hfront).length_le).symm

theorem createDirectories_vacant {location : Location} (h : now.resolve false path = .ok (.vacant location)) :
    createDirectories path now = .ok () (now.put location .directory) := by
  have hpath := (resolve_eq_ok_iff.1 h).1.2.1
  have hensure : ensureDirectory path now = .ok () (now.put location .directory) := by
    rw [ensureDirectory_eq, h]
  unfold createDirectories createParents
  rw [if_neg (by simpa using hpath)]
  refine bind_eq_ok.2 ⟨none, now.put location .directory, ?_, rfl⟩
  simp only [faultOf, hensure]

section Again

variable (hspares : site.Spares extra) (wf : fs.WellFormed) (hroot : Followable root)
  (hdir : now.entry? site.dir = some .directory)

include hspares wf hroot hdir

theorem Site.Prepared.resolve_root (h : site.Prepared extra now) :
    now.resolve true root = .ok (.found site.dir .directory) := by
  obtain ⟨entry, hresolve⟩ := canonical?_eq_some_iff.1 (h.canonical?_root hspares hroot wf hdir)
  rw [entry?_of_found hresolve] at hdir
  rw [hresolve, Option.some.inj hdir]

/-- What was laid below a root is cleared away, if the paths of its entries can be followed. -/
theorem clearDirectory_again (h : site.Laid extra layer now) (hnamed : Named root layer) :
    (clearDirectory root now).1 = .success ∧ site.Laid extra Layer.empty (clearDirectory root now).2
      ∧ FileSystem.entry? (clearDirectory root now).2 site.dir = some .directory
      ∧ Changes (Beneath site.dir) now (clearDirectory root now).2 := by
  have wfNow := h.prepared.changes.wellFormed wf
  have hresolve := h.prepared.resolve_root hspares wf hroot hdir
  have hholds : now.holds root = true := by simp [holds, lookup?_eq_some_iff.2 hresolve]
  obtain ⟨later, hremoved⟩ := removeEntries_succeeds hresolve
    (fun place hplace => h.prepared.not_beneath_of_way hspares hroot.2.1 hplace) (.refl wfNow) (wfNow.nodup_names site.dir)
    fun name hmem => by
      obtain ⟨entry, hentry⟩ := Option.isSome_iff_exists.1 (mem_names.1 hmem)
      refine ⟨wfNow.validName hentry, hnamed name ?_, entry, hentry, ?_⟩
      · rw [← h.lays [name] (by simp), hentry]
        exact Option.some_ne_none _
      · rintro text rfl
        exact h.prepared.unlinked _ (List.prefix_append _ _) text hentry
  have hrun : clearEntries root now = .ok () later := (clearEntries_eq hresolve).trans hremoved
  obtain ⟨hpruned, -⟩ := (clearEntries_pruned hresolve).ok (.refl wfNow) hrun
  have hcleared : clearDirectory root now = (.success, later) := by
    simp only [clearDirectory, hholds, if_true, toStep, lift, hrun]
  rw [hcleared]
  refine ⟨rfl, ⟨h.prepared.trans (hpruned.changes.weaken fun hbeneath => .inl (.inl hbeneath)), fun rel hrel => ?_⟩, ?_⟩
  · obtain ⟨name, rest, rfl⟩ := List.exists_cons_of_ne_nil hrel
    have hfirst : site.dir ++ [name] <+: site.dir ++ name :: rest := ⟨rest, by simp⟩
    exact hpruned.wellFormed.entry?_eq_none_of_prefix hfirst (clearEntries_empties wfNow hresolve hrun name)
  · exact ⟨(hpruned.changes.entries _ fun hbeneath => hbeneath.2 rfl).trans hdir, hpruned.changes⟩

/-! ### Making the skeleton again -/

/-- A directory is made directly below a root that is there. -/
theorem Site.Prepared.createDirectories_child (h : site.Prepared extra now) (hname : ValidName name)
    (hfollow : Followable (root.child name)) (hnone : now.entry? (site.dir ++ [name]) = none) :
    createDirectories (root.child name) now = .ok () (now.put (site.dir ++ [name]) .directory) :=
  createDirectories_vacant <|
    resolve_vacant hname.1 hname.2.2.2.1 hname.ordinary hfollow (h.resolve_root hspares wf hroot hdir) hnone

/-- The skeleton is made in a root that was cleared. -/
theorem createSkeleton_again (h : site.Laid extra Layer.empty now) (hlovely : Followable (root.child lovelyDir))
    (hsource : Followable (root.child sourceDir)) : (createSkeleton root now).1 = .success := by
  have hpath := (extends_refl hroot.2.1).validChild validName_lovelyDir
  have hmade := h.prepared.createDirectories_child hspares wf hroot hdir validName_lovelyDir hlovely
    (h.lays [lovelyDir] (by simp))
  have hlaid := createDirectories_laid hpath (by decide) (hspares.supports wf) h hmade
  have hdir' : FileSystem.entry? (now.put (site.dir ++ [lovelyDir]) .directory) site.dir = some .directory := by
    rw [entry?_put_of_ne (by simp) (by simp), hdir]
  have hnone : ((Layer.ofDirectories [lovelyDir]).over Layer.empty) [sourceDir] = none := by decide
  have hmade' := hlaid.prepared.createDirectories_child hspares wf hroot hdir' validName_sourceDir hsource
    ((hlaid.lays [sourceDir] (by simp)).trans hnone)
  have hrun : ([lovelyDir, sourceDir].forM fun name => createDirectories (root.child name) : FileAction Unit) now
      = .ok () _ := bind_eq_ok.2 ⟨⟨⟩, _, hmade, bind_eq_ok.2 ⟨⟨⟩, _, hmade', rfl⟩⟩
  simp only [createSkeleton, toStep, lift, hrun]

end Again

/-! ### Sites that are laid out alike -/

/-- Two sites with the same layer, if that is not empty, hold the same but at places that have nothing to do with
them. -/
theorem Site.Laid.twins {s t : FileSystem} (wf : fs.WellFormed) (h : site.Laid extra layer s)
    (h' : site.Laid extra layer t) (hthere : layer [name] ≠ none) : site.Twins extra extra s t := by
  have hdirectory : ∀ {now}, site.Laid extra layer now → now.entry? site.dir = some .directory := by
    intro now hnow
    obtain ⟨entry, hentry⟩ := Option.ne_none_iff_exists'.1 hthere
    exact (hnow.prepared.changes.wellFormed wf).isDirectory_of_child ((hnow.lays [name] (by simp)).trans hentry)
  refine ⟨h.prepared, h'.prepared, h'.prepared.changes.workingDir.trans h.prepared.changes.workingDir.symm, ?_⟩
  intro place hplace
  by_cases hbelow : site.dir <+: place
  · obtain ⟨rel, rfl⟩ := hbelow
    by_cases hrel : rel = []
    · rw [hrel, List.append_nil, hdirectory h, hdirectory h']
    · rw [h.lays rel hrel, h'.lays rel hrel]
  · by_cases habove : place <+: site.dir
    · -- The way down to a site that is there consists of directories.
      have hway : ∀ {now}, site.Laid extra layer now → now.entry? place = some .directory := by
        intro now hnow
        obtain ⟨more, hmore⟩ := habove
        by_cases hnil : more = []
        · rw [hnil, List.append_nil] at hmore
          exact hmore ▸ hdirectory hnow
        · exact (hnow.prepared.changes.wellFormed wf).isDirectory_of_append hnil (hmore ▸ hdirectory hnow)
      rw [hway h, hway h']
    · have hkept : ¬ (site.Affects place ∨ extra place) := by
        rintro ((hbeneath | ⟨hway, -⟩) | hextra)
        · exact hbelow hbeneath.1
        · exact habove hway
        · exact hplace hextra
      rw [h.prepared.changes.entries _ hkept, h'.prepared.changes.entries _ hkept]

end Deploy

end ModPackager
