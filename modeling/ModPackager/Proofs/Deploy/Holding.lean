import ModPackager.Proofs.Deploy.Layers

/-!
# What stays below a site

Where only some of what lies below a site is known, an entry that was put there stays as long as no file is
written in its place: directories are only made where nothing is, and files are never written in place of
directories. So the deployment steps keep what a site holds, except for files whose names spell one of its
files (`Holds.deployable`).

A file that is held with the directories on the way to it is still found on its path (`Holds.readBytes`).
-/

namespace ModPackager.Deploy

open FileSystem FileAction

variable {fs now later : FileSystem} {root path : Path} {place location : Location} {rel names : List String}
  {extra : Location → Prop} {kept : List String → Entry → Prop} {entry : Entry} {contents : ByteArray}

/-- A prepared site with some entries below it, told by the names that lead there. -/
structure Site.Holds (site : Site fs root) (extra : Location → Prop) (kept : List String → Entry → Prop)
    (now : FileSystem) : Prop where
  prepared : site.Prepared extra now
  holds : ∀ rel entry, rel ≠ [] → kept rel entry → now.entry? (site.dir ++ rel) = some entry

namespace Site.Holds

variable {site : Site fs root}

/-- Fewer entries are held as well. -/
theorem weaken {fewer : List String → Entry → Prop} (h : site.Holds extra kept now)
    (hfewer : ∀ rel entry, fewer rel entry → kept rel entry) : site.Holds extra fewer now :=
  ⟨h.prepared, fun rel entry hrel hentry => h.holds rel entry hrel (hfewer rel entry hentry)⟩

/-- Other extra places may change as well. -/
theorem mono {wider : Location → Prop} (h : site.Holds extra kept now)
    (hwider : ∀ place, extra place → wider place) : site.Holds wider kept now :=
  ⟨h.prepared.mono hwider, h.holds⟩

/-- What a site holds is told by the entries below it. -/
theorem beside (h : site.Holds extra kept now) (hprepared : site.Prepared extra later)
    (hbeneath : ∀ place, Beneath site.dir place → later.entry? place = now.entry? place) :
    site.Holds extra kept later := by
  refine ⟨hprepared, fun rel entry hrel hkept => ?_⟩
  rw [hbeneath _ (beneath_iff.2 ⟨rel, hrel, rfl⟩), h.holds rel entry hrel hkept]

/-- Something was put in another place than those of the entries that are held. -/
theorem put (h : site.Holds extra kept now) (hprepared : site.Prepared extra (now.put location entry))
    (hroot : location ≠ [])
    (hfree : ∀ rel found, kept rel found → location = site.dir ++ rel → now.entry? location ≠ some found) :
    site.Holds extra kept (now.put location entry) := by
  refine ⟨hprepared, fun rel found hrel hkept => ?_⟩
  have hfound := h.holds rel found hrel hkept
  rw [entry?_put_of_ne hroot, hfound]
  rintro rfl
  exact hfree rel found hkept rfl hfound

section Paths

variable (hspares : site.Spares extra) (wf : fs.WellFormed) (hpath : Extends root path names)
  (hinside : staysInside 0 names = true)

include hspares wf hpath hinside

theorem makes (h : site.Holds extra kept now) (hmakes : MakesAt now path location) :
    site.Holds extra kept (now.put location .directory) := by
  have hprepared := h.prepared.makeDirectory hspares wf hpath hinside hmakes
  obtain ⟨_, -, -, hvacant⟩ := hmakes
  refine h.put hprepared (writable_of_vacant hvacant).ne_nil fun rel found _ _ hfound => ?_
  simp [entry?_of_vacant hvacant] at hfound

theorem writes (h : site.Holds extra kept now) (hne : names ≠ [])
    (hfits : ∀ contents, ¬ kept (climb [] names) (.file contents)) (hwrites : WritesAt now path location) :
    site.Holds extra kept (now.put location (.file contents)) := by
  have hwritable := hwrites.writable (h.prepared.changes.wellFormed wf)
  have hplace := (h.prepared.writesAt hspares hpath hinside hne hwrites).2
  refine h.put (h.prepared.writeFile hspares wf hpath hinside hne hwrites) hwritable.ne_nil ?_
  intro rel found hkept hrel hfound
  rw [hplace, List.append_cancel_left_eq] at hrel
  cases found with
  | file old => exact hfits old (hrel ▸ hkept)
  | directory => exact hwritable.not_directory hfound
  | link text => exact h.prepared.unlinked location (hplace ▸ List.prefix_append _ _) text hfound

end Paths

/-- The deployment steps keep what a site holds, but for files that are written in place of its files. -/
theorem deployable (hspares : site.Spares extra) (wf : fs.WellFormed) (htext : root.text ≠ "") :
    Deployable root (fun names => ∀ contents, ¬ kept (climb [] names) (.file contents))
      (site.Holds extra kept) where
  text_ne := htext
  wellFormed := fun h => h.prepared.changes.wellFormed wf
  makes := fun h hpath hinside _ hmakes => h.makes hspares wf hpath hinside hmakes
  writes := fun h hpath hinside hne hfits hwrites => h.writes hspares wf hpath hinside hne hfits hwrites

end Site.Holds

/-! ### Files that are written and read -/

/-- A path can be followed, and its names do not come by the place that they spell before they end there. -/
structure Straight (path : Path) (names : List String) : Prop where
  followable : Followable path
  proper : ∀ front, front <+: names → front ≠ names → climb [] front ≠ climb [] names

section Files

variable {site : Site fs root} (hspares : site.Spares extra) (wf : fs.WellFormed) (hpath : Extends root path names)
  (hinside : staysInside 0 names = true) (hne : names ≠ [])

include hspares wf hpath hinside hne

/-- A site holds a file that was written, and the directories on the way to it. -/
theorem writeBytes_holds (h : site.Holds extra kept now) (hfits : ∀ old, ¬ kept (climb [] names) (.file old))
    (hrun : writeBytes path contents now = .ok () later) :
    Straight path names
      ∧ site.Holds extra (fun rel entry => kept rel entry ∨ Layer.ofFile names contents rel = some entry) later := by
  obtain ⟨location, hwrites, rfl⟩ := writeBytes_inv hrun
  have hkept : site.Holds extra kept (now.put location (.file contents)) :=
    h.writes hspares wf hpath hinside hne hfits hwrites
  have hwritable := hwrites.writable (h.prepared.changes.wellFormed wf)
  obtain ⟨target, hresolve, -⟩ := hwrites.place
  obtain ⟨hfollow, hleads⟩ := resolve_eq_ok_iff.1 hresolve
  have hfronts : ∀ front, front <+: names → front ≠ names →
      now.entry? (site.dir ++ climb [] front) = some .directory := fun front hfront hproper =>
    h.prepared.isDirectory_front hspares hpath hinside hleads hfront hproper
  obtain ⟨-, rfl⟩ := h.prepared.writesAt hspares hpath hinside hne hwrites
  refine ⟨⟨hfollow, fun front hfront hproper heq => ?_⟩, hkept.prepared, fun rel entry hrel hentry => ?_⟩
  · exact hwritable.not_directory (heq ▸ hfronts front hfront hproper)
  · rcases hentry with hold | hnew
    · exact hkept.holds rel entry hrel hold
    · unfold Layer.ofFile Layer.ofDirectories at hnew
      split at hnew
      next hend => rw [hend, entry?_put_self hwritable.ne_nil, hnew]
      next hend =>
          split at hnew
          next hon =>
              obtain ⟨front, hfront, rfl⟩ := Layer.mem_onWay.1 hon
              have hdir := hfronts front hfront fun heq => hend (by rw [heq])
              rw [entry?_put_of_ne hwritable.ne_nil fun heq => hend (List.append_cancel_left heq), hdir, hnew]
          · cases hnew

theorem writeFile_holds {text : String} (h : site.Holds extra kept now)
    (hfits : ∀ old, ¬ kept (climb [] names) (.file old))
    (hsucceeds : ∀ reason, (writeFile path text now).1 ≠ .failed reason) :
    Straight path names
      ∧ site.Holds extra (fun rel entry => kept rel entry ∨ Layer.ofFile names text.toUTF8 rel = some entry)
        (writeFile path text now).2 := by
  obtain ⟨⟨⟩, between, hparent, hwrite⟩ := bind_eq_ok.1 (toStep_inv hsucceeds)
  have hmaintains : Maintains (site.Holds extra kept) (createParent path) fun _ => True :=
    createParent_maintains fun h hmakes => h.makes hspares wf hpath hinside hmakes
  exact writeBytes_holds hspares wf hpath hinside hne (hmaintains.ok h hparent).1 hfits hwrite

/-- A file that is held, with the directories on the way to it, is found on its path. -/
theorem Site.Holds.resolve_file (h : site.Holds extra kept now) (hstraight : Straight path names)
    (hkept : ∀ rel entry, Layer.ofFile names contents rel = some entry → kept rel entry) :
    now.resolve true path = .ok (.found (site.dir ++ climb [] names) (.file contents)) := by
  have hwf := h.prepared.changes.wellFormed wf
  have hend : climb [] names ≠ [] := fun hnil => hstraight.proper [] List.nil_prefix hne.symm hnil.symm
  have hfile : now.entry? (site.dir ++ climb [] names) = some (.file contents) :=
    h.holds _ _ hend (hkept _ _ (by simp [Layer.ofFile]))
  have habove : ∀ place, place <+: site.dir → now.entry? place = some .directory := by
    rintro place ⟨below, hbelow⟩
    rw [← hbelow, List.append_assoc] at hfile
    exact hwf.isDirectory_of_append (by simp [hend]) hfile
  have hfronts : ∀ front, front <+: names → front ≠ names →
      now.entry? (site.dir ++ climb [] front) = some .directory := by
    intro front hfront hproper
    by_cases hnil : climb [] front = []
    · rw [hnil, List.append_nil]
      exact habove _ (List.prefix_refl _)
    · refine h.holds _ _ hnil (hkept _ _ ?_)
      rw [Layer.ofFile, if_neg (hstraight.proper front hfront hproper), Layer.ofDirectories,
        if_pos (Layer.mem_onWay.2 ⟨front, hfront, rfl⟩)]
  -- Behind what is known of the root, directories lead down to the site and on to the file.
  obtain ⟨fewer, hfewer⟩ := (h.prepared.leadsTo hspares).walk_append
  have hclimb : climb site.base (site.missing ++ names) = site.dir ++ climb [] names := by
    rw [climb_append, ← Site.dir, climb_of_staysInside_zero hinside]
  have hbehind : Leads now true fewer site.base (site.missing ++ names) false
      (.found (site.dir ++ climb [] names) (.file contents)) := by
    rw [← hclimb]
    refine hwf.leads_fronts (fun front hfront hproper => ?_) (hclimb ▸ hfile) (by simp)
    rcases prefix_append_cases hfront with hmissing | ⟨more, -, rfl, hmore⟩
    · exact habove _ (Site.climb_prefix_dir hmissing)
    · obtain ⟨rest, hrest⟩ := id hmore
      rw [climb_append, ← Site.dir, climb_of_staysInside_zero (staysInside_of_append (hrest ▸ hinside))]
      exact hfronts more hmore fun heq => hproper (by rw [heq])
  have hslash : now.slashOf path = false := by
    rw [slashOf_of_ne hpath.text_ne, hpath.noSlash hne]
  refine resolve_eq_ok_iff.2 ⟨hstraight.followable, ?_⟩
  rw [hslash, hpath.namesTo_eq, h.prepared.changes.namesTo root, site.namesTo_eq, List.append_assoc]
  exact hfewer.2 hbehind (by simp [hne])

/-- And it is read there. -/
theorem Site.Holds.readBytes (h : site.Holds extra kept now) (hstraight : Straight path names)
    (hkept : ∀ rel entry, Layer.ofFile names contents rel = some entry → kept rel entry) :
    readBytes path now = .ok contents now := by
  rw [readBytes_eq, lookup_eq_ok_iff.2 (h.resolve_file hspares wf hpath hinside hne hstraight hkept)]

end Files

end ModPackager.Deploy
