import ModPackager.Proofs.Deploy.Copy
import ModPackager.Proofs.FileSystem.Kept
import ModPackager.Proofs.FileSystem.Making

/-!
# Laying a tree over what is there

While a tree is copied to a site, nothing is removed: the site is `Overlaid`. So the root leads to the site all along, and
every path into the source leads to the same as before (`Overlaid.keepsTree`), as long as the two have nothing to do with
each other (`Disjoint`).

What can be copied is then told by what was there at first. A directory can be made just where there is a directory or
nothing (`createDirectories_iff`), a file can be written just where there is no directory (`copyFile_iff`), if the path is
within the limits of the system.
-/

namespace ModPackager

namespace FileSystem

variable {fs : FileSystem} {path : Path} {name : String} {dir : Location}

/-- A path is within the limits of the system: it can be followed, and no name on it is too long. -/
structure WithinLimits (fs : FileSystem) (path : Path) : Prop where
  followable : Followable path
  short : ∀ name ∈ fs.namesTo path, name.utf8ByteSize ≤ maxName

theorem WithinLimits.of_resolve {follow : Bool} {target : Target} (h : fs.resolve follow path = .ok target) :
    fs.WithinLimits path := by
  obtain ⟨hpath, hleads⟩ := resolve_eq_ok_iff.1 h
  exact ⟨hpath, hleads.short⟩

theorem Kept.withinLimits_iff {now : FileSystem} (h : Kept fs now) : now.WithinLimits path ↔ fs.WithinLimits path := by
  have hnames : now.namesTo path = fs.namesTo path := by rw [namesTo, namesTo, h.workingDir]
  exact ⟨fun hlimits => ⟨hlimits.followable, hnames ▸ hlimits.short⟩,
    fun hlimits => ⟨hlimits.followable, hnames.symm ▸ hlimits.short⟩⟩

end FileSystem

namespace Deploy

open FileSystem FileAction

variable {fs now now' : FileSystem} {root path source : Path} {place location dir : Location} {rel names : List String}
  {name : String} {site : Site fs root} {layer : Layer} {entry : Entry} {contents : ByteArray}

/-! ### Sites that are laid over -/

/-- Everything that was there still is, no link is new, and what is new is below the site or a directory on the missing part
of the way to it. -/
structure Site.Overlaid (site : Site fs root) (now : FileSystem) : Prop where
  kept : Kept fs now
  wellFormed : now.WellFormed
  entries : ∀ place, ¬ site.Affects place → now.entry? place = fs.entry? place
  above : ∀ place found, place <+: site.dir → now.entry? place = some found → found = .directory

/-- Names that lead through directories to an entry that the last of them lists. -/
def Listed (fs : FileSystem) (source : Path) (names : List String) : Prop :=
  (∀ name ∈ names, ValidName name) ∧ ∃ front name dir entry, names = front ++ [name]
    ∧ fs.resolve true (source.descend front) = .ok (.found dir .directory) ∧ fs.entry? (dir ++ [name]) = some entry

theorem Listed.ne_nil (h : Listed fs source names) : names ≠ [] := by
  obtain ⟨-, front, name, -, -, hnames, -⟩ := h
  simp [hnames]

/-- A site and a source have nothing to do with each other: nothing of the source lies at the site, below it or above it, what
leads nowhere in the source misses no place that copying may fill, and there are no links at or below the site. -/
structure Site.Disjoint (site : Site fs root) (source : Path) : Prop where
  apart : ∀ names, (∀ name ∈ names, ValidName name) → ∀ place entry,
    fs.lookup? (source.descend names) = some (place, entry) → ¬ site.dir <+: place ∧ ¬ place <+: site.dir
  dangling : ∀ names, Listed fs source names → fs.lookup? (source.descend names) = none →
    ∀ place ∈ fs.way (source.descend names), fs.entry? place = none → ¬ site.Affects place
  unlinked : ∀ place text, site.dir <+: place → fs.entry? place ≠ some (.link text)

namespace Site.Disjoint

variable (h : site.Disjoint source) (hnames : ∀ name ∈ names, ValidName name)

include h hnames

/-- What a directory of the source lists, and what it does not, is not affected. -/
theorem not_affects_child (hdir : fs.resolve true (source.descend names) = .ok (.found dir .directory)) :
    ¬ site.Affects (dir ++ [name]) := by
  obtain ⟨hbelow, habove⟩ := h.apart names hnames dir .directory (lookup?_eq_some_iff.2 hdir)
  rintro (hbeneath | ⟨hbefore, -⟩)
  · rcases List.prefix_concat_iff.1 hbeneath.1 with heq | hshort
    · exact hbeneath.2 heq.symm
    · exact hbelow hshort
  · exact habove ((List.prefix_append _ _).trans hbefore)

/-- What a path into the source misses is not affected. -/
theorem unfilled (hsource : fs.holdsDirectory source = true) (hfollow : Followable (source.descend names)) :
    ∀ place ∈ fs.way (source.descend names), fs.entry? place = none → ¬ site.Affects place := by
  induction names using List.reverseRecOn with
  | nil =>
      -- The source itself misses nothing.
      intro place hplace hnone
      obtain ⟨dir, hdir⟩ := holdsDirectory_iff.1 hsource
      obtain ⟨found, hfound⟩ := Leads.exists_of_mem_trail (leadsTo_of_resolve hdir) hplace
      simp [hnone] at hfound
  | append_singleton front name ih =>
      intro place hplace hnone
      rw [List.forall_mem_append, List.forall_mem_singleton] at hnames
      obtain ⟨hfront, hname⟩ := hnames
      obtain ⟨hne, -, -, hslash, -⟩ := id hname
      obtain ⟨_, hresolve⟩ := holdsDirectory_iff.1 hsource
      have htext := Path.text_descend_ne (resolve_eq_ok_iff.1 hresolve).1.2.1 hfront
      have hdangling := h.dangling (front ++ [name])
      rw [Path.descend_concat] at hfollow hplace hdangling
      have hfollowFront := hfollow.of_child hslash htext
      have hway := hplace
      rw [way, namesTo_child fs htext hne hslash] at hway
      by_cases hleads : ∃ dir, fs.LeadsTo (fs.namesTo (source.descend front)) dir
      · obtain ⟨dir, hdir⟩ := hleads
        have hfound := resolve_eq_ok_iff.2 ⟨hfollowFront, hdir.of_slash⟩
        rcases hentry : fs.entry? (dir ++ [name]) with _ | entry
        · -- The directory does not list the name, and that is all that is missed.
          obtain ⟨fewer, hfewer⟩ := Leads.mem_trail_append hdir
          rcases (hfewer [name] place).1 hway with hbefore | hbehind
          · obtain ⟨found, hthere⟩ := Leads.exists_of_mem_trail hdir hbefore
            simp [hnone] at hthere
          · rw [trail_name hdir.isDirectory hname.ordinary, hentry, List.mem_cons, List.mem_singleton] at hbehind
            rcases hbehind with rfl | rfl
            · simp [hdir.isDirectory] at hnone
            · exact h.not_affects_child hfront hfound
        · rcases hlookup : fs.lookup? ((source.descend front).child name) with _ | ⟨location, found⟩
          · have hvalid : ∀ other ∈ front ++ [name], ValidName other := by
              rw [List.forall_mem_append, List.forall_mem_singleton]
              exact ⟨hfront, hname⟩
            exact hdangling ⟨hvalid, front, name, dir, entry, rfl, hfound, hentry⟩ hlookup place hplace hnone
          · obtain ⟨-, hleads⟩ := resolve_eq_ok_iff.1 (lookup?_eq_some_iff.1 hlookup)
            obtain ⟨found, hthere⟩ := hleads.exists_of_mem_trail hplace
            simp [hnone] at hthere
      · exact ih hfront hfollowFront place (trail_stops (not_exists.1 hleads) hway) hnone

end Site.Disjoint

theorem Site.overlaid_refl (site : Site fs root) (wf : fs.WellFormed) : site.Overlaid fs where
  kept := .refl fs
  wellFormed := wf
  entries := fun _ _ => rfl
  above := fun _ _ hplace hfound => site.isDirectory_of_prefix_dir wf hplace hfound

namespace Site.Overlaid

/-- The state stays overlaid when something other than a link is put at a place that may change. -/
theorem put (h : site.Overlaid now) (hkept : Kept fs (now.put location entry)) (hwritable : now.Writable location)
    (haffects : site.Affects location) (hentry : location <+: site.dir → entry = .directory) :
    site.Overlaid (now.put location entry) where
  kept := hkept
  wellFormed := hwritable.wellFormed_put h.wellFormed
  entries := by
    intro place hplace
    have hne : place ≠ location := by
      rintro rfl
      exact hplace haffects
    rw [entry?_put_of_ne hwritable.ne_nil hne, h.entries place hplace]
  above := by
    intro place found hplace hfound
    rw [entry?_put _ hwritable.ne_nil] at hfound
    split at hfound
    next heq => exact (Option.some.inj hfound).symm.trans (hentry (heq ▸ hplace))
    · exact h.above place found hplace hfound

section Supports

variable (wf : fs.WellFormed) (hdisjoint : site.Disjoint source)

include wf hdisjoint

theorem stands (h : site.Overlaid now) : site.Stands now where
  namesTo := by rw [FileSystem.namesTo, h.kept.workingDir, ← FileSystem.namesTo]
  leadsTo := h.kept.leadsTo site.leads
  unlinked := by
    intro rel hrel front hfront text hlink
    have hbefore := h.kept.links hlink
    rcases prefix_append_cases hfront with hmissing | ⟨more, -, rfl, rest, rfl⟩
    · exact site.not_link wf hmissing text hbefore
    · rw [climb_append, ← Site.dir, climb_of_staysInside_zero (staysInside_of_append hrel)] at hbefore
      exact hdisjoint.unlinked _ text (List.prefix_append _ _) hbefore

theorem supports : site.Supports site.Overlaid where
  stands := fun h => h.stands wf hdisjoint
  wellFormed := fun h => h.wellFormed
  makes := by
    intro now path rel location h hpath hrel hmakes
    have hstands := h.stands wf hdisjoint
    obtain ⟨_, -, -, hvacant⟩ := id hmakes
    have haffects : site.Affects location := by
      rcases hstands.makesAt hpath hrel hmakes with ⟨front, hfront, rfl⟩ | ⟨hbeneath, -⟩
      · refine .inr ⟨climb_prefix_dir hfront, entry?_climb wf hfront ?_⟩
        rintro rfl
        have hbase := hstands.leadsTo.isDirectory
        rw [← climb_nil site.base, entry?_of_vacant hvacant] at hbase
        cases hbase
      · exact .inl hbeneath
    exact h.put (h.kept.makes hvacant) (writable_of_vacant hvacant) haffects fun _ => rfl
  writes := by
    intro now path rel location contents h hpath hrel hne hwrites
    obtain ⟨hbeneath, -⟩ := (h.stands wf hdisjoint).writesAt hpath hrel hne hwrites
    refine h.put (h.kept.writes hwrites) (hwrites.writable h.wellFormed) (.inl hbeneath) fun habove => ?_
    exact absurd (hbeneath.1.eq_of_length_le habove.length_le).symm hbeneath.2

end Supports

/-! ### The source -/

section Source

variable (hdisjoint : site.Disjoint source) (h : site.Overlaid now) (hnames : ∀ name ∈ names, ValidName name)

include hdisjoint h hnames

/-- What a path into the source misses is still missing. -/
theorem missing (hsource : fs.holdsDirectory source = true) (hfollow : Followable (source.descend names)) :
    ∀ place ∈ fs.way (source.descend names), fs.entry? place = none → now.entry? place = none :=
  fun place hplace hnone =>
    (h.entries place (hdisjoint.unfilled hnames hsource hfollow place hplace hnone)).trans hnone

theorem isLink_iff (hsource : fs.holdsDirectory source = true) (hfollow : Followable (source.descend names)) :
    isLink now (source.descend names) = isLink fs (source.descend names) := by
  rw [Bool.eq_iff_iff, Deploy.isLink_iff, Deploy.isLink_iff]
  simp only [h.kept.resolve_link_iff (h.missing hdisjoint hnames hsource hfollow)]

/-- The directories of the source list the same as before. -/
theorem lists_iff (hdir : fs.resolve true (source.descend names) = .ok (.found dir .directory)) :
    (∃ entry, fs.entry? (dir ++ [name]) = some entry) ↔ ∃ entry, now.entry? (dir ++ [name]) = some entry := by
  rw [h.entries _ (hdisjoint.not_affects_child hnames hdir)]

end Source

/-- Paths into the source lead to the same as before. -/
theorem keepsTree (hdisjoint : site.Disjoint source) (hsource : fs.holdsDirectory source = true) :
    KeepsTree site.Overlaid fs source := by
  intro now h names hnames
  by_cases hfollow : Followable (source.descend names)
  · refine h.kept.lookup?_eq (h.missing hdisjoint hnames hsource hfollow) fun place entry hfound => ?_
    have hthere := entry?_of_found (lookup?_eq_some_iff.1 hfound)
    rw [h.entries place, hthere]
    rintro (hbeneath | ⟨-, hnone⟩)
    · exact (hdisjoint.apart names hnames place entry hfound).1 hbeneath.1
    · simp [hthere] at hnone
  · rw [lookup?_of_not_followable hfollow, lookup?_of_not_followable hfollow]

end Site.Overlaid

/-! ### What can be copied -/

theorem extends_descend (htext : root.text ≠ "") (hrel : ∀ name ∈ rel, ValidName name) :
    Extends root (root.descend rel) rel := by
  induction rel using List.reverseRecOn with
  | nil => exact extends_refl htext
  | append_singleton front name ih =>
      rw [List.forall_mem_append, List.forall_mem_singleton] at hrel
      rw [Path.descend_concat]
      exact (ih hrel.1).validChild hrel.2

theorem isAbsolute_descend (htext : root.text ≠ "") (hrel : ∀ name ∈ rel, ValidName name) :
    (root.descend rel).isAbsolute = root.isAbsolute :=
  Path.isAbsolute_descend htext fun name hname => (hrel name hname).2.2.2.1

section Child

variable (hname : ValidName name) (hfollow : Followable (root.child name))
  (hdir : now.resolve true root = .ok (.found dir .directory))
  (hentry : now.entry? (dir ++ [name]) = none ∨ ∃ old, now.entry? (dir ++ [name]) = some (.file old))

include hname hfollow hdir hentry

theorem writesAt_child : WritesAt now (root.child name) (dir ++ [name]) := by
  obtain ⟨hne, -, -, hslash, -⟩ := id hname
  rcases hentry with hnone | ⟨old, hfile⟩
  · exact .inr (resolve_vacant hne hslash hname.ordinary hfollow hdir hnone)
  · exact .inl ⟨old, resolve_entry hne hslash hname.ordinary hfollow hdir hfile nofun⟩

/-- A file is written in a directory that is there, unless a directory or a link has its name. -/
theorem writeBytes_child (contents : ByteArray) :
    writeBytes (root.child name) contents now = .ok () (now.put (dir ++ [name]) (.file contents)) := by
  obtain ⟨hne, -, -, hslash, -⟩ := id hname
  rw [writeBytes_eq]
  rcases hentry with hnone | ⟨old, hfile⟩
  · rw [resolve_vacant hne hslash hname.ordinary hfollow hdir hnone]
    simp [endsInSlash_child hne hslash]
  · rw [resolve_entry hne hslash hname.ordinary hfollow hdir hfile nofun]

/-- So is a file copied, if its source is another one. -/
theorem copyFile_child {file : Path} (hfound : now.resolve true file = .ok (.found place (.file contents)))
    (hagain : (now.put (dir ++ [name]) (.file .empty)).resolve true file = .ok (.found place (.file contents))) :
    ∃ now', copyFile file (root.child name) now = .ok () now' := by
  have hwrites := writesAt_child hname hfollow hdir hentry
  have hkept : Kept now (now.put (dir ++ [name]) (.file .empty)) := (Kept.refl now).writes hwrites
  have hdir' := hkept.resolve_persists hdir (hkept.same (entry?_of_found hdir) nofun)
  have hwrite := writeBytes_child hname hfollow hdir' (.inr ⟨.empty, entry?_put_self hwrites.ne_nil⟩) contents
  refine ⟨(now.put (dir ++ [name]) (.file .empty)).put (dir ++ [name]) (.file contents), ?_⟩
  rw [copyFile_eq, lookup_eq_ok_iff.2 hfound]
  refine bind_eq_ok.2 ⟨⟨⟩, _, writeBytes_child hname hfollow hdir hentry _, bind_eq_ok.2 ⟨contents, _, ?_, hwrite⟩⟩
  rw [readBytes_eq, lookup_eq_ok_iff.2 hagain]

end Child

section Operations

variable (wf : fs.WellFormed) (hdisjoint : site.Disjoint source)
  (hworking : root.isAbsolute = false → fs.holdsDirectory ⟨"."⟩ = true) (htext : root.text ≠ "")

/-- Below a site the way is clear where only directories are on it. -/
theorem Site.Overlaid.approach (h : site.Overlaid now) (hworking : root.isAbsolute = false → fs.holdsDirectory ⟨"."⟩ = true)
    (hrel : ∀ name ∈ rel, ValidName name) (hshort : ∀ name ∈ site.missing, name.utf8ByteSize ≤ maxName)
    (hfree : ∀ front, front <+: rel → front ≠ [] →
      now.entry? (site.dir ++ front) = none ∨ now.entry? (site.dir ++ front) = some .directory) :
    Approach now root site.known site.base (site.missing ++ rel) where
  wellFormed := h.wellFormed
  leads := h.kept.leadsTo site.leads
  clear := by
    refine ⟨?_, ?_, fun front hfront => ?_⟩
    · rw [List.mem_append, not_or]
      exact ⟨site.noParent, fun hmem => (hrel _ hmem).2.2.1 rfl⟩
    · rw [List.forall_mem_append]
      exact ⟨hshort, fun name hmem => (hrel name hmem).2.2.2.2⟩
    · rcases prefix_append_cases hfront with hmissing | ⟨more, hmore, rfl, hfirst⟩
      · rcases hentry : now.entry? (climb site.base front) with _ | found
        · exact .inl rfl
        · rw [h.above _ found (climb_prefix_dir hmissing) hentry]
          exact .inr rfl
      · rw [climb_append, ← Site.dir, climb_of_plain (ValidName.plain fun name hmem => hrel name (hfirst.subset hmem))]
        exact hfree more hfirst hmore
  working := by
    intro hrelative
    obtain ⟨dir, hdir⟩ := leadsTo_working (hworking hrelative)
    refine ⟨dir, ?_⟩
    rw [FileSystem.namesTo, h.kept.workingDir, ← FileSystem.namesTo]
    exact h.kept.leadsTo hdir

include wf hdisjoint hworking htext

variable (hvalid : ∀ other ∈ rel ++ [name], ValidName other) (hopens : layer.Opens rel)
  (h : site.Bears site.Overlaid layer now)

include hvalid hopens h

/-- A directory can be made just where there is a directory or nothing. -/
theorem createDirectories_iff : Succeeds (createDirectories (root.descend (rel ++ [name]))) now
    ↔ fs.WithinLimits (root.descend (rel ++ [name]))
      ∧ (layer (rel ++ [name]) = none ∨ layer (rel ++ [name]) = some .directory) := by
  have hpath := extends_descend htext hvalid
  have hstands := h.prepared.stands wf hdisjoint
  have hlast := h.lays (rel ++ [name]) (by simp)
  constructor
  · rintro ⟨⟨⟩, now', hrun⟩
    have hholds := createDirectories_holds hpath.text_ne hrun
    obtain ⟨hkept, -⟩ := (Kept.createDirectories _).ok (.refl now) hrun
    obtain ⟨place, hresolve⟩ := holdsDirectory_iff.1 hholds
    refine ⟨h.prepared.kept.withinLimits_iff.1 (hkept.withinLimits_iff.1 (.of_resolve hresolve)), ?_⟩
    have hmade := (createDirectories_laid hpath (staysInside_of_plain (ValidName.plain hvalid))
      (Site.Overlaid.supports wf hdisjoint) h hrun).lays (rel ++ [name]) (by simp)
    rw [Layer.ofDirectories_over hvalid hopens (by simp), if_pos rfl] at hmade
    rw [← hlast]
    rcases hentry : now.entry? (site.dir ++ (rel ++ [name])) with _ | found
    · exact .inl rfl
    · exact .inr (congrArg some (hkept.isDirectory_of_some hentry hmade))
  · rintro ⟨hlimits, hfree⟩
    have hnames := hstands.namesTo_eq hpath
    have happroach := h.prepared.approach hworking hvalid
      (fun other hmem => (h.prepared.kept.withinLimits_iff.2 hlimits).short other (by simp [hnames, hmem]))
      fun front hfront hne => by
        rw [h.lays front hne]
        rcases List.prefix_concat_iff.1 hfront with rfl | hshort
        · exact hfree
        · exact .inr (hopens front hshort hne)
    have hends : Path.EndsInComponent (root.descend (rel ++ [name])) := by
      rw [List.forall_mem_append, List.forall_mem_singleton] at hvalid
      obtain ⟨hne, hdot, hup, hslash, -⟩ := hvalid.2
      rw [Path.descend_concat]
      exact Path.endsInComponent_child (extends_descend htext hvalid.1).text_ne ⟨hne, hdot, hup, hslash⟩
    obtain ⟨now', hrun⟩ := happroach.createDirectories (isAbsolute_descend htext hvalid) (by rw [hnames]) (.inr (.inr hends))
      fun _ => hlimits.followable
    exact ⟨⟨⟩, now', hrun⟩

/-- A file can be copied just to where there is no directory. -/
theorem copyFile_iff {file : Path} (hkeeps : KeepsTree site.Overlaid fs file)
    (hfound : fs.resolve true file = .ok (.found place (.file contents))) :
    Succeeds (createParent (root.descend (rel ++ [name])) >>= fun _ => copyFile file (root.descend (rel ++ [name]))) now
      ↔ fs.WithinLimits (root.descend (rel ++ [name])) ∧ layer (rel ++ [name]) ≠ some .directory := by
  have hsupports := Site.Overlaid.supports wf hdisjoint
  have hpath := extends_descend htext hvalid
  have hinside : staysInside 0 (rel ++ [name]) = true := staysInside_of_plain (ValidName.plain hvalid)
  have hspells : climb [] (rel ++ [name]) = rel ++ [name] := climb_of_plain (ValidName.plain hvalid)
  have hlast := h.lays (rel ++ [name]) (by simp)
  rw [List.forall_mem_append, List.forall_mem_singleton] at hvalid
  obtain ⟨hrel, hname⟩ := hvalid
  have hdirectory := extends_descend htext hrel
  rw [Path.descend_concat] at hpath ⊢
  constructor
  · intro hsucceeds
    obtain ⟨⟨⟩, between, hparent, ⟨⟩, now', hcopy⟩ := succeeds_bind.1 hsucceeds
    obtain ⟨hkept, -⟩ := (Kept.createParent _).ok (.refl now) hparent
    obtain ⟨hbetween, -⟩ := (Site.Bearing.createParent hsupports hpath hinside).ok h.bearing hparent
    obtain ⟨_, _, _, _, -, hempty, -⟩ := copyFile_inv hcopy
    obtain ⟨location, hwrites, -⟩ := writeBytes_inv hempty
    obtain ⟨target, hresolve, -⟩ := hwrites.place
    refine ⟨h.prepared.kept.withinLimits_iff.1 (hkept.withinLimits_iff.1 (.of_resolve hresolve)), fun hthere => ?_⟩
    obtain ⟨-, rfl⟩ := (hsupports.stands hbetween.prepared).writesAt hpath hinside (by simp) hwrites
    rw [hspells] at hwrites
    obtain ⟨_, hfile⟩ := hwrites.file_of_entry? (hkept.same (hlast.trans hthere) nofun)
    cases hfile
  · rintro ⟨hlimits, hfree⟩
    have hnames := (hsupports.stands h.prepared).namesTo_eq hdirectory
    have hshort := (h.prepared.kept.withinLimits_iff.2 hlimits).short
    rw [namesTo_child now hdirectory.text_ne hname.1 hname.2.2.2.1, hnames] at hshort
    have happroach := h.prepared.approach hworking hrel (fun other hmem => hshort other (by simp [hmem]))
      fun front hfront hne => .inr ((h.lays front hne).trans (hopens front hfront hne))
    obtain ⟨between, hparent, hleads⟩ :=
      happroach.createParent hname hdirectory.text_ne (isAbsolute_descend htext hrel) hnames hlimits.followable
    -- The directory is there now, and the place of the file is as it was.
    obtain ⟨hbetween, -⟩ := (createParent_child_maintains hname hdirectory.text_ne fun {_ _} h hmakes =>
      Site.Bearing.makes hsupports hdirectory (staysInside_of_plain (ValidName.plain hrel)) h hmakes).ok h.bearing hparent
    have hthere : between.resolve true (root.descend rel) = .ok (.found (site.dir ++ rel) .directory) := by
      refine resolve_eq_ok_iff.2 ⟨hlimits.followable.of_child hname.2.2.2.1 hdirectory.text_ne, ?_⟩
      rw [(hsupports.stands hbetween.prepared).namesTo_eq hdirectory]
      rw [climb_append, climb_of_plain (ValidName.plain hrel)] at hleads
      exact hleads.of_slash
    have hplace : between.entry? (site.dir ++ rel ++ [name]) = layer (rel ++ [name]) := by
      rw [List.append_assoc]
      refine hbetween.lays _ fun hmem => ?_
      obtain ⟨front, hfront, hclimb⟩ := Layer.mem_onWay.1 hmem
      rw [climb_of_plain (ValidName.plain fun other hother => hrel other (hfront.subset hother)), List.nil_append] at hclimb
      have hlength := hfront.length_le
      rw [hclimb, List.length_append, List.length_singleton] at hlength
      omega
    have hentry : between.entry? (site.dir ++ rel ++ [name]) = none
        ∨ ∃ old, between.entry? (site.dir ++ rel ++ [name]) = some (.file old) := by
      rcases hcase : between.entry? (site.dir ++ rel ++ [name]) with _ | old | _ | text
      · exact .inl rfl
      · exact .inr ⟨old, rfl⟩
      · exact absurd (hplace.symm.trans hcase) hfree
      · exact absurd (hbetween.prepared.kept.links hcase)
          (hdisjoint.unlinked _ text (by rw [List.append_assoc]; exact List.prefix_append _ _))
    have hafter : site.Overlaid (between.put (site.dir ++ rel ++ [name]) (.file .empty)) :=
      hsupports.writes hbetween.prepared hpath hinside (by simp) (writesAt_child hname hlimits.followable hthere hentry)
    obtain ⟨now', hcopy⟩ := copyFile_child hname hlimits.followable hthere hentry
      ((hkeeps.resolve_iff hbetween.prepared).2 hfound) ((hkeeps.resolve_iff hafter).2 hfound)
    exact succeeds_bind.2 ⟨⟨⟩, between, hparent, ⟨⟩, now', hcopy⟩

end Operations

end Deploy

end ModPackager
