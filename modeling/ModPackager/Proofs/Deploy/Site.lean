import ModPackager.Proofs.Deploy.Steps

/-!
# The site of a deployment

A mod is laid out below the location that its deploy root leads to, or will lead to once the directories
of the root are made. A `Site` of a root says where that is: the names of the root first lead to a
directory that is there, and the rest of them is missing and holds no parent.

From the moment the root is cleared, files and directories fall in the right places as long as there are
no links below the site and on the missing part of the way to it. That is the invariant `Prepared`. Every
path that goes on from the root then leads to the location that its names spell (`Stands.makesAt`,
`Stands.writesAt`), and so the deployment steps keep the invariant (`Spares.deployable`, `Spares.supports`).
-/

namespace ModPackager

namespace Deploy

open FileSystem FileAction

variable {fs fs' : FileSystem} {root path : Path} {place location : Location} {entry : Entry}
  {rel front : List String} {extra : Location → Prop}

/-! ### Sites -/

/-- Where a deploy root leads: first to a directory that is there, and then through names that are missing
and hold no parent. -/
structure Site (fs : FileSystem) (root : Path) where
  known : List String
  missing : List String
  base : Location
  namesTo_eq : fs.namesTo root = known ++ missing
  leads : fs.LeadsTo known base
  noParent : ".." ∉ missing
  absent : ∀ name rest, missing = name :: rest → name ≠ "." ∧ fs.entry? (base ++ [name]) = none

namespace Site

/-- The location that the root leads to, or will lead to. -/
def dir (site : Site fs root) : Location := climb site.base site.missing

/-- What laying out a mod may change: everything below the site, and what is missing above it. -/
def Affects (site : Site fs root) (place : Location) : Prop :=
  Beneath site.dir place ∨ place <+: site.dir ∧ fs.entry? place = none

variable {site : Site fs root}

theorem climb_prefix_dir (h : front <+: site.missing) : climb site.base front <+: site.dir :=
  climb_prefix site.noParent h

/-- Nothing is there under the first missing name. -/
theorem first_missing {name : String} {rest : List String} (h : name :: rest <+: site.missing) :
    name ≠ "." ∧ name ≠ ".." ∧ fs.entry? (site.base ++ [name]) = none := by
  obtain ⟨more, hmore⟩ := h
  obtain ⟨hdot, hnone⟩ := site.absent name (rest ++ more) hmore.symm
  refine ⟨hdot, ?_, hnone⟩
  rintro rfl
  exact site.noParent (hmore ▸ by simp)

/-- The missing names spell missing places. -/
theorem entry?_climb (wf : fs.WellFormed) (h : front <+: site.missing) (hfront : front ≠ []) :
    fs.entry? (climb site.base front) = none := by
  obtain ⟨name, rest, rfl⟩ := List.exists_cons_of_ne_nil hfront
  obtain ⟨hdot, hup, hnone⟩ := site.first_missing h
  have hrest : ".." ∉ rest := fun hmem => site.noParent (h.subset (List.mem_cons_of_mem _ hmem))
  rw [climb_cons, climbStep_of_ne hdot hup]
  exact wf.entry?_eq_none_of_prefix (prefix_climb hrest) hnone

theorem entry?_dir (wf : fs.WellFormed) (hmissing : site.missing ≠ []) : fs.entry? site.dir = none :=
  entry?_climb wf (List.prefix_refl _) hmissing

/-- What is there on the way down to the site is a directory. -/
theorem isDirectory_of_prefix_dir (wf : fs.WellFormed) (hplace : place <+: site.dir)
    (hentry : fs.entry? place = some entry) : entry = .directory := by
  have hbase : site.base <+: site.dir := prefix_climb site.noParent
  rcases List.prefix_or_prefix_of_prefix hplace hbase with ⟨below, hbelow⟩ | ⟨below, rfl⟩
  · have hdir := site.leads.isDirectory
    rw [← hbelow] at hdir
    by_cases hnil : below = []
    · rw [hnil, List.append_nil, hentry] at hdir
      exact Option.some.inj hdir
    · exact Option.some.inj (hentry.symm.trans (wf.isDirectory_of_append hnil hdir))
  · by_cases hnil : below = []
    · rw [hnil, List.append_nil, site.leads.isDirectory] at hentry
      exact (Option.some.inj hentry).symm
    · -- Behind the base the names are missing, so nothing is there.
      have hmissing : site.missing ≠ [] := by
        intro hmissing
        rw [dir, hmissing, climb_nil, ← List.append_nil site.base, List.append_assoc,
          List.prefix_append_right_inj, List.nil_append, List.prefix_nil] at hplace
        exact hnil hplace
      obtain ⟨name, rest, hcons⟩ := List.exists_cons_of_ne_nil hmissing
      obtain ⟨hdot, hup, hnone⟩ := site.first_missing (⟨[], by simp [hcons]⟩ : name :: rest <+: _)
      have hfirst : site.base ++ [name] <+: site.dir := by
        rw [dir, hcons, climb_cons, climbStep_of_ne hdot hup]
        exact prefix_climb fun hmem => site.noParent (hcons ▸ List.mem_cons_of_mem _ hmem)
      have hbelow : site.base ++ [name] <+: site.base ++ below := by
        rcases List.prefix_or_prefix_of_prefix hfirst hplace with h | h
        · exact h
        · have hlength := h.length_le
          refine (h.eq_of_length_le ?_) ▸ List.prefix_refl _
          have hpos := List.length_pos_iff.2 hnil
          simp only [List.length_append, List.length_singleton]
          omega
      rw [wf.entry?_eq_none_of_prefix hbelow hnone] at hentry
      cases hentry

/-- The names of the root split in one way into those that are known and those that are missing. -/
theorem known_length_le (site other : Site fs root) : other.known.length ≤ site.known.length := by
  by_contra hlonger
  have hnames : other.known ++ other.missing = site.known ++ site.missing :=
    other.namesTo_eq.symm.trans site.namesTo_eq
  have hprefix : other.known <+: site.known ++ site.missing := hnames ▸ List.prefix_append _ _
  rcases prefix_append_cases hprefix with hshort | ⟨front, hfront, hknown, hmissing⟩
  · exact hlonger hshort.length_le
  · obtain ⟨name, rest, rfl⟩ := List.exists_cons_of_ne_nil hfront
    obtain ⟨more, hmore⟩ := hmissing
    obtain ⟨hdot, hnone⟩ := site.absent name (rest ++ more) hmore.symm
    have hup : name ≠ ".." := by
      rintro rfl
      exact site.noParent (hmore ▸ by simp)
    obtain ⟨fewer, hfewer⟩ := LeadsTo.walk_append site.leads
    have hleads := other.leads
    rw [LeadsTo, hknown] at hleads
    -- Something is there under the first missing name, if names go on behind it.
    obtain ⟨found, hfound⟩ := (hfewer.1 hleads hfront).exists_first hdot hup
    simp [hnone] at hfound

theorem dir_unique (site other : Site fs root) : other.dir = site.dir := by
  have hnames : other.known ++ other.missing = site.known ++ site.missing :=
    other.namesTo_eq.symm.trans site.namesTo_eq
  obtain ⟨hknown, hmissing⟩ := List.append_inj hnames
    (Nat.le_antisymm (site.known_length_le other) (other.known_length_le site))
  have hbase := other.leads
  rw [hknown] at hbase
  rw [dir, dir, hmissing, hbase.unique site.leads]

/-- Places that have nothing to do with a site: not on the way to it, not above it, not below it. Nor does
the way to it run below the site itself. -/
structure Spares (site : Site fs root) (extra : Location → Prop) : Prop where
  way : ∀ place ∈ fs.trail maxLinks [] site.known, ¬ (Beneath site.dir place ∨ extra place)
  above : ∀ place, extra place → ¬ place <+: site.dir
  below : ∀ place, extra place → ¬ site.dir <+: place

theorem Spares.mono {fewer : Location → Prop} (h : site.Spares extra) (hfewer : ∀ place, fewer place → extra place) :
    site.Spares fewer where
  way := fun place hplace hchanged => h.way place hplace (hchanged.imp_right (hfewer place))
  above := fun place hplace => h.above place (hfewer place hplace)
  below := fun place hplace => h.below place (hfewer place hplace)

/-- The known names lead past nothing that changes. -/
theorem Spares.not_changed (h : site.Spares extra) (hplace : place ∈ fs.trail maxLinks [] site.known) :
    ¬ (site.Affects place ∨ extra place) := by
  rintro ((hbeneath | ⟨-, hnone⟩) | hextra)
  · exact h.way place hplace (.inl hbeneath)
  · obtain ⟨found, hfound⟩ := Leads.exists_of_mem_trail site.leads hplace
    simp [hnone] at hfound
  · exact h.way place hplace (.inr hextra)

/-! ### Paths that go on from a root -/

/-- The known names still lead to the base of a site, and no link is on the way from there on. -/
structure Stands (site : Site fs root) (now : FileSystem) : Prop where
  namesTo : now.namesTo root = fs.namesTo root
  leadsTo : now.LeadsTo site.known site.base
  unlinked : ∀ {rel}, staysInside 0 rel = true → now.Unlinked site.base (site.missing ++ rel)

namespace Stands

/-- The names of the root lead to the site once a directory is there. -/
theorem leadsTo_dir (h : site.Stands fs') (wf : fs'.WellFormed) (hdir : fs'.entry? site.dir = some .directory) :
    fs'.LeadsTo (site.known ++ site.missing) site.dir :=
  h.leadsTo.append fun _ => wf.leads_climb site.noParent hdir

theorem canonical?_root (h : site.Stands fs') (wf : fs'.WellFormed) (hroot : Followable root)
    (hdir : fs'.entry? site.dir = some .directory) : fs'.canonical? root = some site.dir := by
  refine canonical?_eq_some_iff.2 ⟨.directory, resolve_eq_ok_iff.2 ⟨hroot, ?_⟩⟩
  rw [h.namesTo, site.namesTo_eq]
  exact (h.leadsTo_dir wf hdir).of_slash

variable (h : site.Stands fs') (hpath : Extends root path rel) (hrel : staysInside 0 rel = true)

include h hpath

theorem namesTo_eq : fs'.namesTo path = site.known ++ (site.missing ++ rel) := by
  rw [hpath.namesTo_eq, h.namesTo, site.namesTo_eq, List.append_assoc]

include hrel

/-- The place of a directory on the way of a path that goes on from the root: one of the missing names, or
below the site. -/
theorem makesAt (hmakes : MakesAt fs' path location) :
    (∃ front, front <+: site.missing ∧ location = climb site.base front)
      ∨ Beneath site.dir location ∧ ∃ front, front <+: rel ∧ location = site.dir ++ climb [] front := by
  obtain ⟨part, hpart, -, hvacant⟩ := hmakes
  have hnone := entry?_of_vacant hvacant
  obtain ⟨-, hleads⟩ := resolve_eq_ok_iff.1 hvacant
  have hknown := h.leadsTo
  have hunlinked := h.unlinked hrel
  rw [h.namesTo_eq hpath] at hpart
  rcases prefix_append_cases hpart with ⟨rest, hrest⟩ | ⟨more, hne, hmore, hprefix⟩
  · -- The beginning of the known names leads to a directory, and not to nothing.
    obtain ⟨dir, hdir⟩ : ∃ dir, fs'.LeadsTo (fs'.namesTo part) dir := by
      rw [← hrest] at hknown
      by_cases hnil : rest = []
      · exact ⟨site.base, by rwa [hnil, List.append_nil] at hknown⟩
      · exact Leads.split hnil hknown
    cases hleads.follow_vacant.unique (Leads.of_slash hdir)
  · obtain ⟨fewer, hfewer⟩ := hknown.walk_append
    rw [hmore] at hleads
    have hbehind := hfewer.1 hleads hne
    have hlocation : location = _ := hbehind.place_eq (hunlinked.of_prefix hprefix)
    rcases prefix_append_cases hprefix with hmissing | ⟨below, hbelow, rfl, hrel'⟩
    · exact .inl ⟨more, hmissing, hlocation⟩
    · have hdir : fs'.entry? site.dir = some .directory :=
        hbehind.isDirectory_climb hbelow (hunlinked.of_prefix (List.prefix_append _ _))
      obtain ⟨rest, rfl⟩ := hrel'
      rw [climb_append, ← dir, climb_of_staysInside_zero (staysInside_of_append hrel)] at hlocation
      refine .inr ⟨⟨hlocation ▸ List.prefix_append _ _, ?_⟩, below, List.prefix_append _ _, hlocation⟩
      rintro rfl
      simp [hnone] at hdir

/-- A path that goes on from the root leads to the place below the site that its names spell, if it leads
anywhere. -/
theorem place_eq (hne : rel ≠ []) {follow : Bool} {target : Target}
    (hresolve : fs'.resolve follow path = .ok target) : target.place = site.dir ++ climb [] rel := by
  have hplace := place_eq_climb hresolve (h.namesTo_eq hpath) h.leadsTo (h.unlinked hrel)
    fun hnil => absurd (List.append_eq_nil_iff.1 hnil).2 hne
  rwa [climb_append, ← dir, climb_of_staysInside_zero hrel] at hplace

/-- The place where a file is written whose path goes on from the root. -/
theorem writesAt (hne : rel ≠ []) (hwrites : WritesAt fs' path location) :
    Beneath site.dir location ∧ location = site.dir ++ climb [] rel := by
  obtain ⟨target, hresolve, rfl⟩ := hwrites.place
  have hlocation := h.place_eq hpath hrel hne hresolve
  obtain ⟨-, hleads⟩ := resolve_eq_ok_iff.1 hresolve
  obtain ⟨fewer, hfewer⟩ := h.leadsTo.walk_append
  rw [h.namesTo_eq hpath] at hleads
  have hbehind := hfewer.1 hleads (by simp [hne])
  have hdir : fs'.entry? site.dir = some .directory :=
    hbehind.isDirectory_climb hne (Unlinked.of_prefix (h.unlinked hrel) (List.prefix_append _ _))
  refine ⟨⟨hlocation ▸ List.prefix_append _ _, fun heq => ?_⟩, hlocation⟩
  rw [← heq] at hdir
  rcases hwrites with ⟨contents, hfile⟩ | hvacant
  · simp [entry?_of_found hfile] at hdir
  · simp [entry?_of_vacant hvacant] at hdir

end Stands

/-! ### Ready for deployment -/

/-- Only affected places changed so far, and some extra ones; the names that were missing spell no link,
and there is none at or below the site. -/
structure Prepared (site : Site fs root) (extra : Location → Prop) (now : FileSystem) : Prop where
  changes : Changes (fun place => site.Affects place ∨ extra place) fs now
  opened : ∀ front, front <+: site.missing → ∀ text, now.entry? (climb site.base front) ≠ some (.link text)
  unlinked : ∀ place, site.dir <+: place → ∀ text, now.entry? place ≠ some (.link text)

end Site

namespace Site.Prepared

variable {site : Site fs root}

theorem leadsTo (h : site.Prepared extra fs') (hspares : site.Spares extra) :
    fs'.LeadsTo site.known site.base := by
  have hagree : Agree fs fs' (fs.trail maxLinks [] site.known) :=
    h.changes.agree fun place hplace => hspares.not_changed hplace
  rw [LeadsTo, ← walk_eq_ok_iff, walk_congr hagree]
  exact Leads.walk_eq_ok site.leads

/-- Fewer places that may change are also fewer of the larger ones. -/
theorem mono {wider : Location → Prop} (h : site.Prepared extra fs') (hwider : ∀ place, extra place → wider place) :
    site.Prepared wider fs' :=
  ⟨h.changes.weaken (Or.imp_right (hwider _)), h.opened, h.unlinked⟩

/-- Names that stay inside spell no link. -/
theorem unlinked_append (h : site.Prepared extra fs') (hrel : staysInside 0 rel = true) :
    fs'.Unlinked site.base (site.missing ++ rel) := by
  intro front hfront text
  rcases prefix_append_cases hfront with hmissing | ⟨more, -, rfl, hmore⟩
  · exact h.opened front hmissing text
  · obtain ⟨rest, rfl⟩ := hmore
    rw [climb_append]
    refine h.unlinked _ ?_ text
    rw [climb_of_staysInside_zero (staysInside_of_append hrel)]
    exact List.prefix_append _ _

theorem stands (h : site.Prepared extra fs') (hspares : site.Spares extra) : site.Stands fs' :=
  ⟨h.changes.namesTo root, h.leadsTo hspares, h.unlinked_append⟩

/-- The root leads to the site once a directory is there. -/
theorem canonical?_root (h : site.Prepared extra fs') (hspares : site.Spares extra) (hroot : Followable root)
    (wf : fs.WellFormed) (hdir : fs'.entry? site.dir = some .directory) :
    fs'.canonical? root = some site.dir :=
  (h.stands hspares).canonical?_root (h.changes.wellFormed wf) hroot hdir

theorem makesAt (h : site.Prepared extra fs') (hspares : site.Spares extra) (hpath : Extends root path rel)
    (hrel : staysInside 0 rel = true) (hmakes : MakesAt fs' path location) :
    (∃ front, front <+: site.missing ∧ location = climb site.base front)
      ∨ Beneath site.dir location ∧ ∃ front, front <+: rel ∧ location = site.dir ++ climb [] front :=
  (h.stands hspares).makesAt hpath hrel hmakes

theorem place_eq (h : site.Prepared extra fs') (hspares : site.Spares extra) (hpath : Extends root path rel)
    (hrel : staysInside 0 rel = true) (hne : rel ≠ []) {follow : Bool} {target : Target}
    (hresolve : fs'.resolve follow path = .ok target) : target.place = site.dir ++ climb [] rel :=
  (h.stands hspares).place_eq hpath hrel hne hresolve

theorem writesAt (h : site.Prepared extra fs') (hspares : site.Spares extra) (hpath : Extends root path rel)
    (hrel : staysInside 0 rel = true) (hne : rel ≠ []) (hwrites : WritesAt fs' path location) :
    Beneath site.dir location ∧ location = site.dir ++ climb [] rel :=
  (h.stands hspares).writesAt hpath hrel hne hwrites

/-- Something other than a link was put at a place that may change. -/
theorem put (h : site.Prepared extra fs') (hwritable : fs'.Writable location)
    (hallowed : site.Affects location ∨ extra location) (hentry : ∀ text, entry ≠ .link text) :
    site.Prepared extra (fs'.put location entry) where
  changes := h.changes.put hwritable hallowed hentry
  opened := by
    intro front hfront text
    rw [entry?_put _ hwritable.ne_nil]
    split
    · simpa using hentry text
    · exact h.opened front hfront text
  unlinked := by
    intro place hplace text
    rw [entry?_put _ hwritable.ne_nil]
    split
    · simpa using hentry text
    · exact h.unlinked place hplace text

/-- A file was removed from a place that may change. -/
theorem erase (h : site.Prepared extra fs') (wf : fs.WellFormed)
    (hallowed : site.Affects location ∨ extra location) (hentry : fs'.entry? location = some entry)
    (hleaf : entry ≠ .directory) : site.Prepared extra (fs'.erase location) where
  changes := h.changes.erase_leaf (h.changes.wellFormed wf) hallowed hentry hleaf
  opened := by
    intro front hfront text
    rw [entry?_erase]
    split
    · simp
    · exact h.opened front hfront text
  unlinked := by
    intro place hplace text
    rw [entry?_erase]
    split
    · simp
    · exact h.unlinked place hplace text

/-- Something else changed places that may change. -/
theorem trans (h : site.Prepared extra fs') {later : FileSystem}
    (hlater : Changes (fun place => site.Affects place ∨ extra place) fs' later) : site.Prepared extra later where
  changes := h.changes.trans hlater
  opened := fun front hfront text hlink => h.opened front hfront text (hlater.links _ _ hlink)
  unlinked := fun place hplace text hlink => h.unlinked place hplace text (hlater.links _ _ hlink)

theorem trans_extra (h : site.Prepared extra fs') {later : FileSystem} (hextra : Changes extra fs' later) :
    site.Prepared extra later := h.trans (hextra.weaken .inr)

/-- The missing names spell affected places where something can be put. -/
theorem affected_climb (h : site.Prepared extra fs') (hspares : site.Spares extra) (wf : fs.WellFormed)
    (hfront : front <+: site.missing) (hwritable : fs'.Writable (climb site.base front)) :
    site.Affects (climb site.base front) := by
  have hne : front ≠ [] := by
    rintro rfl
    obtain ⟨_, _, -, -, -, hold⟩ := hwritable
    exact hold (h.leadsTo hspares).isDirectory
  exact .inr ⟨climb_prefix_dir hfront, entry?_climb wf hfront hne⟩

/-! ### Operations below the root -/

theorem makeDirectory (h : site.Prepared extra fs') (hspares : site.Spares extra) (wf : fs.WellFormed)
    (hpath : Extends root path rel) (hrel : staysInside 0 rel = true) (hmakes : MakesAt fs' path location) :
    site.Prepared extra (fs'.put location .directory) := by
  have hwritable : fs'.Writable location := by
    obtain ⟨_, -, -, hvacant⟩ := hmakes
    exact writable_of_vacant hvacant
  rcases h.makesAt hspares hpath hrel hmakes with ⟨front, hfront, rfl⟩ | ⟨hbeneath, -⟩
  · exact h.put hwritable (.inl (h.affected_climb hspares wf hfront hwritable)) nofun
  · exact h.put hwritable (.inl (.inl hbeneath)) nofun

theorem writeFile (h : site.Prepared extra fs') (hspares : site.Spares extra) (wf : fs.WellFormed)
    (hpath : Extends root path rel) (hrel : staysInside 0 rel = true) (hne : rel ≠ [])
    (hwrites : WritesAt fs' path location) {contents : ByteArray} :
    site.Prepared extra (fs'.put location (.file contents)) :=
  h.put (hwrites.writable (h.changes.wellFormed wf))
    (.inl (.inl (h.writesAt hspares hpath hrel hne hwrites).1)) nofun

end Site.Prepared

/-- An invariant under which a site stands, and which is kept where paths that go on from the root make directories or write
files. -/
structure Site.Supports (site : Site fs root) (inv : FileSystem → Prop) : Prop where
  stands : ∀ {now}, inv now → site.Stands now
  wellFormed : ∀ {now}, inv now → now.WellFormed
  makes : ∀ {now path rel location}, inv now → Extends root path rel → staysInside 0 rel = true →
    MakesAt now path location → inv (now.put location .directory)
  writes : ∀ {now path rel location contents}, inv now → Extends root path rel → staysInside 0 rel = true →
    rel ≠ [] → WritesAt now path location → inv (now.put location (.file contents))

theorem Site.Spares.supports {site : Site fs root} (hspares : site.Spares extra) (wf : fs.WellFormed) :
    site.Supports (site.Prepared extra) where
  stands := fun h => h.stands hspares
  wellFormed := fun h => h.changes.wellFormed wf
  makes := fun h hpath hrel hmakes => h.makeDirectory hspares wf hpath hrel hmakes
  writes := fun h hpath hrel hne hwrites => h.writeFile hspares wf hpath hrel hne hwrites

/-- The deployment steps keep such an invariant. -/
theorem Site.Supports.deployable {site : Site fs root} {inv : FileSystem → Prop} (h : site.Supports inv)
    (htext : root.text ≠ "") : Deployable root (fun _ => True) inv where
  text_ne := htext
  wellFormed := h.wellFormed
  makes := fun hnow hpath hrel _ hmakes => h.makes hnow hpath hrel hmakes
  writes := fun hnow hpath hrel hne _ hwrites => h.writes hnow hpath hrel hne hwrites

/-- The deployment steps keep a site prepared. -/
theorem Site.Spares.deployable {site : Site fs root} (hspares : site.Spares extra) (wf : fs.WellFormed)
    (htext : root.text ≠ "") : Deployable root (fun _ => True) (site.Prepared extra) :=
  (hspares.supports wf).deployable htext

/-! ### After clearing -/

theorem Pruned.changes {dir : Location} (h : Pruned dir fs fs') : Changes (Beneath dir) fs fs' where
  workingDir := h.workingDir
  wellFormed := fun _ => h.wellFormed
  entries := by
    intro place hplace
    by_cases hroot : place = []
    · rw [hroot, entry?_root, entry?_root]
    · rw [entry?_of_ne hroot, entry?_of_ne hroot]
      rcases h.nodes place with hnode | ⟨-, hbelow⟩
      · rw [hnode]
      · exact absurd hbelow hplace
  links := fun _ _ => h.entry?

section Clearing

variable {site : Site fs root}

/-- A root without missing names is there. -/
theorem Site.resolve_root (site : Site fs root) (hroot : Followable root) (hmissing : site.missing = []) :
    fs.resolve true root = .ok (.found site.dir .directory) := by
  refine resolve_eq_ok_iff.2 ⟨hroot, ?_⟩
  rw [site.namesTo_eq, dir, hmissing, List.append_nil, climb_nil]
  exact site.leads.of_slash

/-- A root with missing names is not. -/
theorem Site.not_holds (site : Site fs root) (hmissing : site.missing ≠ []) : fs.holds root = false := by
  rw [Bool.eq_false_iff]
  intro hholds
  obtain ⟨⟨location, entry⟩, hfound⟩ := Option.isSome_iff_exists.1 hholds
  obtain ⟨-, hleads⟩ := resolve_eq_ok_iff.1 (lookup?_eq_some_iff.1 hfound)
  obtain ⟨name, rest, hcons⟩ := List.exists_cons_of_ne_nil hmissing
  obtain ⟨hdot, hup, hnone⟩ := site.first_missing (⟨[], by simp [hcons]⟩ : name :: rest <+: _)
  obtain ⟨fewer, hfewer⟩ := LeadsTo.walk_append site.leads
  rw [site.namesTo_eq, hcons] at hleads
  obtain ⟨entry', hentry'⟩ := (hfewer.1 hleads (by simp)).exists_first hdot hup
  simp [hnone] at hentry'

/-- Nothing lies at or below a missing site, and no link at one that is there. -/
theorem Site.not_link (site : Site fs root) (wf : fs.WellFormed) {front : List String}
    (hfront : front <+: site.missing) (text : String) :
    fs.entry? (climb site.base front) ≠ some (.link text) := by
  by_cases hnil : front = []
  · rw [hnil, climb_nil, site.leads.isDirectory]
    simp
  · simp [entry?_climb wf hfront hnil]

/-- Clearing changes nothing where the root is missing. -/
theorem clearDirectory_of_missing (site : Site fs root) (hmissing : site.missing ≠ []) :
    (clearDirectory root fs).2 = fs := by
  simp [clearDirectory, site.not_holds hmissing]

/-- Clearing prunes the site, if it is there. -/
theorem clearDirectory_pruned_site (site : Site fs root) (hroot : Followable root) (wf : fs.WellFormed) :
    Pruned site.dir fs (clearDirectory root fs).2 := by
  by_cases hmissing : site.missing = []
  · exact clearDirectory_pruned wf (canonical?_eq_some_iff.2 ⟨_, site.resolve_root hroot hmissing⟩)
  · rw [clearDirectory_of_missing site hmissing]
    exact .refl wf

/-- Nothing lies below a site once the root is cleared. -/
theorem clearDirectory_empties (site : Site fs root) (hroot : Followable root) (wf : fs.WellFormed)
    (hclear : ∀ reason, (clearDirectory root fs).1 ≠ .failed reason) {below : Location} (hbelow : below ≠ []) :
    FileSystem.entry? (clearDirectory root fs).2 (site.dir ++ below) = none := by
  by_cases hmissing : site.missing = []
  · have hresolve := site.resolve_root hroot hmissing
    have hempty : ∀ name, FileSystem.entry? (clearDirectory root fs).2 (site.dir ++ [name]) = none := by
      have hholds : fs.holds root = true := by simp [holds, lookup?_eq_some_iff.2 hresolve]
      unfold clearDirectory toStep lift at hclear ⊢
      rw [if_pos hholds] at hclear ⊢
      rcases hrun : clearEntries root fs with ⟨⟨⟩, fs'⟩ | ⟨fault, fs'⟩
      · simpa only [hrun] using clearEntries_empties wf hresolve hrun
      · simp [hrun] at hclear
    obtain ⟨name, rest, rfl⟩ := List.exists_cons_of_ne_nil hbelow
    have hfirst : site.dir ++ [name] <+: site.dir ++ name :: rest := ⟨rest, by simp⟩
    exact (clearDirectory_pruned_site site hroot wf).wellFormed.entry?_eq_none_of_prefix hfirst (hempty name)
  · rw [clearDirectory_of_missing site hmissing]
    exact wf.entry?_eq_none_of_prefix (List.prefix_append _ _) (Site.entry?_dir wf hmissing)

/-- A site is prepared once the root is cleared. -/
theorem clearDirectory_prepared (site : Site fs root) (hroot : Followable root) (wf : fs.WellFormed)
    (hclear : ∀ reason, (clearDirectory root fs).1 ≠ .failed reason) :
    site.Prepared extra (clearDirectory root fs).2 := by
  have hpruned := clearDirectory_pruned_site site hroot wf
  refine ⟨hpruned.changes.weaken fun h => .inl (.inl h), ?_, ?_⟩
  · exact fun front hfront text hlink => site.not_link wf hfront text (hpruned.entry? hlink)
  · rintro place ⟨below, rfl⟩ text hlink
    by_cases hbelow : below = []
    · rw [hbelow, List.append_nil] at hlink
      exact site.not_link wf (List.prefix_refl _) text (hpruned.entry? hlink)
    · simp [clearDirectory_empties site hroot wf hclear hbelow] at hlink

end Clearing

end Deploy

end ModPackager
