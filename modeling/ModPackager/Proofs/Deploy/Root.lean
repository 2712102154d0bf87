import ModPackager.Proofs.Deploy.Site
import ModPackager.Proofs.FileSystem.Success

/-!
# Roots that lead where they say

A deploy root may be a path on which nothing can ever be made, because a file stands in the way: it is
`Blocked`. A root that is not, and is `Direct`, has a site. Either way the deployment steps keep an
invariant from clearing on, and that invariant confines what they change to the places that the root
affects, next to places that others may change (`exists_confines`).

A root has to be direct for that. A parent behind a missing directory is taken in a directory that is made
on the way, and a way below the root itself is cut off when the root is cleared; in both cases the root leads
somewhere else from then on.
-/

namespace ModPackager.Deploy

open FileSystem FileAction

variable {fs now : FileSystem} {root path : Path} {place location : Location} {entry : Entry}
  {names rel : List String} {extra : Location → Prop} {inv : FileSystem → Prop}

/-! ### Direct roots -/

/-- A root that can be followed, in which every parent is taken in a directory that is there, and whose way
does not run below the directory that it leads to. -/
structure Direct (fs : FileSystem) (root : Path) : Prop where
  followable : Followable root
  parents : ∀ before after, fs.namesTo root = before ++ ".." :: after → ∃ dir, fs.LeadsTo before dir
  outside : ∀ dir, fs.LeadsTo (fs.namesTo root) dir → ∀ place ∈ fs.way root, ¬ Beneath dir place

/-- What laying out a mod may change, if there is a place for it. -/
def Affected (fs : FileSystem) (root : Path) (place : Location) : Prop :=
  ∃ site : Site fs root, site.Affects place

theorem Site.affected_iff (site : Site fs root) : Affected fs root place ↔ site.Affects place := by
  constructor
  · rintro ⟨other, hother⟩
    rwa [Site.Affects, site.dir_unique other] at hother
  · exact fun h => ⟨site, h⟩

/-- Places that have nothing to do with a direct root. -/
structure Aside (fs : FileSystem) (root : Path) (extra : Location → Prop) : Prop where
  way : ∀ place ∈ fs.way root, ¬ extra place
  above : ∀ site : Site fs root, ∀ place, extra place → ¬ place <+: site.dir
  below : ∀ site : Site fs root, ∀ place, extra place → ¬ site.dir <+: place

theorem Aside.spares_of_outside (h : Aside fs root extra) (wf : fs.WellFormed) (site : Site fs root)
    (houtside : ∀ dir, fs.LeadsTo (fs.namesTo root) dir → ∀ place ∈ fs.way root, ¬ Beneath dir place) :
    site.Spares extra where
  way := by
    intro place hplace hchanged
    have hway : place ∈ fs.way root := by
      rw [FileSystem.way, site.namesTo_eq]
      exact trail_append hplace
    rcases hchanged with hbeneath | hextra
    · by_cases hmissing : site.missing = []
      · refine houtside site.dir ?_ place hway hbeneath
        rw [site.namesTo_eq, Site.dir, hmissing, List.append_nil]
        exact site.leads
      · obtain ⟨found, hfound⟩ := Leads.exists_of_mem_trail site.leads hplace
        simp [wf.entry?_eq_none_of_prefix hbeneath.1 (Site.entry?_dir wf hmissing)] at hfound
    · exact h.way place hway hextra
  above := h.above site
  below := h.below site

theorem Aside.spares (h : Aside fs root extra) (direct : Direct fs root) (wf : fs.WellFormed)
    (site : Site fs root) : site.Spares extra := h.spares_of_outside wf site direct.outside

/-! ### Blocked roots -/

/-- Some first names of a root lead to something, but not to a directory. -/
structure Blocked (fs : FileSystem) (root : Path) (front : List String) : Prop where
  front_prefix : front <+: fs.namesTo root
  present : ∃ place entry, Leads fs false maxLinks [] front false (.found place entry)
  nowhere : ∀ dir, ¬ fs.LeadsTo front dir

/-- A root in which every parent is taken in a directory has a site or is blocked. -/
theorem site_or_blocked (wf : fs.WellFormed)
    (hparents : ∀ before after, fs.namesTo root = before ++ ".." :: after → ∃ dir, fs.LeadsTo before dir) :
    Nonempty (Site fs root) ∨ ∃ front, Blocked fs root front := by
  rcases leadsTo_or_stops fs (fs.namesTo root) with ⟨dir, hdir⟩ | ⟨known, name, rest, base, hnames, hbase, hstops⟩
  · exact .inl ⟨⟨fs.namesTo root, [], dir, by simp, hdir, by simp, nofun⟩⟩
  · obtain ⟨hdot, hup⟩ := hbase.ne_of_stops wf hstops
    rcases hentry : fs.entry? (base ++ [name]) with _ | entry
    · refine .inl ⟨⟨known, name :: rest, base, hnames, hbase, ?_, ?_⟩⟩
      · -- A parent among the missing names would be taken behind the first one of them.
        intro hmem
        obtain ⟨before, after, hrest⟩ := List.append_of_mem (List.mem_of_ne_of_mem (Ne.symm hup) hmem)
        obtain ⟨dir, hdir⟩ := hparents (known ++ name :: before) after (by simp [hnames, hrest])
        by_cases hnil : before = []
        · exact hstops dir (hnil ▸ hdir)
        · rw [List.append_cons] at hdir
          obtain ⟨first, hfirst⟩ := Leads.split hnil hdir
          exact hstops first hfirst
      · rintro first more hcons
        obtain ⟨rfl, rfl⟩ := List.cons.inj hcons
        exact ⟨hdot, hentry⟩
    · have hname : Ordinary name := (wf.validName hentry).ordinary
      obtain ⟨fewer, hfewer⟩ := hbase.walk_append
      refine .inr ⟨known ++ [name], ⟨rest, by simp [hnames]⟩, ⟨base ++ [name], entry, ?_⟩, hstops⟩
      refine hfewer.2 ?_ (by simp)
      by_cases hlink : ∃ text, entry = .link text
      · obtain ⟨text, rfl⟩ := hlink
        exact .stop hbase.isDirectory hname hentry rfl
      · exact .enter hbase.isDirectory hname hentry (not_exists.1 hlink) (.arrive hentry nofun)

namespace Blocked

variable {front : List String} (h : Blocked fs root front)

include h

/-- A blocked root stays blocked when nothing changes on the way to it. -/
theorem of_changes (haside : Aside fs root extra) (hchanges : Changes extra fs now) :
    Blocked now root front := by
  have hagree : Agree fs now (fs.trail maxLinks [] front) := by
    refine hchanges.agree fun place hplace => haside.way place ?_
    obtain ⟨rest, hrest⟩ := h.front_prefix
    rw [way, ← hrest]
    exact trail_append hplace
  obtain ⟨place, entry, hpresent⟩ := h.present
  refine ⟨hchanges.namesTo root ▸ h.front_prefix, ⟨place, entry, ?_⟩, fun dir hdir => h.nowhere dir ?_⟩
  · rw [← walk_eq_ok_iff, walk_congr hagree]
    exact hpresent.walk_eq_ok
  · rw [LeadsTo, ← walk_eq_ok_iff, ← walk_congr hagree]
    exact Leads.walk_eq_ok hdir

theorem not_walk_past {follow slash : Bool} {target : Target} (hne : rel ≠ [])
    (hleads : Leads fs follow maxLinks [] (front ++ rel) slash target) : False := by
  obtain ⟨dir, hdir⟩ := hleads.split hne
  exact h.nowhere dir hdir

/-- Nothing is vacant on the way of a path that goes on from a blocked root. -/
theorem not_makesAt (hpath : Extends root path rel) (hne : rel ≠ []) : ¬ MakesAt fs path location := by
  rintro ⟨part, hpart, htrimmed, hvacant⟩
  obtain ⟨⟨-, htext, -⟩, hleads⟩ := resolve_eq_ok_iff.1 hvacant
  obtain ⟨rest, hrest⟩ := h.front_prefix
  rw [hpath.namesTo_eq, ← hrest, List.append_assoc] at hpart
  rcases prefix_append_cases hpart with ⟨more, hmore⟩ | ⟨more, hmore, hnames, -⟩
  · obtain ⟨place, entry, hpresent⟩ := h.present
    rw [← hmore] at hpresent
    by_cases hnil : more = []
    · -- The part ends where something is, so a vacant place would need a slash at its end.
      rw [hnil, List.append_nil] at hpresent
      cases hslash : fs.slashOf part with
      | false =>
          rw [hslash] at hleads
          cases hleads.unique hpresent
      | true =>
          have hroot := namesTo_of_slash (htrimmed (hpath.trimmed hne)) htext hslash
          refine h.nowhere [] ?_
          rw [← hmore, hnil, hroot]
          exact leadsTo_nil fs
    · obtain ⟨dir, hdir⟩ := hpresent.split hnil
      cases hleads.follow_vacant.unique (Leads.of_slash hdir)
  · rw [hnames] at hleads
    exact h.not_walk_past hmore hleads

theorem not_writesAt (hpath : Extends root path rel) (hne : rel ≠ []) : ¬ WritesAt fs path location := by
  intro hwrites
  obtain ⟨target, hresolve, -⟩ := hwrites.place
  obtain ⟨-, hleads⟩ := resolve_eq_ok_iff.1 hresolve
  obtain ⟨rest, hrest⟩ := h.front_prefix
  rw [hpath.namesTo_eq, ← hrest, List.append_assoc] at hleads
  exact h.not_walk_past (by simp [hne]) hleads

/-- Below a blocked root no directory is made. -/
theorem createDirectories_fails (hpath : Extends root path rel) (hne : rel ≠ []) :
    createDirectories path fs ≠ .ok () now := by
  intro hrun
  have hsame : Maintains (fun now => now = fs) (createDirectories path) fun _ => True := by
    refine createDirectories_maintains ?_
    rintro _ location rfl hmakes
    exact absurd hmakes (h.not_makesAt hpath hne)
  obtain ⟨rfl, -⟩ := hsame.ok rfl hrun
  obtain ⟨dir, hresolve⟩ := holdsDirectory_iff.1 (createDirectories_holds hpath.text_ne hrun)
  have hleads := leadsTo_of_resolve hresolve
  obtain ⟨rest, hrest⟩ := h.front_prefix
  rw [hpath.namesTo_eq, ← hrest, List.append_assoc] at hleads
  exact h.not_walk_past (by simp [hne]) hleads

theorem not_holdsDirectory : fs.holdsDirectory root = false := by
  rw [Bool.eq_false_iff, ne_eq, holdsDirectory_iff]
  rintro ⟨dir, hresolve⟩
  obtain ⟨rest, hrest⟩ := h.front_prefix
  have hleads := leadsTo_of_resolve hresolve
  rw [← hrest] at hleads
  by_cases hnil : rest = []
  · exact h.nowhere dir (by rwa [hnil, List.append_nil] at hleads)
  · exact h.not_walk_past hnil hleads

/-- A blocked root has no site. -/
theorem not_affected (place : Location) : ¬ Affected fs root place := by
  rintro ⟨site, -⟩
  have hprefix := site.namesTo_eq ▸ h.front_prefix
  rcases prefix_append_cases hprefix with ⟨rest, hrest⟩ | ⟨more, hmore, rfl, hmissing⟩
  · have hknown := site.leads
    rw [← hrest] at hknown
    by_cases hnil : rest = []
    · exact h.nowhere _ (by rwa [hnil, List.append_nil] at hknown)
    · exact h.not_walk_past hnil hknown
  · obtain ⟨name, rest, rfl⟩ := List.exists_cons_of_ne_nil hmore
    obtain ⟨hdot, hup, hnone⟩ := site.first_missing hmissing
    obtain ⟨place, entry, hpresent⟩ := h.present
    obtain ⟨fewer, hfewer⟩ := LeadsTo.walk_append site.leads
    obtain ⟨found, hfound⟩ := (hfewer.1 hpresent hmore).exists_first hdot hup
    simp [hnone] at hfound

end Blocked

/-! ### What the deployment steps change -/

/-- An invariant of the deployment steps that confines their changes to what the root affects, next to
extra places. Others may change extra places meanwhile, and the steps themselves any place of both kinds. -/
structure Confines (fs : FileSystem) (root : Path) (extra : Location → Prop) (inv : FileSystem → Prop) :
    Prop extends Deployable root (fun _ => True) inv where
  changes : ∀ {now}, inv now → Changes (fun place => Affected fs root place ∨ extra place) fs now
  closed : ∀ {now later}, inv now → Changes extra now later → inv later
  put : ∀ {now location entry}, inv now → now.Writable location →
    Affected fs root location ∨ extra location → (∀ text, entry ≠ .link text) → inv (now.put location entry)
  erase : ∀ {now location entry}, inv now → Affected fs root location ∨ extra location →
    now.entry? location = some entry → entry ≠ .directory → inv (now.erase location)

theorem Site.confines (site : Site fs root) (hspares : site.Spares extra) (wf : fs.WellFormed)
    (htext : root.text ≠ "") : Confines fs root extra (site.Prepared extra) where
  toDeployable := hspares.deployable wf htext
  changes := fun h => h.changes.weaken fun hplace => hplace.imp_left site.affected_iff.2
  closed := fun h hextra => h.trans_extra hextra
  put := fun h hwritable hallowed hentry =>
    h.put hwritable (hallowed.imp_left site.affected_iff.1) hentry
  erase := fun h hallowed hentry hleaf =>
    h.erase wf (hallowed.imp_left site.affected_iff.1) hentry hleaf

theorem Blocked.confines {front : List String} (h : Blocked fs root front) (haside : Aside fs root extra)
    (wf : fs.WellFormed) (htext : root.text ≠ "") : Confines fs root extra (Changes extra fs) where
  text_ne := htext
  wellFormed := fun hnow => hnow.wellFormed wf
  makes := fun hnow hpath _ hne hmakes => absurd hmakes ((h.of_changes haside hnow).not_makesAt hpath hne)
  writes := fun hnow hpath _ hne _ hwrites => absurd hwrites ((h.of_changes haside hnow).not_writesAt hpath hne)
  changes := fun hnow => hnow.weaken .inr
  closed := fun hnow hextra => hnow.trans hextra
  put := fun hnow hwritable hallowed hentry =>
    hnow.put hwritable (hallowed.resolve_left (h.not_affected _)) hentry
  erase := fun hnow hallowed hentry hleaf =>
    hnow.erase_leaf (hnow.wellFormed wf) (hallowed.resolve_left (h.not_affected _)) hentry hleaf

/-- Whatever the root, an invariant confines what the deployment steps change once the root is cleared. -/
theorem exists_confines (direct : Direct fs root) (haside : Aside fs root extra) (wf : fs.WellFormed)
    (hclear : ∀ reason, (clearDirectory root fs).1 ≠ .failed reason) :
    ∃ inv, Confines fs root extra inv ∧ inv (clearDirectory root fs).2 := by
  rcases site_or_blocked wf direct.parents with ⟨⟨site⟩⟩ | ⟨front, hblocked⟩
  · exact ⟨_, site.confines (haside.spares direct wf site) wf direct.followable.2.1,
      clearDirectory_prepared site direct.followable wf hclear⟩
  · refine ⟨_, hblocked.confines haside wf direct.followable.2.1, ?_⟩
    rw [clearDirectory_of_not_directory hblocked.not_holdsDirectory]
    exact .refl fs

end ModPackager.Deploy
