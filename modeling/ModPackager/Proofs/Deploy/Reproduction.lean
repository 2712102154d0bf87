import ModPackager.Proofs.Deploy.Room
import ModPackager.Proofs.FileSystem.Moved

/-!
# Copying reproduces a tree

A source and a root that have nothing to do with each other are a `Setting`. There a copy succeeds just if the source is whole
and there is room for it, and then every entry below the source is `Reproduced` at the root. Whatever comes of a copy, it is
`Confined` to what the root affects (`copyTree_reproduces`).
-/

namespace ModPackager.Deploy

open FileSystem FileAction

variable {fs now : FileSystem} {root source : Path} {place dir : Location} {entry : Entry} {name : String}
  {names front : List String} {site : Site fs root}

/-! ### Reproduction -/

/-- The entries of a tree were copied to a root, and nothing else changed but that missing directories on the way to the root
were made. -/
structure Reproduced (fs : FileSystem) (source root : Path) (now : FileSystem) : Prop where
  copies : ∀ names entry, names ≠ [] → Layer.ofTree fs source names = some entry →
    ∃ place, now.resolve false (root.descend names) = .ok (.found place entry)
  others : ∀ place, now.entry? place ≠ fs.entry? place →
    (∃ names entry, names ≠ [] ∧ Layer.ofTree fs source names = some entry
      ∧ now.resolve false (root.descend names) = .ok (.found place entry))
    ∨ fs.entry? place = none ∧ now.entry? place = some .directory ∧ ∃ dir, now.canonical? root = some dir ∧ place <+: dir

/-- A root to which a source can be copied without one getting in the way of the other: every parent on the way to the root is
taken in a directory that is there, or behind something that is none. -/
structure Setting (fs : FileSystem) (source root : Path) : Prop where
  wellFormed : fs.WellFormed
  working : root.isAbsolute = false → fs.holdsDirectory ⟨"."⟩ = true
  text_ne : root.text ≠ ""
  parents : ∀ before after, fs.namesTo root = before ++ ".." :: after →
    (∃ dir, fs.LeadsTo before dir) ∨ ∃ front, Blocked fs root front
  disjoint : ∀ site : Site fs root, site.Disjoint source

theorem Setting.site_or_blocked (h : Setting fs source root) : Nonempty (Site fs root) ∨ ∃ front, Blocked fs root front := by
  by_cases hblocked : ∃ front, Blocked fs root front
  · exact .inr hblocked
  · exact Deploy.site_or_blocked h.wellFormed fun before after hnames =>
      (h.parents before after hnames).resolve_right hblocked

/-- What a copy does, whatever comes of it: it changes nothing but what the root affects, and not the source. -/
structure Confined (fs : FileSystem) (source root : Path) (now : FileSystem) : Prop where
  places : ∀ place, now.entry? place ≠ fs.entry? place → Affected fs root place
  source : ∀ names, (∀ name ∈ names, ValidName name) →
    now.lookup? (source.descend names) = fs.lookup? (source.descend names)

theorem Site.copyTree_overlaid (hdisjoint : site.Disjoint source) (wf : fs.WellFormed) (htext : root.text ≠ "") :
    site.Overlaid (copyTree source root fs).2 :=
  ((Site.Overlaid.supports wf hdisjoint).deployable htext).copyTree (fun _ _ _ => trivial) (site.overlaid_refl wf)

theorem Site.Overlaid.confined (h : site.Overlaid now) (hdisjoint : site.Disjoint source)
    (hsource : fs.holdsDirectory source = true) : Confined fs source root now where
  places := fun place hchanged => site.affected_iff.2 (by_contra fun hspared => hchanged (h.entries place hspared))
  source := Site.Overlaid.keepsTree hdisjoint hsource now h

theorem Whole.not_link (h : Whole fs source) (hsource : source.text ≠ "") (hnames : names ≠ [])
    (hentry : Layer.ofTree fs source names = some entry) : ∀ text, entry ≠ .link text := by
  obtain ⟨place, found, hlookup, hlink⟩ := h.present names (listed_of_ofTree hsource hnames hentry)
  obtain ⟨-, place', hlookup'⟩ := ofTree_eq_some.1 hentry
  cases hlookup.symm.trans hlookup'
  exact hlink

theorem slashOf_descend (hvalid : ∀ name ∈ names, ValidName name) (hnames : names ≠ []) :
    now.slashOf (root.descend names) = false := by
  obtain ⟨front, last, rfl⟩ := (List.eq_nil_or_concat' names).resolve_left hnames
  obtain ⟨hne, -, -, hslash, -⟩ := hvalid last (by simp)
  rw [Path.descend_concat, slashOf_child hne hslash]

/-- A copy that succeeds reproduces the tree at the site. -/
theorem Site.reproduced (wf : fs.WellFormed) (hdisjoint : site.Disjoint source) (htext : root.text ≠ "")
    (hwhole : Whole fs source) (hroom : Room fs source root) (hsuccess : (copyTree source root fs).1.outcome = .success) :
    Reproduced fs source root (copyTree source root fs).2 := by
  obtain ⟨dir, hdir⟩ := holdsDirectory_iff.1 hwhole.directory
  obtain ⟨⟨-, hsource, -⟩, -⟩ := resolve_eq_ok_iff.1 hdir
  have hsupports := Site.Overlaid.supports wf hdisjoint
  have hstart : site.Bears site.Overlaid (fun rel => fs.entry? (site.dir ++ rel)) fs := ⟨site.overlaid_refl wf, fun _ _ => rfl⟩
  have hkeeps := Site.Overlaid.keepsTree hdisjoint hwhole.directory
  have hlaid := copyTree_laid hsupports hkeeps htext hstart fun reason hfailed => by
    rw [hsuccess] at hfailed
    cases hfailed
  have hbefore : fs.names dir = [] → (copyTree source root fs).2 = fs := copyTree_of_bare hdir
  generalize (copyTree source root fs).2 = now at hlaid hbefore ⊢
  have hnow := hlaid.prepared
  have hstands := hsupports.stands hnow
  have hplace : ∀ {names entry}, names ≠ [] → Layer.ofTree fs source names = some entry →
      now.entry? (site.dir ++ names) = some entry := by
    intro names entry hnames hentry
    rw [hlaid.lays names hnames, Layer.over_apply, hentry, Option.some_or]
  have hcopies : ∀ {names entry}, names ≠ [] → Layer.ofTree fs source names = some entry →
      now.resolve false (root.descend names) = .ok (.found (site.dir ++ names) entry) := by
    intro names entry hnames hentry
    have hvalid := (ofTree_eq_some.1 hentry).1
    have hlink := hwhole.not_link hsource hnames hentry
    refine resolve_eq_ok_iff.2 ⟨(hroom.limits names entry hnames hentry).followable, ?_⟩
    rw [hstands.namesTo_eq (extends_descend htext hvalid), slashOf_descend hvalid hnames]
    exact hstands.leads_descend hvalid hnames hnow.wellFormed (hplace hnames hentry) hlink
  refine ⟨fun names entry hnames hentry => ⟨_, hcopies hnames hentry⟩, fun place hchanged => ?_⟩
  have haffects : site.Affects place := by_contra fun hspared => hchanged (hnow.entries place hspared)
  rcases haffects with hbeneath | ⟨habove, hnone⟩
  · obtain ⟨names, hnames, rfl⟩ := beneath_iff.1 hbeneath
    rcases hentry : Layer.ofTree fs source names with _ | entry
    · rw [hlaid.lays names hnames, Layer.over_apply, hentry, Option.none_or] at hchanged
      exact absurd rfl hchanged
    · exact .inl ⟨names, entry, hnames, hentry, hcopies hnames hentry⟩
  · refine .inr ⟨hnone, ?_, site.dir, ?_, habove⟩
    · rcases hentry : now.entry? place with _ | found
      · exact absurd (hentry.trans hnone.symm) hchanged
      · rw [hnow.above place found habove hentry]
    · -- Something was copied, since something changed, and it lies at the site now.
      obtain ⟨name, hname⟩ : ∃ name, name ∈ fs.names dir := by
        refine List.exists_mem_of_ne_nil _ fun hbare => ?_
        rw [hbefore hbare] at hchanged
        exact hchanged rfl
      obtain ⟨entry, hentry⟩ := Option.isSome_iff_exists.1 (mem_names.1 hname)
      have hlisted := listed_of_entry wf hdir hentry
      obtain ⟨_, copied, hlookup, -⟩ := hwhole.present _ hlisted
      have hcopied : Layer.ofTree fs source [name] = some copied := ofTree_eq_some.2 ⟨hlisted.1, _, hlookup⟩
      have hthere : now.entry? site.dir = some .directory :=
        hnow.wellFormed.isDirectory_of_child (hplace (List.cons_ne_nil _ _) hcopied)
      have hfollow := (hroom.limits _ _ (List.cons_ne_nil _ _) hcopied).followable
      exact hstands.canonical?_root hnow.wellFormed
        (hfollow.of_child (hlisted.1 name List.mem_cons_self).2.2.2.1 htext) hthere

/-- Whatever is copied to a blocked root, nothing changes. -/
theorem Blocked.copyTree_unchanged (h : Blocked fs root front) (source : Path) (htext : root.text ≠ "") (wf : fs.WellFormed) :
    Changes (fun _ => False) fs (copyTree source root fs).2 := by
  have haside : Aside fs root fun _ => False := ⟨fun _ _ => id, fun _ _ => False.elim, fun _ _ => False.elim⟩
  exact (h.confines haside wf htext).toDeployable.copyTree (fun _ _ _ => trivial) (.refl fs)

theorem confined_of_changes (h : Changes (fun _ => False) fs now) : Confined fs source root now where
  places := fun place hchanged => absurd (h.entries place id) hchanged
  source := fun names _ => by rw [lookup?, lookup?, h.lookup fun _ _ => id]

/-- At a blocked root nothing was there to be copied. -/
theorem Blocked.reproduced (h : Blocked fs root front) (htext : root.text ≠ "") (wf : fs.WellFormed) (hwhole : Whole fs source)
    (hroom : Room fs source root) (hsame : Changes (fun _ => False) fs now) : Reproduced fs source root now where
  copies := by
    intro names entry hnames hentry
    obtain ⟨dir, hdir⟩ := holdsDirectory_iff.1 hwhole.directory
    obtain ⟨⟨-, hsource, -⟩, -⟩ := resolve_eq_ok_iff.1 hdir
    exact absurd (listed_of_ofTree hsource hnames hentry)
      (not_listed_of_bare hdir ((h.room_iff htext wf hdir).1 ⟨hwhole, hroom⟩))
  others := fun place hchanged => absurd (hsame.entries place id) hchanged

/-! ### Every outcome -/

/-- Copying reproduces the tree of a directory, just if it is whole and there is room for it, and fails otherwise. -/
theorem copyTree_reproduces (fs : FileSystem) (source root : Path) :
    (fs.holdsDirectory source = false →
      (∃ reason, (copyTree source root fs).1.outcome = .failed reason) ∧ (copyTree source root fs).2 = fs)
    ∧ (Setting fs source root →
      ((copyTree source root fs).1.outcome = .success ↔ Whole fs source ∧ Room fs source root)
      ∧ ((copyTree source root fs).1.outcome ≠ .success → ∃ reason, (copyTree source root fs).1.outcome = .failed reason)
      ∧ ((copyTree source root fs).1.outcome = .success → Reproduced fs source root (copyTree source root fs).2)
      ∧ Confined fs source root (copyTree source root fs).2) := by
  refine ⟨fun hgone => ⟨copyTree_fails fun hsuccess => ?_, copyTree_of_not_directory hgone⟩, fun setting => ?_⟩
  · rw [(copyTree_success_iff.1 hsuccess).1] at hgone
    cases hgone
  have wf := setting.wellFormed
  have htext := setting.text_ne
  by_cases hsource : fs.holdsDirectory source = true
  · rcases setting.site_or_blocked with ⟨⟨site⟩⟩ | ⟨front, hblocked⟩
    · have hdisjoint := setting.disjoint site
      have hexact := site.copyTree_success_iff wf hdisjoint setting.working htext
      refine ⟨hexact, copyTree_fails, fun hsuccess => ?_, (site.copyTree_overlaid hdisjoint wf htext).confined hdisjoint hsource⟩
      obtain ⟨hwhole, hroom⟩ := hexact.1 hsuccess
      exact site.reproduced wf hdisjoint htext hwhole hroom hsuccess
    · have hexact := hblocked.copyTree_success_iff source htext wf
      have hsame := hblocked.copyTree_unchanged source htext wf
      refine ⟨hexact, copyTree_fails, fun hsuccess => ?_, confined_of_changes hsame⟩
      obtain ⟨hwhole, hroom⟩ := hexact.1 hsuccess
      exact hblocked.reproduced htext wf hwhole hroom hsame
  · have hgone := Bool.eq_false_iff.2 hsource
    rw [copyTree_of_not_directory hgone]
    have hfails : (copyTree source root fs).1.outcome ≠ .success := fun hsuccess => hsource (copyTree_success_iff.1 hsuccess).1
    exact ⟨iff_of_false hfails fun hwhole => hsource hwhole.1.directory, copyTree_fails, fun hsuccess => absurd hsuccess hfails,
      confined_of_changes (.refl fs)⟩

/-! ### Sources that nothing leads out of -/

/-- A source that nothing leads out of is disjoint from every site that is neither inside of it nor around it. -/
theorem Site.disjoint_of_enclosed (hdir : fs.resolve true source = .ok (.found dir .directory)) (henclosed : Enclosed fs dir)
    (hinside : ¬ dir <+: site.dir) (haround : ¬ site.dir <+: dir)
    (hunlinked : ∀ place text, site.dir <+: place → fs.entry? place ≠ some (.link text)) : site.Disjoint source := by
  have hleads := leadsTo_of_resolve hdir
  obtain ⟨⟨-, hsource, -⟩, -⟩ := resolve_eq_ok_iff.1 hdir
  have hapart : ∀ {place}, dir <+: place → ¬ site.dir <+: place ∧ ¬ place <+: site.dir := fun hplace =>
    ⟨fun hsite => (List.prefix_or_prefix_of_prefix hplace hsite).elim hinside haround, fun hsite => hinside (hplace.trans hsite)⟩
  have hup : ∀ {names : List String}, (∀ name ∈ names, ValidName name) → ".." ∉ names := fun hvalid hmem =>
    (hvalid _ hmem).2.2.1 rfl
  refine ⟨fun names hvalid place entry hfound => ?_, fun names hlisted _ place hplace hnone haffects => ?_, hunlinked⟩
  · by_cases hnil : names = []
    · subst hnil
      cases (lookup?_eq_some_iff.2 hdir).symm.trans hfound
      exact ⟨haround, hinside⟩
    · obtain ⟨fewer, hfewer⟩ := LeadsTo.walk_append hleads
      obtain ⟨-, hbehind⟩ := resolve_eq_ok_iff.1 (lookup?_eq_some_iff.1 hfound)
      rw [FileSystem.namesTo_descend hsource hvalid] at hbehind
      exact hapart (henclosed _ _ (hup hvalid) _ (hfewer.1 hbehind hnil).found_mem_trail)
  · obtain ⟨fewer, hfewer⟩ := Leads.mem_trail_append hleads
    rw [way, FileSystem.namesTo_descend hsource hlisted.1, hfewer] at hplace
    rcases hplace with hway | hbehind
    · obtain ⟨found, hfound⟩ := Leads.exists_of_mem_trail hleads hway
      simp [hnone] at hfound
    · obtain ⟨hoff, hnotAbove⟩ := hapart (henclosed _ _ (hup hlisted.1) _ hbehind)
      exact haffects.elim (fun hbeneath => hoff hbeneath.1) fun habove => hnotAbove habove.1

/-- A tree that a link leads to, and a directory where a file of the tree is there already. -/
def oldCopy : FileSystem :=
  .ofEntries ⟨"/"⟩ [(["l"], .link "s"), (["s"], .directory), (["s", "d"], .directory), (["s", "d", "a"], .file "new".toUTF8),
    (["out"], .directory), (["out", "d"], .directory), (["out", "d", "a"], .file "old".toUTF8),
    (["out", "d", "kept"], .file "kept".toUTF8)]

/-- The copy is to lie where the root leads back to. -/
def oldSite : Site oldCopy ⟨"/out/d/.."⟩ where
  known := ["out", "d", ".."]
  missing := []
  base := ["out"]
  namesTo_eq := by decide +kernel
  leads := leadsTo_of_resolve (by decide +kernel : oldCopy.resolve true ⟨"/out/d/.."⟩ = .ok (.found ["out"] .directory))
  noParent := List.not_mem_nil
  absent := fun _ _ hmissing => absurd hmissing.symm (List.cons_ne_nil _ _)

theorem setting_oldCopy : Setting oldCopy ⟨"/l"⟩ ⟨"/out/d/.."⟩ where
  wellFormed := by decide +kernel
  working := fun _ => by decide +kernel
  text_ne := by decide
  parents := by
    intro before after hnames
    have hsplit : before ++ ".." :: after = ["out", "d", ".."] := hnames.symm.trans (by decide +kernel)
    have hbefore : before = ["out", "d"] := by
      rcases before with _ | ⟨first, _ | ⟨second, _ | ⟨third, rest⟩⟩⟩ <;> simp_all
    have hleads : oldCopy.LeadsTo ["out", "d"] ["out", "d"] := leadsTo_of_resolve
      (by decide +kernel : oldCopy.resolve true ⟨"/out/d"⟩ = .ok (.found ["out", "d"] .directory))
    exact .inl ⟨["out", "d"], hbefore ▸ hleads⟩
  disjoint := by
    intro site
    have hsite : site.dir = ["out"] := oldSite.dir_unique site
    have hlies : LiesIn oldCopy oldCopy ["s"] ["s"] := by decide +kernel
    have hdir : oldCopy.entry? ["s"] = some .directory := by decide +kernel
    have hplain : ∀ node ∈ oldCopy.nodes, ["out"] <+: node.1 → oldCopy.entry? node.1 = some .directory
        ∨ oldCopy.entry? node.1 = some (.file "old".toUTF8) ∨ oldCopy.entry? node.1 = some (.file "kept".toUTF8) := by
      decide +kernel
    refine site.disjoint_of_enclosed (by decide +kernel : oldCopy.resolve true ⟨"/l"⟩ = .ok (.found ["s"] .directory))
      (sameTree_of_liesIn hlies hlies hdir hdir).enclosed ?_ ?_ fun place text hplace hlink => ?_
    · rw [hsite]
      decide
    · rw [hsite]
      decide
    · rw [hsite] at hplace
      have hne : place ≠ [] := by
        rintro rfl
        cases hlink
      obtain ⟨node, hmem⟩ := exists_mem_nodes hlink hne
      rcases hplain _ hmem hplace with hentry | hentry | hentry <;> cases hlink.symm.trans hentry

/-- The copy is laid over the old one: the file gets the new bytes. A file is not copied as a tree. -/
theorem copyTree_reproduces_oldCopy :
    (∃ reason, (copyTree ⟨"/s/d/a"⟩ ⟨"/out/d/.."⟩ oldCopy).1.outcome = .failed reason)
    ∧ Setting oldCopy ⟨"/l"⟩ ⟨"/out/d/.."⟩ ∧ (copyTree ⟨"/l"⟩ ⟨"/out/d/.."⟩ oldCopy).1.outcome = .success
    ∧ Whole oldCopy ⟨"/l"⟩ ∧ Room oldCopy ⟨"/l"⟩ ⟨"/out/d/.."⟩
    ∧ (∃ place, FileSystem.resolve (copyTree ⟨"/l"⟩ ⟨"/out/d/.."⟩ oldCopy).2 false ⟨"/out/d/../d/a"⟩
        = .ok (.found place (.file "new".toUTF8)))
    ∧ Confined oldCopy ⟨"/l"⟩ ⟨"/out/d/.."⟩ (copyTree ⟨"/l"⟩ ⟨"/out/d/.."⟩ oldCopy).2 := by
  obtain ⟨hfile, -⟩ := (copyTree_reproduces oldCopy ⟨"/s/d/a"⟩ ⟨"/out/d/.."⟩).1 (by decide +kernel)
  obtain ⟨hexact, -, hreproduced, hconfined⟩ := (copyTree_reproduces oldCopy ⟨"/l"⟩ ⟨"/out/d/.."⟩).2 setting_oldCopy
  have hsuccess : (copyTree ⟨"/l"⟩ ⟨"/out/d/.."⟩ oldCopy).1.outcome = .success := by decide +kernel
  obtain ⟨hwhole, hroom⟩ := hexact.1 hsuccess
  have htree : Layer.ofTree oldCopy ⟨"/l"⟩ ["d", "a"] = some (.file "new".toUTF8) := by decide +kernel
  exact ⟨hfile, setting_oldCopy, hsuccess, hwhole, hroom,
    (hreproduced hsuccess).copies ["d", "a"] _ (List.cons_ne_nil _ _) htree, hconfined⟩

/-! ### Where copying does something else -/

/-- Only to a root whose path is not too long a directory with entries is copied. -/
theorem followable_of_copyTree (hsuccess : (copyTree source root fs).1.outcome = .success)
    (hdir : fs.resolve true source = .ok (.found dir .directory)) (hname : name ∈ fs.names dir)
    (htext : (root.child name).text ≠ "") : Followable (root.child name) := by
  obtain ⟨-, hsucceeds⟩ := copyTree_success_iff.1 hsuccess
  obtain ⟨⟨location, entry⟩, s, hentry, hcopy⟩ := succeeds_bind.1 hsucceeds
  obtain ⟨rfl, -⟩ := entryOf_inv hentry
  obtain ⟨fuel, hfuel⟩ : ∃ fuel, depthLimit = fuel + 1 := ⟨tooLong - 1, rfl⟩
  have hbelow : Succeeds (copyBelow (fuel + 1) [⟨source, location⟩] source root) s := hfuel ▸ hcopy
  rw [copyBelow_succ] at hbelow
  obtain ⟨names, s', hread, value, s'', hloop⟩ := succeeds_bind.1 hbelow
  rw [lift_eq_ok, readNames_of_directory hdir] at hread
  cases hread
  obtain ⟨count, t, count', t', hrun⟩ := exists_of_foldlM hloop hname
  obtain ⟨_, _, -, ⟨-, between, _, _, hmade, -⟩ | ⟨-, between, -, hfile⟩⟩ := copyEntry_inv hrun
  · obtain ⟨place, hresolve⟩ := holdsDirectory_iff.1 (createDirectories_holds htext hmade)
    exact (resolve_eq_ok_iff.1 hresolve).1
  · obtain ⟨_, _, _, _, -, hempty, -⟩ := copyFile_inv hfile
    obtain ⟨place, hwrites, -⟩ := writeBytes_inv hempty
    obtain ⟨target, hresolve, -⟩ := hwrites.place
    exact (resolve_eq_ok_iff.1 hresolve).1

/-- To a root whose path is too long no directory with entries is copied. -/
theorem copyTree_of_long (hlong : tooLong ≤ root.text.utf8ByteSize) (wf : fs.WellFormed)
    (hdir : fs.resolve true source = .ok (.found dir .directory)) (hname : name ∈ fs.names dir) :
    (copyTree source root fs).1.outcome ≠ .success := by
  intro hsuccess
  obtain ⟨entry, hentry⟩ := Option.isSome_iff_exists.1 (mem_names.1 hname)
  obtain ⟨hne, -, -, hslash, -⟩ := wf.validName hentry
  obtain ⟨-, -, hshort⟩ := followable_of_copyTree hsuccess hdir hname (Path.text_child_ne hne hslash)
  have hlonger : root.text.utf8ByteSize + 1 ≤ (root.child name).text.utf8ByteSize :=
    Path.size_add_length_le root (List.forall_mem_singleton.2 ⟨hne, hslash⟩)
  omega

/-- A link that leads through a directory which is missing where the tree is copied to. -/
def danglingLink : FileSystem :=
  .ofEntries ⟨"/"⟩ [(["s"], .directory), (["s", "d"], .directory), (["s", "d", "z"], .link "../../out/d/../../x"),
    (["x"], .file "x".toUTF8)]

/-- A directory with a file, and another file beside it. -/
def besideFile : FileSystem :=
  .ofEntries ⟨"/"⟩ [(["f"], .file "f".toUTF8), (["s"], .directory), (["s", "a"], .file "a".toUTF8)]

/-- A link that dangles is copied once the copy itself has made the directory that it misses.

A parent behind a missing directory of the source makes a new directory in the source, and what is in the way behind such a
parent is not there until then. A name that is too long keeps a tree from being copied, and so does a working directory that is
gone, though nothing is in the way. The empty path is no directory, even after a copy to it. -/
theorem copyTree_deviates :
    (danglingLink.WellFormed ∧ Listed danglingLink ⟨"/s"⟩ ["d", "z"] ∧ danglingLink.lookup? ⟨"/s/d/z"⟩ = none
      ∧ danglingLink.holds ⟨"/out"⟩ = false ∧ (copyTree ⟨"/s"⟩ ⟨"/out"⟩ danglingLink).1.outcome = .success)
    ∧ (besideFile.WellFormed ∧ (copyTree ⟨"/s"⟩ ⟨"/s/b/../../out"⟩ besideFile).1.outcome = .success
      ∧ FileSystem.canonical? (copyTree ⟨"/s"⟩ ⟨"/s/b/../../out"⟩ besideFile).2 ⟨"/s/b/../../out"⟩ = some ["out"]
      ∧ besideFile.lookup? ⟨"/s/b"⟩ = none
      ∧ FileSystem.lookup? (copyTree ⟨"/s"⟩ ⟨"/s/b/../../out"⟩ besideFile).2 ⟨"/s/b"⟩ = some (["s", "b"], .directory))
    ∧ ((∀ path ∈ [⟨"/m"⟩, ⟨"/m/.."⟩, ⟨"/m/../f"⟩, ⟨"/m/../f/x"⟩, ⟨"/m/../f/x/a"⟩], besideFile.lookup? path = none)
      ∧ (copyTree ⟨"/s"⟩ ⟨"/m/../f/x"⟩ besideFile).1.outcome ≠ .success)
    ∧ (copyTree ⟨"/s"⟩ ⟨String.ofList (List.replicate tooLong 'o')⟩ besideFile).1.outcome ≠ .success
    ∧ (copyTree ⟨"/s"⟩ ⟨"out"⟩ { besideFile with workingDir := ⟨"/gone"⟩ }).1.outcome ≠ .success
    ∧ ((copyTree ⟨"/s"⟩ ⟨""⟩ besideFile).1.outcome = .success
      ∧ FileSystem.holdsDirectory (copyTree ⟨"/s"⟩ ⟨""⟩ besideFile).2 ⟨""⟩ = false) := by
  have hlisted : Listed danglingLink ⟨"/s"⟩ ["d", "z"] :=
    ⟨by decide, ["d"], "z", ["s", "d"], .link "../../out/d/../../x", rfl, by decide +kernel, by decide +kernel⟩
  have hlong : (copyTree ⟨"/s"⟩ ⟨String.ofList (List.replicate tooLong 'o')⟩ besideFile).1.outcome ≠ .success := by
    have hsize : ∀ count, (String.ofList (List.replicate count 'o')).utf8ByteSize = count := by
      intro count
      induction count with
      | zero => rfl
      | succ count ih =>
          rw [List.replicate_succ, String.ofList_cons, String.utf8ByteSize_append, ih, Nat.add_comm]
          rfl
    exact copyTree_of_long (hsize tooLong).ge (by decide +kernel)
      (by decide +kernel : besideFile.resolve true ⟨"/s"⟩ = .ok (.found ["s"] .directory))
      (by decide +kernel : "a" ∈ besideFile.names ["s"])
  exact ⟨⟨by decide +kernel, hlisted, by decide +kernel, by decide +kernel, by decide +kernel⟩,
    ⟨by decide +kernel, by decide +kernel, by decide +kernel, by decide +kernel, by decide +kernel⟩,
    ⟨by decide +kernel, by decide +kernel⟩, hlong, by decide +kernel, by decide +kernel, by decide +kernel⟩

end ModPackager.Deploy
