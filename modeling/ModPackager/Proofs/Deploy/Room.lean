import ModPackager.Proofs.Deploy.Copyable
import ModPackager.Proofs.Deploy.Root

/-!
# Room for a tree

Copying a tree succeeds just if the tree is `Whole` and there is `Room` for it at the root. Both are told by paths alone, as
they lead before anything is copied.

If the way to the root can be taken there is a site, and then there is room just if everything below the source can be copied
to it (`Site.copyableBelow_root_iff`). If something other than a directory is in the way, there is room only for a directory
without entries (`Blocked.room_iff`).
-/

namespace ModPackager.Deploy

open FileSystem FileAction

variable {fs now : FileSystem} {root source : Path} {place dir : Location} {entry : Entry} {name : String}
  {names front : List String} {site : Site fs root}

/-! ### Outcomes -/

theorem copyTree_success_iff : (copyTree source root fs).1.outcome = .success
    ↔ fs.holdsDirectory source = true ∧ Succeeds (copyEntries source root) fs := by
  unfold copyTree Succeeds
  by_cases hholds : fs.holdsDirectory source = true
  · rcases hrun : copyEntries source root fs with ⟨files, later⟩ | ⟨e, later⟩ <;> simp [hholds]
  · simp [hholds]

theorem copyTree_fails (h : (copyTree source root fs).1.outcome ≠ .success) :
    ∃ reason, (copyTree source root fs).1.outcome = .failed reason := by
  unfold copyTree at h ⊢
  split
  · rcases hrun : copyEntries source root fs with ⟨files, later⟩ | ⟨e, later⟩
    · simp_all
    · exact ⟨_, rfl⟩
  · exact ⟨_, rfl⟩

theorem copyTree_of_not_directory (h : fs.holdsDirectory source = false) : (copyTree source root fs).2 = fs := by
  unfold copyTree
  rw [if_neg (by simp [h])]

/-! ### Trees that are whole, and room for them -/

/-- A directory whose entries, links followed, are files and directories, without links that lead nowhere or back. -/
structure Whole (fs : FileSystem) (source : Path) : Prop where
  directory : fs.holdsDirectory source = true
  present : ∀ names, Listed fs source names →
    ∃ place entry, fs.lookup? (source.descend names) = some (place, entry) ∧ ∀ text, entry ≠ .link text
  straight : ∀ names, Listed fs source names → ¬ Looping fs source names

/-- No entry of a tree meets one of another kind where it is copied to, and the paths there are within the limits of the
system. -/
structure Room (fs : FileSystem) (source root : Path) : Prop where
  limits : ∀ names entry, names ≠ [] → Layer.ofTree fs source names = some entry → fs.WithinLimits (root.descend names)
  files : ∀ names contents, names ≠ [] → Layer.ofTree fs source names = some (.file contents) →
    fs.holdsDirectory (root.descend names) = false
  directories : ∀ names, names ≠ [] → Layer.ofTree fs source names = some .directory →
    ¬ Blocked fs (root.descend names) (fs.namesTo (root.descend names))
  ancestors : ∀ names entry front, names ≠ [] → Layer.ofTree fs source names = some entry →
    front ≠ fs.namesTo (root.descend names) → ¬ Blocked fs (root.descend names) front

/-! ### What is in the way at a site -/

section Stands

variable (h : site.Stands now) (hvalid : ∀ name ∈ names, ValidName name) (hne : names ≠ [])

include h hvalid hne

/-- Names behind those of a root lead to the place that they spell. -/
theorem Site.Stands.place_descend {follow slash : Bool} {target : Target}
    (hleads : Leads now follow maxLinks [] (site.known ++ (site.missing ++ names)) slash target) :
    target.place = site.dir ++ names := by
  obtain ⟨fewer, hfewer⟩ := h.leadsTo.walk_append
  have hplace := (hfewer.1 hleads (by simp [hne])).place_eq (h.unlinked (staysInside_of_plain (ValidName.plain hvalid)))
  rwa [climb_append, ← Site.dir, climb_of_plain (ValidName.plain hvalid)] at hplace

/-- They lead to what is there, if it is no link. -/
theorem Site.Stands.leads_descend (wf : now.WellFormed) (hentry : now.entry? (site.dir ++ names) = some entry)
    (hlink : ∀ text, entry ≠ .link text) {follow : Bool} :
    Leads now follow maxLinks [] (site.known ++ (site.missing ++ names)) false (.found (site.dir ++ names) entry) := by
  have hroot := h.leadsTo_dir wf (wf.isDirectory_of_append hne hentry)
  have hplain : ∀ front, front <+: names → climb site.dir front = site.dir ++ front := fun front hfront =>
    climb_of_plain (ValidName.plain fun name hname => hvalid name (hfront.subset hname))
  obtain ⟨fewer, hfewer⟩ := hroot.walk_append
  rw [← List.append_assoc, ← hplain names (List.prefix_refl _)]
  refine hfewer.2 (wf.leads_fronts (fun front hfront hshort => ?_) ?_ hlink) hne
  · obtain ⟨rest, rfl⟩ := hfront
    have hrest : rest ≠ [] := by
      rintro rfl
      exact hshort (List.append_nil front).symm
    rw [hplain front (List.prefix_append _ _)]
    rw [← List.append_assoc] at hentry
    exact wf.isDirectory_of_append hrest hentry
  · rwa [hplain names (List.prefix_refl _)]

end Stands

section Ways

variable (wf : fs.WellFormed) (hdisjoint : site.Disjoint source) (htext : root.text ≠ "")
  (hvalid : ∀ name ∈ names, ValidName name)

theorem Site.namesTo_root_descend (site : Site fs root) (htext : root.text ≠ "") (hvalid : ∀ name ∈ names, ValidName name) :
    fs.namesTo (root.descend names) = site.known ++ (site.missing ++ names) := by
  rw [(extends_descend htext hvalid).namesTo_eq, site.namesTo_eq, List.append_assoc]

include wf hdisjoint htext hvalid

/-- Only what lies below a site can be in the way there. -/
theorem Site.blocked_descend (h : Blocked fs (root.descend names) front) :
    ∃ rel entry, rel ≠ [] ∧ rel <+: names ∧ front = site.known ++ (site.missing ++ rel)
      ∧ fs.entry? (site.dir ++ rel) = some entry ∧ entry ≠ .directory := by
  obtain ⟨place, entry, hpresent⟩ := h.present
  have hstands := (site.overlaid_refl wf).stands wf hdisjoint
  have hfront := h.front_prefix
  rw [site.namesTo_root_descend htext hvalid] at hfront
  rcases prefix_append_cases hfront with hknown | ⟨behind, hbehind, rfl, hprefix⟩
  · obtain ⟨dir, hdir⟩ := site.leads.of_prefix hknown
    exact absurd hdir (h.nowhere dir)
  obtain ⟨fewer, hfewer⟩ := LeadsTo.walk_append site.leads
  rcases prefix_append_cases hprefix with hmissing | ⟨rel, hrel, rfl, hshort⟩
  · -- Nothing is there under the missing names.
    obtain ⟨first, rest, rfl⟩ := List.exists_cons_of_ne_nil hbehind
    obtain ⟨hdot, hup, hnone⟩ := site.first_missing hmissing
    obtain ⟨found, hfound⟩ := (hfewer.1 hpresent hbehind).exists_first hdot hup
    simp [hnone] at hfound
  have hplain : ∀ name ∈ rel, ValidName name := fun name hname => hvalid name (hshort.subset hname)
  obtain rfl : place = site.dir ++ rel := hstands.place_descend hplain hrel hpresent
  refine ⟨rel, entry, hrel, hshort, rfl, hpresent.entry?_found, ?_⟩
  rintro rfl
  exact h.nowhere _ (hstands.leads_descend hplain hrel wf hpresent.entry?_found nofun)

/-- What is no directory is in the way where it lies. -/
theorem Site.blocked_of_entry (hne : names ≠ []) (hentry : fs.entry? (site.dir ++ names) = some entry)
    (hdirectory : entry ≠ .directory) : Blocked fs (root.descend names) (fs.namesTo (root.descend names)) := by
  have hstands := (site.overlaid_refl wf).stands wf hdisjoint
  rw [site.namesTo_root_descend htext hvalid]
  refine ⟨by rw [site.namesTo_root_descend htext hvalid], ⟨_, entry, hstands.leads_descend hvalid hne wf hentry ?_⟩,
    fun dir hdir => ?_⟩
  · rintro text rfl
    exact hdisjoint.unlinked _ text (List.prefix_append _ _) hentry
  · obtain rfl : dir = site.dir ++ names := hstands.place_descend hvalid hne hdir
    rw [hdir.isDirectory] at hentry
    exact hdirectory (Option.some.inj hentry).symm

/-- A path below the root leads to a directory just if one is where its names spell. -/
theorem Site.holdsDirectory_descend (hne : names ≠ []) (hfollow : Followable (root.descend names)) :
    fs.holdsDirectory (root.descend names) = true ↔ fs.entry? (site.dir ++ names) = some .directory := by
  have hstands := (site.overlaid_refl wf).stands wf hdisjoint
  constructor
  · intro hholds
    obtain ⟨dir, hdir⟩ := holdsDirectory_iff.1 hholds
    have hleads := leadsTo_of_resolve hdir
    rw [site.namesTo_root_descend htext hvalid] at hleads
    obtain rfl : dir = site.dir ++ names := hstands.place_descend hvalid hne hleads
    exact hleads.isDirectory
  · intro hentry
    have hleads : fs.LeadsTo (fs.namesTo (root.descend names)) (site.dir ++ names) := by
      rw [site.namesTo_root_descend htext hvalid]
      exact hstands.leads_descend hvalid hne wf hentry nofun
    exact hleads.holdsDirectory hfollow

end Ways

/-! ### When copying succeeds -/

section Copying

variable (wf : fs.WellFormed) (hdisjoint : site.Disjoint source)
  (hworking : root.isAbsolute = false → fs.holdsDirectory ⟨"."⟩ = true) (htext : root.text ≠ "")

include wf hdisjoint htext

/-- Where there is a site, a tree can be copied just if it is whole and there is room for it. -/
theorem Site.copyableBelow_root_iff : fs.holdsDirectory source = true ∧ site.CopyableBelow source []
    ↔ Whole fs source ∧ Room fs source root := by
  constructor
  · rintro ⟨hholds, hcopyable⟩
    obtain ⟨dir, hdir⟩ := holdsDirectory_iff.1 hholds
    obtain ⟨⟨-, hsource, -⟩, -⟩ := resolve_eq_ok_iff.1 hdir
    have hcopies : ∀ {names}, Listed fs source names → site.Copyable source names := fun hlisted =>
      hcopyable _ hlisted.ne_nil hlisted
    -- So whatever is in the tree fits in its place.
    have hfits : ∀ {names entry}, names ≠ [] → Layer.ofTree fs source names = some entry →
        fs.WithinLimits (root.descend names) ∧ Fits entry (fs.entry? (site.dir ++ names)) := by
      intro names entry hnames hentry
      obtain ⟨place, found, hlookup, -, hlimits, hfits⟩ := hcopies (listed_of_ofTree hsource hnames hentry)
      obtain ⟨-, place', hlookup'⟩ := ofTree_eq_some.1 hentry
      cases hlookup.symm.trans hlookup'
      exact ⟨hlimits, hfits⟩
    -- Nothing is in the way, but maybe a file where a file is copied to.
    have hclear : ∀ {names entry front}, names ≠ [] → Layer.ofTree fs source names = some entry →
        Blocked fs (root.descend names) front → front = fs.namesTo (root.descend names) ∧ entry ≠ .directory := by
      intro names entry front hnames hentry hblocked
      have hvalid := (ofTree_eq_some.1 hentry).1
      obtain ⟨rel, found, hrel, ⟨more, rfl⟩, rfl, hfound, hother⟩ := site.blocked_descend wf hdisjoint htext hvalid hblocked
      have hroom : Layer.ofTree fs source rel ≠ some .directory := by
        intro hdirectory
        have hfit := (hfits hrel hdirectory).2
        rw [hfound, Fits] at hfit
        simp [hother] at hfit
      by_cases hmore : more = []
      · subst hmore
        rw [List.append_nil] at hentry hvalid ⊢
        refine ⟨(site.namesTo_root_descend htext hvalid).symm, ?_⟩
        rintro rfl
        exact hroom hentry
      · exact absurd (ofTree_front hsource hmore hentry) hroom
    refine ⟨⟨hholds, fun names hlisted => ?_, fun names hlisted => ?_⟩, fun names entry hnames hentry => ?_,
      fun names contents hnames hentry => ?_, fun names hnames hentry hblocked => ?_,
      fun names entry front hnames hentry hfront hblocked => ?_⟩
    · obtain ⟨place, entry, hlookup, -, -, hfits⟩ := hcopies hlisted
      refine ⟨place, entry, hlookup, ?_⟩
      rintro text rfl
      exact hfits
    · obtain ⟨-, -, -, hstraight, -⟩ := hcopies hlisted
      exact hstraight
    · exact (hfits hnames hentry).1
    · obtain ⟨hlimits, hfile⟩ := hfits hnames hentry
      have hvalid := (ofTree_eq_some.1 hentry).1
      rw [Bool.eq_false_iff, ne_eq, site.holdsDirectory_descend wf hdisjoint htext hvalid hnames hlimits.followable]
      exact hfile
    · exact (hclear hnames hentry hblocked).2 rfl
    · exact hfront (hclear hnames hentry hblocked).1
  · rintro ⟨hwhole, hroom⟩
    refine ⟨hwhole.directory, fun names hnames hlisted => ?_⟩
    rw [List.nil_append] at hlisted ⊢
    obtain ⟨place, entry, hlookup, hlink⟩ := hwhole.present names hlisted
    have hvalid := hlisted.1
    have hentry : Layer.ofTree fs source names = some entry := ofTree_eq_some.2 ⟨hvalid, place, hlookup⟩
    have hlimits := hroom.limits names entry hnames hentry
    refine ⟨place, entry, hlookup, hwhole.straight names hlisted, hlimits, ?_⟩
    cases entry with
    | directory =>
        rcases hthere : fs.entry? (site.dir ++ names) with _ | found
        · exact .inl rfl
        · by_contra hother
          refine hroom.directories names hnames hentry (site.blocked_of_entry wf hdisjoint htext hvalid hnames hthere ?_)
          rintro rfl
          exact hother (.inr rfl)
    | file contents =>
        intro hthere
        have hfree := hroom.files names contents hnames hentry
        rw [(site.holdsDirectory_descend wf hdisjoint htext hvalid hnames hlimits.followable).2 hthere] at hfree
        cases hfree
    | link text => exact hlink text rfl

include hworking

/-- So a tree is copied to a site just if it is whole and there is room for it. -/
theorem Site.copyTree_success_iff : (copyTree source root fs).1.outcome = .success ↔ Whole fs source ∧ Room fs source root := by
  rw [Deploy.copyTree_success_iff, ← site.copyableBelow_root_iff wf hdisjoint htext]
  refine and_congr_right fun hholds => ?_
  obtain ⟨dir, hdir⟩ := holdsDirectory_iff.1 hholds
  have hway : OnWayDown fs source [] [⟨source, dir⟩] := by
    intro location
    simp only [List.mem_singleton, List.prefix_nil, ↓existsAndEq, true_and]
    change dir = location ↔ fs.resolve true source = _
    rw [hdir]
    simp
  have hstart : site.Awaits [] (fun _ => True) (fun rel => fs.entry? (site.dir ++ rel)) fs :=
    ⟨fun front hfront hne => absurd (List.prefix_nil.1 hfront) hne, ⟨site.overlaid_refl wf, fun _ _ => rfl⟩, fun _ _ _ => rfl⟩
  -- For any fuel, lest the numeral is unfolded.
  have hbelow : ∀ fuel, depthLimit ≤ fuel →
      (Succeeds (copyBelow fuel [⟨source, dir⟩] source root) fs ↔ site.CopyableBelow source []) := fun fuel hfuel =>
    copyBelow_iff wf hdisjoint hholds hworking htext fuel (by simp) (hfuel.trans (Nat.le_add_right _ _)) hway hstart hdir
  rw [copyEntries, succeeds_bind]
  simp only [entryOf_eq hdir, EStateM.Result.ok.injEq, ↓existsAndEq, and_true, true_and]
  exact hbelow depthLimit le_rfl

end Copying

/-! ### Roots that are blocked -/

/-- Below a blocked root no entry is copied. -/
theorem Blocked.copyEntry_fails (h : Blocked fs root front) (htext : root.text ≠ "") (hname : ValidName name) {fuel : Nat}
    {ancestors : List Ancestor} {count : Nat} :
    ¬ Succeeds (copyEntry fuel ancestors source root count name) fs := by
  rintro ⟨count', now, hrun⟩
  have hchild := (extends_refl htext).validChild hname
  obtain ⟨location, entry, -, ⟨-, between, _, _, hmade, -⟩ | ⟨-, between, hparent, hcopy⟩⟩ := copyEntry_inv hrun
  · exact h.createDirectories_fails hchild (by simp) hmade
  · have hsame : Maintains (fun now => now = fs) (createParent (root.child name)) fun _ => True := by
      refine createParent_maintains ?_
      rintro _ location rfl hmakes
      exact absurd hmakes (h.not_makesAt hchild (by simp))
    obtain ⟨rfl, -⟩ := hsame.ok rfl hparent
    obtain ⟨_, _, _, _, -, hempty, -⟩ := copyFile_inv hcopy
    obtain ⟨_, hwrites, -⟩ := writeBytes_inv hempty
    exact h.not_writesAt hchild (by simp) hwrites

section Bare

variable (hdir : fs.resolve true source = .ok (.found dir .directory))

include hdir

/-- Nothing is to be done for a directory without entries. -/
theorem copyEntries_of_bare (hbare : fs.names dir = []) : copyEntries source root fs = .ok 0 fs := by
  have hbelow : ∀ {fuel ancestors}, fuel ≠ 0 → copyBelow fuel ancestors source root fs = .ok 0 fs := by
    intro fuel ancestors hfuel
    obtain ⟨fuel, rfl⟩ := Nat.exists_eq_succ_of_ne_zero hfuel
    rw [copyBelow_succ]
    exact bind_eq_ok.2 ⟨_, fs, lift_eq_ok.2 (readNames_of_directory hdir), by rw [hbare]; rfl⟩
  exact bind_eq_ok.2 ⟨_, fs, entryOf_eq hdir, hbelow (by decide)⟩

theorem copyTree_of_bare (hbare : fs.names dir = []) : (copyTree source root fs).2 = fs := by
  unfold copyTree
  split
  · rw [copyEntries_of_bare hdir hbare]
  · rfl

/-- Only a directory without entries can be copied to a blocked root. -/
theorem Blocked.names_eq_nil (h : Blocked fs root front) (htext : root.text ≠ "") (wf : fs.WellFormed) {fuel : Nat}
    {ancestors : List Ancestor} (hsucceeds : Succeeds (copyBelow fuel ancestors source root) fs) : fs.names dir = [] := by
  rcases fuel with _ | fuel
  · exact absurd hsucceeds not_succeeds_throw
  rw [copyBelow_succ] at hsucceeds
  obtain ⟨names, s, hread, hloop⟩ := succeeds_bind.1 hsucceeds
  rw [lift_eq_ok, readNames_of_directory hdir] at hread
  cases hread
  rcases hnames : fs.names dir with _ | ⟨name, rest⟩
  · rfl
  · obtain ⟨entry, hentry⟩ : ∃ entry, fs.entry? (dir ++ [name]) = some entry := by
      rw [← Option.isSome_iff_exists, ← mem_names, hnames]
      exact List.mem_cons_self
    rw [hnames, List.foldlM_cons, succeeds_bind] at hloop
    obtain ⟨count, s', hfirst, -⟩ := hloop
    exact absurd ⟨count, s', hfirst⟩ (h.copyEntry_fails htext (wf.validName hentry))

/-- A blocked root is fine for a directory without entries, and for no other. -/
theorem Blocked.copyEntries_iff (h : Blocked fs root front) (htext : root.text ≠ "") (wf : fs.WellFormed) :
    Succeeds (copyEntries source root) fs ↔ fs.names dir = [] := by
  constructor
  · intro hsucceeds
    obtain ⟨⟨location, entry⟩, s, hentry, hcopy⟩ := succeeds_bind.1 hsucceeds
    obtain ⟨rfl, -⟩ := entryOf_inv hentry
    exact h.names_eq_nil hdir htext wf hcopy
  · exact fun hbare => ⟨0, fs, copyEntries_of_bare hdir hbare⟩

/-- Below a directory without entries nothing is listed. -/
theorem not_listed_of_bare (hbare : fs.names dir = []) : ¬ Listed fs source names := by
  intro hlisted
  obtain ⟨name, more, rfl⟩ := List.exists_cons_of_ne_nil hlisted.ne_nil
  have hmem := mem_names.2 (Option.isSome_iff_exists.2 (hlisted.exists_first hdir))
  simp [hbare] at hmem

end Bare

/-- Below a blocked root there is room for a whole tree just if it has no entries. -/
theorem Blocked.room_iff (h : Blocked fs root front) (htext : root.text ≠ "") (wf : fs.WellFormed)
    (hdir : fs.resolve true source = .ok (.found dir .directory)) :
    Whole fs source ∧ Room fs source root ↔ fs.names dir = [] := by
  obtain ⟨⟨-, hsource, -⟩, -⟩ := resolve_eq_ok_iff.1 hdir
  constructor
  · rintro ⟨hwhole, hroom⟩
    by_contra hentries
    obtain ⟨name, hname⟩ := List.exists_mem_of_ne_nil _ hentries
    obtain ⟨entry, hentry⟩ := Option.isSome_iff_exists.1 (mem_names.1 hname)
    have hlisted := listed_of_entry wf hdir hentry
    obtain ⟨place, found, hlookup, -⟩ := hwhole.present _ hlisted
    have hfound : Layer.ofTree fs source [name] = some found := ofTree_eq_some.2 ⟨hlisted.1, place, hlookup⟩
    have hnames : fs.namesTo (root.descend [name]) = fs.namesTo root ++ [name] :=
      (extends_descend htext hlisted.1).namesTo_eq fs
    refine hroom.ancestors [name] found front (List.cons_ne_nil _ _) hfound ?_ ⟨?_, h.present, h.nowhere⟩
    · intro hfront
      have hlength := h.front_prefix.length_le
      rw [hfront, hnames, List.length_append, List.length_singleton] at hlength
      omega
    · rw [hnames]
      exact h.front_prefix.trans (List.prefix_append _ _)
  · intro hbare
    have hnone : ∀ names, ¬ Listed fs source names := fun _ => not_listed_of_bare hdir hbare
    have hempty : ∀ {names entry}, names ≠ [] → Layer.ofTree fs source names ≠ some entry := fun hnames hentry =>
      hnone _ (listed_of_ofTree hsource hnames hentry)
    exact ⟨⟨holdsDirectory_iff.2 ⟨dir, hdir⟩, fun names h => absurd h (hnone names), fun names h => absurd h (hnone names)⟩,
      fun _ _ hnames h => absurd h (hempty hnames), fun _ _ hnames h => absurd h (hempty hnames),
      fun _ hnames h => absurd h (hempty hnames), fun _ _ _ hnames h => absurd h (hempty hnames)⟩

/-- So copying a tree to a blocked root succeeds just if there is room for it. -/
theorem Blocked.copyTree_success_iff (h : Blocked fs root front) (source : Path) (htext : root.text ≠ "") (wf : fs.WellFormed) :
    (copyTree source root fs).1.outcome = .success ↔ Whole fs source ∧ Room fs source root := by
  rw [Deploy.copyTree_success_iff]
  by_cases hholds : fs.holdsDirectory source = true
  · obtain ⟨dir, hdir⟩ := holdsDirectory_iff.1 hholds
    rw [h.copyEntries_iff hdir htext wf, ← h.room_iff htext wf hdir]
    exact and_iff_right hholds
  · exact iff_of_false (fun hcopied => hholds hcopied.1) fun hroom => hholds hroom.1.directory

end ModPackager.Deploy
