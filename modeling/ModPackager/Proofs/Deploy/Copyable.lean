import ModPackager.Proofs.Deploy.Overlay

/-!
# What can be copied

A tree is copied just if every entry that is listed below its directory can be copied to the site (`copyBelow_iff`): the
entry is found, is no link back to a directory on the way to it, and goes where there is room for it (`Site.Copyable`). So
the order in which the entries are listed does not matter.

The induction is on the levels that are left to go down, and then on the names of a directory that are left to copy. It
carries that nothing was copied yet to where these names lead (`Site.Awaits`), so that each of them finds there what was there
at first.
-/

namespace ModPackager.Deploy

open FileSystem FileAction

variable {fs now now' : FileSystem} {root source target path : Path} {location place dir : Location} {entry : Entry}
  {name other : String} {names rel more : List String} {site : Site fs root} {layer : Layer} {inv : FileSystem → Prop}
  {waits : String → Prop} {fuel count : Nat} {ancestors : List Ancestor}

/-! ### Steps of a copy -/

theorem entryOf_eq (h : now.resolve true path = .ok (.found location entry)) :
    entryOf path now = .ok (location, entry) now := by
  have hlookup := lookup_eq_ok_iff.2 h
  simp only [entryOf, run_bind, run_get, hlookup]
  rfl

theorem readNames_of_directory (h : now.resolve true path = .ok (.found dir .directory)) :
    readNames path now = .ok (now.names dir) now := by
  rw [readNames_eq, lookup_eq_ok_iff.2 h]

/-- A directory is copied with what is below it, unless it is a link to one of its ancestors. -/
theorem copyEntry_directory_iff (hfound : now.resolve true (source.child name) = .ok (.found location .directory)) :
    Succeeds (copyEntry fuel ancestors source target count name) now ↔
      ¬ (isLink now (source.child name) = true ∧ ∃ ancestor ∈ ancestors, ancestor.location = location)
      ∧ ∃ between, createDirectories (target.child name) now = .ok () between
        ∧ Succeeds (copyBelow fuel (⟨source.child name, location⟩ :: ancestors) (source.child name) (target.child name))
          between := by
  have hgoes : Succeeds (lift (createDirectories (target.child name)) >>= fun _ =>
      copyBelow fuel (⟨source.child name, location⟩ :: ancestors) (source.child name) (target.child name)
        >>= fun copied => pure (count + copied)) now ↔
      ∃ between, createDirectories (target.child name) now = .ok () between
        ∧ Succeeds (copyBelow fuel (⟨source.child name, location⟩ :: ancestors) (source.child name) (target.child name))
          between := by
    rw [succeeds_bind]
    constructor
    · rintro ⟨⟨⟩, between, hmade, hrest⟩
      obtain ⟨copied, s, hbelow, -⟩ := succeeds_bind.1 hrest
      exact ⟨between, lift_eq_ok.1 hmade, copied, s, hbelow⟩
    · rintro ⟨between, hmade, copied, s, hbelow⟩
      exact ⟨⟨⟩, between, lift_eq_ok.2 hmade, succeeds_bind.2 ⟨copied, s, hbelow, succeeds_pure _ _⟩⟩
  rw [← hgoes]
  unfold copyEntry
  rw [succeeds_bind]
  simp only [entryOf_eq hfound, EStateM.Result.ok.injEq, ↓existsAndEq, true_and, and_true]
  rw [succeeds_bind]
  simp only [run_get, EStateM.Result.ok.injEq, ↓existsAndEq, true_and]
  rcases hancestor : ancestors.find? (·.location == location) with _ | ancestor
  · have hnone : ¬ ∃ ancestor ∈ ancestors, ancestor.location = location := by
      simpa using hancestor
    simp [hancestor, hnone]
  · have hsome : ∃ ancestor ∈ ancestors, ancestor.location = location :=
      ⟨ancestor, List.mem_of_find?_eq_some hancestor, by simpa using List.find?_some hancestor⟩
    cases hlink : isLink now (source.child name) with
    | false => simp [hancestor]
    | true => simp [hancestor, hsome, not_succeeds_throw]

/-- What is no directory is copied as a file. -/
theorem copyEntry_leaf_iff (hfound : now.resolve true (source.child name) = .ok (.found location entry))
    (hleaf : entry ≠ .directory) :
    Succeeds (copyEntry fuel ancestors source target count name) now ↔
      Succeeds (createParent (target.child name) >>= fun _ => copyFile (source.child name) (target.child name)) now := by
  have hgoes : Succeeds (lift (createParent (target.child name)) >>= fun _ =>
      lift (copyFile (source.child name) (target.child name)) >>= fun _ => pure (count + 1)) now ↔
      Succeeds (createParent (target.child name) >>= fun _ => copyFile (source.child name) (target.child name)) now := by
    simp only [succeeds_bind, lift_eq_ok]
    constructor
    · rintro ⟨⟨⟩, between, hparent, ⟨⟩, s, hcopy, -⟩
      exact ⟨⟨⟩, between, hparent, ⟨⟩, s, hcopy⟩
    · rintro ⟨⟨⟩, between, hparent, ⟨⟩, s, hcopy⟩
      exact ⟨⟨⟩, between, hparent, ⟨⟩, s, hcopy, succeeds_pure _ _⟩
  rw [← hgoes]
  unfold copyEntry
  rw [succeeds_bind]
  simp only [entryOf_eq hfound, EStateM.Result.ok.injEq, ↓existsAndEq, true_and, and_true]
  cases entry with
  | directory => exact absurd rfl hleaf
  | _ => rfl

/-! ### Entries of a tree -/

/-- A link back to a directory on the way to it. -/
def Looping (fs : FileSystem) (source : Path) (names : List String) : Prop :=
  isLink fs (source.descend names) = true ∧ ∃ front dir, front <+: names ∧ front ≠ names
    ∧ fs.resolve true (source.descend front) = .ok (.found dir .directory)
    ∧ fs.resolve true (source.descend names) = .ok (.found dir .directory)

/-- What something can be copied to: a directory to a directory or to nothing, a file to all but a directory. -/
def Fits (entry : Entry) (there : Option Entry) : Prop :=
  match entry with
  | .directory => there = none ∨ there = some .directory
  | .file _ => there ≠ some .directory
  | .link _ => False

/-- An entry of a tree that can be copied to a site. -/
def Site.Copyable (site : Site fs root) (source : Path) (names : List String) : Prop :=
  ∃ place entry, fs.lookup? (source.descend names) = some (place, entry) ∧ ¬ Looping fs source names
    ∧ fs.WithinLimits (root.descend names) ∧ Fits entry (fs.entry? (site.dir ++ names))

/-- All entries below a directory of a tree can be copied to a site. -/
def Site.CopyableBelow (site : Site fs root) (source : Path) (rel : List String) : Prop :=
  ∀ more, more ≠ [] → Listed fs source (rel ++ more) → site.Copyable source (rel ++ more)

theorem listed_concat (wf : fs.WellFormed) (hrel : ∀ name ∈ rel, ValidName name)
    (hdir : fs.resolve true (source.descend rel) = .ok (.found dir .directory))
    (hentry : fs.entry? (dir ++ [name]) = some entry) : Listed fs source (rel ++ [name]) := by
  refine ⟨?_, rel, name, dir, entry, rfl, hdir, hentry⟩
  rw [List.forall_mem_append, List.forall_mem_singleton]
  exact ⟨hrel, wf.validName hentry⟩

theorem listed_of_entry (wf : fs.WellFormed) (hdir : fs.resolve true source = .ok (.found dir .directory))
    (hentry : fs.entry? (dir ++ [name]) = some entry) : Listed fs source [name] :=
  ⟨List.forall_mem_singleton.2 (wf.validName hentry), [], name, dir, entry, rfl, hdir, hentry⟩

/-- What is listed below a directory is listed from that directory on. -/
theorem Listed.behind (h : Listed fs source (rel ++ more)) (hmore : more ≠ []) :
    Listed fs (source.descend rel) more := by
  obtain ⟨hvalid, front, last, dir, entry, hnames, hdir, hentry⟩ := h
  rw [List.forall_mem_append] at hvalid
  obtain ⟨between, end', rfl⟩ := (List.eq_nil_or_concat more).resolve_left hmore
  rw [List.concat_eq_append, ← List.append_assoc] at hnames
  obtain ⟨rfl, hlast⟩ := List.append_inj' hnames rfl
  obtain rfl := List.singleton_inj.1 hlast
  rw [Path.descend_append] at hdir
  exact ⟨hvalid.2, between, end', dir, entry, List.concat_eq_append, hdir, hentry⟩

/-- The first name that leads to what is listed below a directory is listed in it. -/
theorem Listed.exists_first (h : Listed fs source (name :: more))
    (hdir : fs.resolve true source = .ok (.found dir .directory)) : ∃ entry, fs.entry? (dir ++ [name]) = some entry := by
  obtain ⟨hvalid, front, last, dir', entry, hnames, hfront, hentry⟩ := h
  rw [hnames, List.forall_mem_append] at hvalid
  rcases front with _ | ⟨first, between⟩
  · obtain ⟨rfl, -⟩ := List.cons.inj hnames
    cases hdir.symm.trans hfront
    exact ⟨entry, hentry⟩
  · obtain ⟨rfl, rfl⟩ := List.cons.inj hnames
    exact exists_entry_of_descend hdir hvalid.1 (lookup?_eq_some_iff.2 hfront)

/-- Nothing is listed below what is no directory. -/
theorem not_listed_of_leaf (hleaf : fs.resolve true source = .ok (.found location entry)) (hentry : entry ≠ .directory) :
    ¬ Listed fs source names := by
  rintro ⟨hvalid, front, last, dir, -, rfl, hfront, -⟩
  rw [List.forall_mem_append] at hvalid
  by_cases hnil : front = []
  · subst hnil
    cases hleaf.symm.trans hfront
    exact hentry rfl
  · have hnone := lookup?_descend_of_leaf hleaf hentry hvalid.1 hnil
    rw [lookup?_eq_some_iff.2 hfront] at hnone
    cases hnone

/-- The entries below a directory are those that it lists, and those below them. -/
theorem Site.copyableBelow_iff (wf : fs.WellFormed) (hrel : ∀ name ∈ rel, ValidName name)
    (hdir : fs.resolve true (source.descend rel) = .ok (.found dir .directory)) :
    site.CopyableBelow source rel ↔ ∀ name, (∃ entry, fs.entry? (dir ++ [name]) = some entry) →
      site.Copyable source (rel ++ [name]) ∧ site.CopyableBelow source (rel ++ [name]) := by
  constructor
  · rintro h name ⟨entry, hentry⟩
    refine ⟨h [name] (by simp) (listed_concat wf hrel hdir hentry), fun more _ hlisted => ?_⟩
    rw [List.append_assoc, List.singleton_append] at hlisted ⊢
    exact h (name :: more) (by simp) hlisted
  · intro h more hmore hlisted
    obtain ⟨name, rest, rfl⟩ := List.exists_cons_of_ne_nil hmore
    obtain ⟨hcopyable, hbelow⟩ := h name ((hlisted.behind hmore).exists_first hdir)
    by_cases hrest : rest = []
    · rwa [hrest]
    · rw [List.append_cons] at hlisted ⊢
      exact hbelow rest hrest hlisted

theorem ofTree_eq_some : Layer.ofTree fs source names = some entry
    ↔ (∀ name ∈ names, ValidName name) ∧ ∃ place, fs.lookup? (source.descend names) = some (place, entry) := by
  unfold Layer.ofTree
  split
  next hvalid => simpa using fun _ _ => hvalid
  next hvalid => simp [hvalid]

section Trees

variable (hsource : source.text ≠ "")

include hsource

/-- Directories are on the way down a tree. -/
theorem ofTree_front (hmore : more ≠ []) (h : Layer.ofTree fs source (rel ++ more) = some entry) :
    Layer.ofTree fs source rel = some .directory := by
  induction more using List.reverseRecOn generalizing entry with
  | nil => exact absurd rfl hmore
  | append_singleton between last ih =>
      obtain ⟨hvalid, place, hlookup⟩ := ofTree_eq_some.1 h
      rw [← List.append_assoc, List.forall_mem_append, List.forall_mem_singleton] at hvalid
      rw [← List.append_assoc, Path.descend_concat, lookup?_eq_some_iff] at hlookup
      obtain ⟨dir, hdir⟩ := resolve_of_child hvalid.2.1 hvalid.2.2.2.2.1 (Path.text_descend_ne hsource hvalid.1) hlookup
      have hbetween : Layer.ofTree fs source (rel ++ between) = some .directory :=
        ofTree_eq_some.2 ⟨hvalid.1, dir, lookup?_eq_some_iff.2 hdir⟩
      by_cases hnil : between = []
      · rwa [hnil, List.append_nil] at hbetween
      · exact ih hnil hbetween

/-- The entries of a tree are listed in their directories. -/
theorem listed_of_ofTree (hnames : names ≠ []) (h : Layer.ofTree fs source names = some entry) : Listed fs source names := by
  obtain ⟨front, last, rfl⟩ := (List.eq_nil_or_concat' names).resolve_left hnames
  obtain ⟨hvalid, place, hlookup⟩ := ofTree_eq_some.1 h
  obtain ⟨-, dir, hdir⟩ := ofTree_eq_some.1 (ofTree_front hsource (by simp) h)
  rw [Path.descend_append] at hlookup
  have hlast : ∀ name ∈ [last], ValidName name := fun name hname => hvalid name (List.mem_append_right _ hname)
  obtain ⟨found, hfound⟩ := exists_entry_of_descend (lookup?_eq_some_iff.1 hdir) hlast hlookup
  exact ⟨hvalid, front, last, dir, found, rfl, lookup?_eq_some_iff.1 hdir, hfound⟩

end Trees

/-! ### The way down -/

/-- The ancestors of a directory are the directories on the way down to it. -/
def OnWayDown (fs : FileSystem) (source : Path) (rel : List String) (ancestors : List Ancestor) : Prop :=
  ∀ location, (∃ ancestor ∈ ancestors, ancestor.location = location)
    ↔ ∃ front, front <+: rel ∧ fs.resolve true (source.descend front) = .ok (.found location .directory)

/-- A link is looping if it leads to one of the ancestors. -/
theorem OnWayDown.looping_iff (h : OnWayDown fs source rel ancestors)
    (hfound : fs.resolve true (source.descend (rel ++ [name])) = .ok (.found location .directory)) :
    Looping fs source (rel ++ [name]) ↔ isLink fs (source.descend (rel ++ [name])) = true
      ∧ ∃ ancestor ∈ ancestors, ancestor.location = location := by
  rw [Looping, h location]
  refine and_congr_right fun _ => ⟨?_, ?_⟩
  · rintro ⟨front, dir, hfront, hne, hleads, hends⟩
    rw [hfound] at hends
    cases hends
    exact ⟨front, (List.prefix_concat_iff.1 hfront).resolve_left hne, hleads⟩
  · rintro ⟨front, hfront, hleads⟩
    refine ⟨front, location, hfront.trans (List.prefix_append _ _), ?_, hleads, hfound⟩
    rintro rfl
    have hlength := hfront.length_le
    rw [List.length_append, List.length_singleton] at hlength
    omega

theorem OnWayDown.enter (h : OnWayDown fs source rel ancestors)
    (hfound : fs.resolve true (source.descend (rel ++ [name])) = .ok (.found location .directory)) :
    OnWayDown fs source (rel ++ [name]) (⟨path, location⟩ :: ancestors) := by
  intro other
  rw [List.exists_mem_cons_iff, h other]
  constructor
  · rintro (rfl | ⟨front, hfront, hleads⟩)
    · exact ⟨_, List.prefix_refl _, hfound⟩
    · exact ⟨front, hfront.trans (List.prefix_append _ _), hleads⟩
  · rintro ⟨front, hfront, hleads⟩
    rcases List.prefix_concat_iff.1 hfront with rfl | hshort
    · rw [hfound] at hleads
      cases hleads
      exact .inl rfl
    · exact .inr ⟨front, hshort, hleads⟩

/-! ### The state of a copy -/

/-- Directories are there on the way that names lead from a site on, and where the names lead that still wait there nothing has
changed. -/
structure Site.Awaits (site : Site fs root) (rel : List String) (waits : String → Prop) (layer : Layer) (now : FileSystem) :
    Prop where
  opens : layer.Opens rel
  bears : site.Bears site.Overlaid layer now
  same : ∀ name, waits name → ∀ more, layer (rel ++ name :: more) = fs.entry? (site.dir ++ (rel ++ name :: more))

namespace Site.Awaits

theorem weaken {fewer : String → Prop} (h : site.Awaits rel waits layer now) (hfewer : ∀ name, fewer name → waits name) :
    site.Awaits rel fewer layer now := ⟨h.opens, h.bears, fun name hname => h.same name (hfewer name hname)⟩

/-- A directory is there, and all names below it wait. -/
theorem enter (h : site.Awaits rel waits layer now) (hname : waits name) (hvalid : ∀ other ∈ rel ++ [name], ValidName other)
    (hbears : site.Bears site.Overlaid ((Layer.ofDirectories (rel ++ [name])).over layer) now') :
    site.Awaits (rel ++ [name]) (fun _ => True) ((Layer.ofDirectories (rel ++ [name])).over layer) now' where
  opens := h.opens.ofDirectories_over hvalid
  bears := hbears
  same := by
    intro other _ more
    rw [Layer.ofDirectories_over hvalid h.opens (by simp), if_neg (by simp), List.append_assoc, List.singleton_append]
    exact h.same name hname (other :: more)

/-- Once an entry is copied the others still wait. -/
theorem copied (h : site.Awaits rel waits layer now) {tree : Layer}
    (hbears : site.Bears site.Overlaid ((tree.below (rel ++ [name])).over layer) now') :
    site.Awaits rel (fun other => waits other ∧ other ≠ name) ((tree.below (rel ++ [name])).over layer) now' where
  opens := h.opens.below_over
  bears := hbears
  same := by
    rintro other ⟨hother, hne⟩ more
    have hbeside : ¬ rel ++ [name] <+: rel ++ other :: more := by
      rw [List.prefix_append_right_inj, List.cons_prefix_cons]
      exact fun hlong => hne hlong.1.symm
    rw [Layer.over_apply, Layer.below_of_not hbeside, Option.none_or, h.same other hother more]

end Site.Awaits

/-- Names below a directory that are left to copy. -/
structure Site.Waiting (site : Site fs root) (rel names : List String) (now : FileSystem) : Prop where
  nodup : names.Nodup
  valid : ∀ name ∈ names, ValidName name
  awaits : ∃ layer, site.Awaits rel (· ∈ names) layer now

/-- One name after another is copied. -/
theorem Site.Waiting.copied (h : site.Waiting rel (name :: names) now) (hawaits : site.Awaits rel (· ∈ name :: names) layer now)
    {tree : Layer} (hbears : site.Bears site.Overlaid ((tree.below (rel ++ [name])).over layer) now') :
    site.Waiting rel names now' where
  nodup := h.nodup.of_cons
  valid := fun other hother => h.valid other (List.mem_cons_of_mem _ hother)
  awaits := by
    refine ⟨_, (hawaits.copied hbears).weaken fun other hother => ⟨List.mem_cons_of_mem _ hother, ?_⟩⟩
    rintro rfl
    exact (List.nodup_cons.1 h.nodup).1 hother

/-! ### Trees that can be copied -/

section Copying

variable (wf : fs.WellFormed) (hdisjoint : site.Disjoint source) (hsource : fs.holdsDirectory source = true)
  (hworking : root.isAbsolute = false → fs.holdsDirectory ⟨"."⟩ = true) (htext : root.text ≠ "")

/-- Copying at most so many levels deep succeeds just if everything there can be copied. -/
def Site.CopiesExactly (site : Site fs root) (source : Path) (fuel : Nat) : Prop :=
  ∀ {rel ancestors layer now dir}, (∀ name ∈ rel, ValidName name) → depthLimit ≤ fuel + rel.length →
    OnWayDown fs source rel ancestors → site.Awaits rel (fun _ => True) layer now →
    fs.resolve true (source.descend rel) = .ok (.found dir .directory) →
    (Succeeds (copyBelow fuel ancestors (source.descend rel) (root.descend rel)) now ↔ site.CopyableBelow source rel)

include wf hdisjoint hsource hworking htext

/-- An entry is copied just if it can be and everything below it. -/
theorem copyEntry_iff (ih : site.CopiesExactly source fuel) (hvalid : ∀ other ∈ rel ++ [name], ValidName other)
    (hfuel : depthLimit ≤ fuel + (rel ++ [name]).length) (hway : OnWayDown fs source rel ancestors)
    (h : site.Awaits rel waits layer now) (hname : waits name) :
    Succeeds (copyEntry fuel ancestors (source.descend rel) (root.descend rel) count name) now
      ↔ site.Copyable source (rel ++ [name]) ∧ site.CopyableBelow source (rel ++ [name]) := by
  have hkeeps := (Site.Overlaid.keepsTree hdisjoint hsource).descend hvalid
  have hlast : layer (rel ++ [name]) = fs.entry? (site.dir ++ (rel ++ [name])) := h.same name hname []
  rcases hlookup : fs.lookup? (source.descend (rel ++ [name])) with _ | ⟨location, entry⟩
  · -- What is not found is not copied.
    refine iff_of_false ?_ ?_
    · rintro ⟨count', now', hrun⟩
      obtain ⟨location, entry, hfound, -⟩ := copyEntry_inv hrun
      rw [← Path.descend_concat, hkeeps.resolve_iff h.bears.prepared, ← lookup?_eq_some_iff, hlookup] at hfound
      cases hfound
    · rintro ⟨⟨place, entry, hfound, -⟩, -⟩
      rw [hlookup] at hfound
      cases hfound
  have hbefore := lookup?_eq_some_iff.1 hlookup
  have hfound := (hkeeps.resolve_iff h.bears.prepared).2 hbefore
  have hcopyable : site.Copyable source (rel ++ [name]) ↔ ¬ Looping fs source (rel ++ [name])
      ∧ fs.WithinLimits (root.descend (rel ++ [name])) ∧ Fits entry (layer (rel ++ [name])) := by
    rw [hlast, Site.Copyable]
    simp only [hlookup, Option.some.injEq, Prod.mk.injEq, ↓existsAndEq, and_true, true_and]
  have hchild : now.resolve true ((source.descend rel).child name) = .ok (.found location entry) := by
    rwa [← Path.descend_concat]
  rw [hcopyable]
  cases entry with
  | directory =>
      -- Once the directory is made all its entries wait.
      have hbelow : ∀ {between}, createDirectories (root.descend (rel ++ [name])) now = .ok () between →
          (Succeeds (copyBelow fuel (⟨source.descend (rel ++ [name]), location⟩ :: ancestors)
            (source.descend (rel ++ [name])) (root.descend (rel ++ [name]))) between
              ↔ site.CopyableBelow source (rel ++ [name])) := fun hmade =>
        ih hvalid hfuel (hway.enter hbefore) (h.enter hname hvalid (createDirectories_laid (extends_descend htext hvalid)
          (staysInside_of_plain (ValidName.plain hvalid)) (Site.Overlaid.supports wf hdisjoint) h.bears hmade)) hbefore
      rw [copyEntry_directory_iff hchild, ← Path.descend_concat, ← Path.descend_concat,
        h.bears.prepared.isLink_iff hdisjoint hvalid hsource (resolve_eq_ok_iff.1 hbefore).1,
        ← hway.looping_iff hbefore, and_assoc]
      refine and_congr_right fun _ => ?_
      rw [Fits, ← createDirectories_iff wf hdisjoint hworking htext hvalid h.opens h.bears]
      constructor
      · rintro ⟨between, hmade, hsucceeds⟩
        exact ⟨⟨⟨⟩, between, hmade⟩, (hbelow hmade).1 hsucceeds⟩
      · rintro ⟨⟨⟨⟩, between, hmade⟩, hcopyable⟩
        exact ⟨between, hmade, (hbelow hmade).2 hcopyable⟩
  | file contents =>
      have hloops : ¬ Looping fs source (rel ++ [name]) := by
        rintro ⟨-, -, _, -, -, -, hends⟩
        cases hbefore.symm.trans hends
      have hbelow : site.CopyableBelow source (rel ++ [name]) := fun more hmore hlisted =>
        absurd (hlisted.behind hmore) (not_listed_of_leaf hbefore (by simp))
      rw [copyEntry_leaf_iff hchild (by simp), ← Path.descend_concat, ← Path.descend_concat,
        copyFile_iff wf hdisjoint hworking htext hvalid h.opens h.bears hkeeps hbefore]
      exact ⟨fun hroom => ⟨⟨hloops, hroom⟩, hbelow⟩, fun hcopied => hcopied.1.2⟩
  | link text =>
      -- No file is read there.
      rw [copyEntry_leaf_iff hchild (by simp)]
      refine iff_of_false (fun hsucceeds => ?_) fun hcopied => hcopied.1.2.2
      obtain ⟨⟨⟩, between, hparent, ⟨⟩, now', hcopy⟩ := succeeds_bind.1 hsucceeds
      obtain ⟨hkept, -⟩ := (Kept.createParent _).ok (.refl now) hparent
      obtain ⟨_, _, _, _, hfile, -⟩ := copyFile_inv hcopy
      rw [lookup_eq_ok_iff, hkept.resolve_persists hchild (hkept.same (entry?_of_found hchild) (by simp))] at hfile
      cases hfile

theorem copyBelow_iff (fuel : Nat) : site.CopiesExactly source fuel := by
  induction fuel with
  | zero =>
      -- A path with so many names is too long.
      intro rel ancestors layer now dir hrel hfuel hway h hdir
      obtain ⟨⟨-, -, hshort⟩, -⟩ := resolve_eq_ok_iff.1 hdir
      have hlong := Path.size_add_length_le source fun name hname => ⟨(hrel name hname).1, (hrel name hname).2.2.2.1⟩
      unfold depthLimit at hfuel
      omega
  | succ fuel ih =>
      intro rel ancestors layer now dir hrel hfuel hway h hdir
      have hkeeps := (Site.Overlaid.keepsTree hdisjoint hsource).descend hrel
      have hsupports := Site.Overlaid.supports wf hdisjoint
      have hdirNow := (hkeeps.resolve_iff h.bears.prepared).2 hdir
      have hlists : ∀ name, (∃ entry, fs.entry? (dir ++ [name]) = some entry) ↔ name ∈ now.names dir := fun name => by
        rw [mem_names, Option.isSome_iff_exists]
        exact h.bears.prepared.lists_iff hdisjoint hrel hdir
      rw [copyBelow_succ, succeeds_bind, site.copyableBelow_iff wf hrel hdir]
      simp only [lift_eq_ok, readNames_of_directory hdirNow, EStateM.Result.ok.injEq, ↓existsAndEq, and_true, true_and, hlists]
      have hstart : site.Waiting rel (now.names dir) now := by
        refine ⟨h.bears.prepared.wellFormed.nodup_names dir, fun name hname => ?_, layer, h.opens, h.bears,
          fun name _ => h.same name trivial⟩
        obtain ⟨entry, hentry⟩ := (hlists name).2 hname
        exact wf.validName hentry
      refine succeeds_foldlM (site.Waiting rel) (fun {name rest} count {s} hwaiting => ?_) 0 hstart
      obtain ⟨layer, hawaits⟩ := hwaiting.awaits
      have hname := hwaiting.valid name List.mem_cons_self
      have hvalid : ∀ other ∈ rel ++ [name], ValidName other := by
        rw [List.forall_mem_append, List.forall_mem_singleton]
        exact ⟨hrel, hname⟩
      refine ⟨copyEntry_iff wf hdisjoint hsource hworking htext ih hvalid ?_ hway hawaits List.mem_cons_self, fun hrun => ?_⟩
      · rw [List.length_append, List.length_singleton]
        omega
      · exact hwaiting.copied hawaits (copyEntry_laid hsupports (copyBelow_laid hsupports fuel) hkeeps hname
          (extends_descend htext hrel) hrel hawaits.opens hawaits.bears hrun)

end Copying

end ModPackager.Deploy
