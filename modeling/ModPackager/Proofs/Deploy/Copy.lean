import ModPackager.Proofs.Deploy.Layers

/-!
# Copying a tree to a site

Copying lays the tree below the source, links followed, over what was there before (`copyTree_laid`). The
tree is that of the files before anything was deployed (`Layer.ofTree`), as long as no path into it runs
through what changes (`Apart`).

The induction is on the depth of the copy and then on the names in a directory. It carries that directories
are there on the way to where the copy goes (`Layer.Opens`), so each entry adds one place to the layer and
what is laid below it.
-/

namespace ModPackager

namespace FileSystem

variable {fs : FileSystem} {source : Path} {names more : List String} {name : String}
  {location dir : Location} {entry : Entry}

/-! ### Paths into a tree -/

theorem Path.text_descend_ne (hsource : source.text ≠ "") (hnames : ∀ name ∈ names, ValidName name) :
    (source.descend names).text ≠ "" := by
  induction names generalizing source with
  | nil => exact hsource
  | cons name rest ih =>
      obtain ⟨hne, -, -, hslash, -⟩ := hnames name List.mem_cons_self
      exact ih (Path.text_child_ne hne hslash) fun other hother => hnames other (List.mem_cons_of_mem _ hother)

theorem namesTo_descend (hsource : source.text ≠ "") (hnames : ∀ name ∈ names, ValidName name) :
    fs.namesTo (source.descend names) = fs.namesTo source ++ names := by
  induction names generalizing source with
  | nil => simp [Path.descend]
  | cons name rest ih =>
      obtain ⟨hne, -, -, hslash, -⟩ := hnames name List.mem_cons_self
      have hchild : (source.child name).text ≠ "" := Path.text_join_ne hsource (Path.isAbsolute_name hslash)
      have hrest := ih hchild fun other hother => hnames other (List.mem_cons_of_mem _ hother)
      rw [namesTo_child fs hsource hne hslash, List.append_assoc] at hrest
      exact hrest

/-- Something in a directory has the first name of a path into it that leads somewhere. -/
theorem exists_entry_of_descend (hdir : fs.resolve true source = .ok (.found dir .directory))
    (hnames : ∀ other ∈ name :: more, ValidName other)
    (h : fs.lookup? (source.descend (name :: more)) = some (location, entry)) :
    ∃ found, fs.entry? (dir ++ [name]) = some found := by
  obtain ⟨⟨-, htext, -⟩, -⟩ := resolve_eq_ok_iff.1 hdir
  obtain ⟨-, hleads⟩ := resolve_eq_ok_iff.1 (lookup?_eq_some_iff.1 h)
  rw [namesTo_descend htext hnames] at hleads
  obtain ⟨fewer, hfewer⟩ := (leadsTo_of_resolve hdir).walk_append
  obtain ⟨-, hdot, hup, -⟩ := hnames name List.mem_cons_self
  exact (hfewer.1 hleads (by simp)).exists_first hdot hup

/-- Paths into a file lead nowhere. -/
theorem lookup?_descend_of_leaf (hleaf : fs.resolve true source = .ok (.found location entry))
    (hentry : entry ≠ .directory) (hnames : ∀ name ∈ names, ValidName name) (hne : names ≠ []) :
    fs.lookup? (source.descend names) = none := by
  by_contra hsome
  obtain ⟨⟨place, found⟩, hfound⟩ := Option.ne_none_iff_exists'.1 hsome
  obtain ⟨hpath, hpresent⟩ := resolve_eq_ok_iff.1 hleaf
  obtain ⟨-, hleads⟩ := resolve_eq_ok_iff.1 (lookup?_eq_some_iff.1 hfound)
  rw [namesTo_descend hpath.2.1 hnames] at hleads
  obtain ⟨dir, hdir⟩ := hleads.split hne
  cases hpresent.unique hdir.of_slash
  exact hentry rfl

/-- No path into a tree runs through what may change. -/
def Apart (fs : FileSystem) (source : Path) (changed : Location → Prop) : Prop :=
  ∀ names : List String, (∀ name ∈ names, ValidName name) →
    ∀ place ∈ fs.way (source.descend names), ¬ changed place

theorem Apart.child {changed : Location → Prop} (h : Apart fs source changed) (hname : ValidName name) :
    Apart fs (source.child name) changed := fun names hnames =>
  h (name :: names) (by simpa using ⟨hname, hnames⟩)

/-- A tree without links is apart from what changes neither on the way to it nor at or below its directory. -/
theorem apart_of_unlinked {changed : Location → Prop} (hsource : source.text ≠ "")
    (hdir : fs.LeadsTo (fs.namesTo source) dir)
    (hunlinked : ∀ place text, dir <+: place → fs.entry? place ≠ some (.link text))
    (hway : ∀ place ∈ fs.way source, ¬ changed place) (hbelow : ∀ place, dir <+: place → ¬ changed place) :
    Apart fs source changed := by
  intro names hnames place hplace
  obtain ⟨fewer, hfewer⟩ := Leads.mem_trail_append hdir
  rw [way, namesTo_descend hsource hnames] at hplace
  rcases (hfewer names place).1 hplace with htrail | htrail
  · exact hway place htrail
  · refine hbelow place (prefix_of_mem_trail hunlinked ?_ htrail)
    exact fun hmem => (hnames _ hmem).2.2.1 rfl

section Apart

variable {changed : Location → Prop} {later : FileSystem} (h : Apart fs source changed)
  (hchanges : Changes changed fs later)

include h hchanges

/-- The path of such a tree leads where it did. -/
theorem Apart.resolve : later.resolve true source = fs.resolve true source :=
  hchanges.resolve (h [] (by simp))

/-- So does every path into it. -/
theorem Apart.lookup?_descend (hnames : ∀ name ∈ names, ValidName name) :
    later.lookup? (source.descend names) = fs.lookup? (source.descend names) := by
  rw [lookup?, hchanges.lookup (h names hnames), lookup?]

end Apart

end FileSystem

namespace Deploy

open FileSystem FileAction

variable {fs now now' : FileSystem} {root source target : Path} {place location dir : Location}
  {rel names more : List String} {name : String} {extra : Location → Prop} {site : Site fs root}
  {inv : FileSystem → Prop} {layer lower tree : Layer} {entry : Entry} {contents : ByteArray} {count count' : Nat}

/-- Under an invariant every path into a tree leads to the same. -/
def KeepsTree (inv : FileSystem → Prop) (fs : FileSystem) (source : Path) : Prop :=
  ∀ now, inv now → ∀ names : List String, (∀ name ∈ names, ValidName name) →
    now.lookup? (source.descend names) = fs.lookup? (source.descend names)

namespace KeepsTree

variable (h : KeepsTree inv fs source)

include h

theorem child (hname : ValidName name) : KeepsTree inv fs (source.child name) := fun now hnow names hnames =>
  h now hnow (name :: names) (List.forall_mem_cons.2 ⟨hname, hnames⟩)

theorem descend (hnames : ∀ name ∈ names, ValidName name) : KeepsTree inv fs (source.descend names) := by
  intro now hnow more hmore
  rw [← Path.descend_append]
  exact h now hnow (names ++ more) (List.forall_mem_append.2 ⟨hnames, hmore⟩)

theorem resolve_iff (hnow : inv now) :
    now.resolve true source = .ok (.found location entry) ↔ fs.resolve true source = .ok (.found location entry) := by
  have hsame : now.lookup? source = fs.lookup? source := h now hnow [] nofun
  rw [← lookup?_eq_some_iff, ← lookup?_eq_some_iff, hsame]

end KeepsTree

/-- A tree is kept if no path into it runs through what changes. -/
theorem keepsTree_of_apart (h : Apart fs source fun place => site.Affects place ∨ extra place) :
    KeepsTree (site.Prepared extra) fs source := fun _ hnow _ hnames => h.lookup?_descend hnow.changes hnames

/-! ### Layers of trees -/

namespace Layer

/-- The tree below a path, links followed. -/
def ofTree (fs : FileSystem) (source : Path) : Layer := fun rel =>
  if ∀ name ∈ rel, ValidName name then (fs.lookup? (source.descend rel)).map (·.2) else none

/-- A layer moved down to where names lead. -/
def below (names : List String) (layer : Layer) : Layer := fun rel =>
  if names <+: rel then layer (rel.drop names.length) else none

/-- The part of a layer under some names. -/
def under (names : List String) (layer : Layer) : Layer
  | [] => none
  | name :: rest => if name ∈ names then layer (name :: rest) else none

/-- Directories are there on the way that names spell. -/
def Opens (layer : Layer) (names : List String) : Prop :=
  ∀ front, front <+: names → front ≠ [] → layer front = some .directory

theorem ofTree_cons (hname : ValidName name) :
    ofTree fs source (name :: more) = ofTree fs (source.child name) more := by
  simp [ofTree, hname, Path.descend]

theorem ofTree_nil : ofTree fs source [] = (fs.lookup? source).map (·.2) := by
  simp [ofTree, Path.descend]

@[simp] theorem below_append : below names layer (names ++ more) = layer more := by
  simp [below]

theorem below_of_not (h : ¬ names <+: more) : below names layer more = none := if_neg h

@[simp] theorem below_self : below names layer names = layer [] := by
  simp [below]

theorem below_nil : below [] layer = layer := by
  funext rel
  simp [below]

theorem Opens.over {upper : Layer} (h : layer.Opens names)
    (hupper : ∀ front, front <+: names → upper front = none) : (upper.over layer).Opens names := by
  intro front hfront hne
  rw [Layer.over, hupper front hfront, Option.none_or, h front hfront hne]

/-- What is laid below an entry is not on the way to the directory of the entry. -/
theorem Opens.below_over {upper : Layer} (h : layer.Opens names) :
    ((below (names ++ [name]) upper).over layer).Opens names :=
  h.over fun front hfront => below_of_not fun hlong => by
    have hlength := hlong.length_le.trans hfront.length_le
    simp only [List.length_append, List.length_singleton] at hlength
    omega

theorem under_apply {other : String} :
    under names layer (other :: more) = if other ∈ names then layer (other :: more) else none := rfl

theorem below_under_nil : (below rel (under [] layer)).over lower = lower := by
  funext place
  rw [over_apply, below]
  rcases place.drop rel.length with _ | ⟨other, more⟩ <;> simp [under]

/-- The part of a layer under one name, and then the part under others. -/
theorem below_under_cons (hfirst : ∀ more, tree (name :: more) = layer more) :
    (below rel (under names tree)).over ((below (rel ++ [name]) layer).over lower)
      = (below rel (under (name :: names) tree)).over lower := by
  funext place
  simp only [over_apply]
  by_cases hrel : rel <+: place
  · obtain ⟨behind, rfl⟩ := hrel
    rcases behind with _ | ⟨other, more⟩
    · have hshort : ¬ rel ++ [name] <+: rel ++ [] := fun hlong => by
        simpa using (List.prefix_append_right_inj rel).1 hlong
      rw [below_append, below_append, below_of_not hshort, under, under, Option.none_or]
    · rw [below_append, below_append, under_apply, under_apply]
      by_cases hname : other = name
      · have hmore : below (rel ++ [name]) layer (rel ++ other :: more) = tree (other :: more) := by
          have hsplit : rel ++ other :: more = rel ++ [other] ++ more := by simp
          rw [hsplit, hname, below_append, hfirst]
        rw [hmore, if_pos (List.mem_cons.2 (.inl hname))]
        by_cases hmem : other ∈ names
        · rw [if_pos hmem, ← Option.or_assoc, Option.or_self]
        · rw [if_neg hmem, Option.none_or]
      · have hother : ¬ rel ++ [name] <+: rel ++ other :: more := by
          rw [List.prefix_append_right_inj, List.cons_prefix_cons]
          exact fun h => hname h.1.symm
        simp [below_of_not hother, List.mem_cons, hname]
  · have hlong : ¬ rel ++ [name] <+: place := fun h => hrel ((List.prefix_append _ _).trans h)
    rw [below_of_not hrel, below_of_not hrel, below_of_not hlong, Option.none_or]

section Plain

variable (hplain : ∀ other ∈ rel ++ [name], ValidName other)

include hplain

theorem mem_onWay_concat : place ∈ onWay (rel ++ [name]) ↔ place <+: rel ∨ place = rel ++ [name] := by
  have hclimb : ∀ front, front <+: rel ++ [name] → climb [] front = front := fun front hfront => by
    rw [climb_of_plain (ValidName.plain fun other hother => hplain other (hfront.subset hother)), List.nil_append]
  rw [mem_onWay]
  constructor
  · rintro ⟨front, hfront, rfl⟩
    rw [hclimb front hfront]
    exact (List.prefix_concat_iff.1 hfront).symm
  · intro hplace
    have hfront : place <+: rel ++ [name] := List.prefix_concat_iff.2 hplace.symm
    exact ⟨place, hfront, hclimb place hfront⟩

/-- A directory more, where there are directories on the way. -/
theorem ofDirectories_over (hopens : layer.Opens rel) (hplace : place ≠ []) :
    ((ofDirectories (rel ++ [name])).over layer) place
      = if place = rel ++ [name] then some .directory else layer place := by
  simp only [Layer.over, ofDirectories, mem_onWay_concat hplain]
  by_cases hend : place = rel ++ [name]
  · simp [hend]
  · by_cases hfront : place <+: rel
    · simp [hend, hfront, hopens place hfront hplace]
    · simp [hend, hfront]

theorem Opens.ofDirectories_over (hopens : layer.Opens rel) :
    ((ofDirectories (rel ++ [name])).over layer).Opens (rel ++ [name]) := by
  intro front hfront hne
  rw [Layer.ofDirectories_over hplain hopens hne]
  split
  · rfl
  next hshort => exact hopens front ((List.prefix_concat_iff.1 hfront).resolve_left hshort) hne

/-- A file more, where there are directories on the way. -/
theorem ofFile_over (hopens : layer.Opens rel) (hplace : place ≠ []) :
    ((ofFile (rel ++ [name]) contents).over layer) place
      = if place = rel ++ [name] then some (.file contents) else layer place := by
  have hclimb : climb [] (rel ++ [name]) = rel ++ [name] := by
    rw [climb_of_plain (ValidName.plain hplain), List.nil_append]
  by_cases hend : place = rel ++ [name]
  · simp [Layer.over, ofFile, hclimb, hend]
  · have hdirectories := ofDirectories_over hplain hopens hplace
    simp only [if_neg hend] at hdirectories ⊢
    simpa [Layer.over, ofFile, hclimb, hend] using hdirectories

end Plain

end Layer

open Layer

/-- Nothing lies below what is no directory. -/
theorem ofTree_of_leaf (hleaf : fs.resolve true source = .ok (.found location entry))
    (hentry : entry ≠ .directory) (hmore : more ≠ []) : ofTree fs source more = none := by
  unfold ofTree
  split
  next hvalid => rw [lookup?_descend_of_leaf hleaf hentry hvalid hmore, Option.map_none]
  · rfl

theorem ofTree_self (h : fs.resolve true source = .ok (.found location entry)) :
    ofTree fs source [] = some entry := by
  rw [ofTree_nil, lookup?_eq_some_iff.2 h, Option.map_some]

/-- Making the copy of a directory adds nothing to what is then copied below it. -/
theorem ofTree_over_ofDirectories (hfound : fs.resolve true source = .ok (.found location .directory))
    (hvalid : ∀ other ∈ rel ++ [name], ValidName other) (hopens : layer.Opens rel) (hplace : place ≠ []) :
    (((ofTree fs source).below (rel ++ [name])).over ((ofDirectories (rel ++ [name])).over layer)) place
      = (((ofTree fs source).below (rel ++ [name])).over layer) place := by
  rw [over_apply, ofDirectories_over hvalid hopens hplace, over_apply]
  by_cases hend : place = rel ++ [name]
  · simp [hend, ofTree_self hfound]
  · rw [if_neg hend]

/-! ### Entries -/

theorem lift_eq_ok {α : Type} {action : FileAction α} {value : α} :
    lift action now = .ok value now' ↔ action now = .ok value now' := by
  unfold lift
  rcases action now with _ | _ <;> simp

theorem entryOf_inv (h : entryOf source now = .ok (location, entry) now') :
    now' = now ∧ now.resolve true source = .ok (.found location entry) := by
  obtain ⟨seen, s, hseen, hrest⟩ := bind_eq_ok.1 h
  cases hseen
  rcases hlookup : now.lookup source with fault | found
  · rw [hlookup] at hrest
    cases hrest
  · rw [hlookup] at hrest
    cases hrest
    exact ⟨rfl, lookup_eq_ok_iff.1 hlookup⟩

/-- Copies an entry of a directory. -/
def copyEntry (fuel : Nat) (ancestors : List Ancestor) (source target : Path) (count : Nat) (name : String) :
    DiskAction Nat := do
  let path := source.child name
  let copy := target.child name
  match ← entryOf path with
  | (location, .directory) =>
    let found := ancestors.find? (·.location == location)
    match found, isLink (← get) path with
    | some ancestor, true => throw (.walkLoop path ancestor.path)
    | _, _ =>
      lift (createDirectories copy)
      return count + (← copyBelow fuel (⟨path, location⟩ :: ancestors) path copy)
  | _ =>
    lift (createParent copy)
    lift (copyFile path copy)
    return count + 1

theorem copyBelow_succ (fuel : Nat) (ancestors : List Ancestor) (source target : Path) :
    copyBelow (fuel + 1) ancestors source target = (do
      let names ← lift (readNames source)
      names.foldlM (copyEntry fuel ancestors source target) 0) := rfl

/-- An entry is copied as a directory, with what is below it, or as a file. -/
theorem copyEntry_inv {fuel : Nat} {ancestors : List Ancestor}
    (h : copyEntry fuel ancestors source target count name now = .ok count' now') :
    ∃ location entry, now.resolve true (source.child name) = .ok (.found location entry)
      ∧ (entry = .directory ∧ (∃ between ancestors copied,
          createDirectories (target.child name) now = .ok () between
          ∧ copyBelow fuel ancestors (source.child name) (target.child name) between = .ok copied now')
        ∨ entry ≠ .directory ∧ ∃ between, createParent (target.child name) now = .ok () between
          ∧ copyFile (source.child name) (target.child name) between = .ok () now') := by
  obtain ⟨⟨location, entry⟩, s, hentry, hrest⟩ := bind_eq_ok.1 h
  obtain ⟨rfl, hfound⟩ := entryOf_inv hentry
  refine ⟨location, entry, hfound, ?_⟩
  by_cases hdirectory : entry = .directory
  · subst hdirectory
    obtain ⟨seen, s', hseen, hloop⟩ := bind_eq_ok.1 hrest
    cases hseen
    generalize ancestors.find? (·.location == location) = ancestor? at hloop
    generalize isLink s (source.child name) = linked at hloop
    have hmake : (lift (createDirectories (target.child name)) >>= fun _ =>
        copyBelow fuel (⟨source.child name, location⟩ :: ancestors) (source.child name) (target.child name)
          >>= fun copied => pure (count + copied)) s = .ok count' now' := by
      rcases ancestor? with _ | ancestor
      · exact hloop
      · cases linked
        · exact hloop
        · cases hloop
    obtain ⟨⟨⟩, between, hmade, hcopied⟩ := bind_eq_ok.1 hmake
    obtain ⟨copied, s', hbelow, hend⟩ := bind_eq_ok.1 hcopied
    cases hend
    exact .inl ⟨rfl, between, _, copied, lift_eq_ok.1 hmade, hbelow⟩
  · have hleaf : (lift (createParent (target.child name)) >>= fun _ =>
        lift (copyFile (source.child name) (target.child name)) >>= fun _ => pure (count + 1)) s
          = .ok count' now' := by
      cases entry with
      | directory => exact absurd rfl hdirectory
      | _ => exact hrest
    obtain ⟨⟨⟩, between, hparent, hcopy⟩ := bind_eq_ok.1 hleaf
    obtain ⟨⟨⟩, s', hfile, hend⟩ := bind_eq_ok.1 hcopy
    cases hend
    exact .inr ⟨hdirectory, between, lift_eq_ok.1 hparent, lift_eq_ok.1 hfile⟩

/-- Names are copied one after another. -/
theorem foldlM_laid (source : Path) {copy : Nat → String → DiskAction Nat} (names : List String)
    (hcopy : ∀ {count name now now' count' layer}, name ∈ names → layer.Opens rel → site.Bears inv layer now →
      copy count name now = .ok count' now' → ValidName name
        ∧ site.Bears inv (((ofTree fs (source.child name)).below (rel ++ [name])).over layer) now')
    (hopens : layer.Opens rel) (h : site.Bears inv layer now)
    (hrun : names.foldlM copy count now = .ok count' now') :
    site.Bears inv ((((ofTree fs source).under names).below rel).over layer) now' := by
  induction names generalizing count now layer with
  | nil =>
      cases hrun
      rwa [below_under_nil]
  | cons name rest ih =>
      rw [List.foldlM_cons] at hrun
      obtain ⟨copied, between, hfirst, hrest⟩ := bind_eq_ok.1 hrun
      obtain ⟨hvalid, hlaid⟩ := hcopy List.mem_cons_self hopens h hfirst
      have hall := ih (fun hmem => hcopy (List.mem_cons_of_mem _ hmem)) hopens.below_over hlaid hrest
      have hsame : ∀ more, ofTree fs source (name :: more) = ofTree fs (source.child name) more :=
        fun _ => ofTree_cons hvalid
      rwa [below_under_cons hsame] at hall

/-- Only names of entries are in a directory whose tree is not empty there. -/
theorem under_names (hkeeps : KeepsTree inv fs source) (hnow : inv now)
    (hdir : now.resolve true source = .ok (.found dir .directory))
    (hrel : rel ≠ []) : under (now.names dir) (ofTree fs source) rel = ofTree fs source rel := by
  obtain ⟨name, more, rfl⟩ := List.exists_cons_of_ne_nil hrel
  rw [under_apply]
  split
  · rfl
  next hmem =>
      unfold ofTree
      split
      next hvalid =>
          rw [← hkeeps _ hnow _ hvalid]
          rcases hfound : now.lookup? (source.descend (name :: more)) with _ | ⟨location, entry⟩
          · rfl
          · obtain ⟨found, hthere⟩ := exists_entry_of_descend hdir hvalid hfound
            exact absurd (mem_names.2 (by simp [hthere])) hmem
      · rfl

section Copying

variable (hsupports : site.Supports inv)

include hsupports

/-- A file is copied as it was. -/
theorem copyLeaf_laid (hkeeps : KeepsTree inv fs source)
    (htarget : Extends root target (rel ++ [name])) (hvalid : ∀ other ∈ rel ++ [name], ValidName other)
    (hopens : layer.Opens rel) (h : site.Bears inv layer now)
    (hfound : fs.resolve true source = .ok (.found location entry)) (hentry : entry ≠ .directory)
    {parent : FileSystem} (hparent : createParent target now = .ok () parent)
    (hcopy : copyFile source target parent = .ok () now') :
    site.Bears inv (((ofTree fs source).below (rel ++ [name])).over layer) now' := by
  have hinside : staysInside 0 (rel ++ [name]) = true := staysInside_of_plain (ValidName.plain hvalid)
  obtain ⟨hbearing, -⟩ := (Site.Bearing.createParent hsupports htarget hinside).ok h.bearing hparent
  obtain ⟨between, bytes, hbetween, hread, hlaid⟩ :=
    copyFile_laid htarget hinside hsupports (by simp) hbearing hcopy
  -- The bytes were read where the source was at first.
  obtain rfl : entry = .file bytes := by
    have hsource := lookup_eq_ok_iff.2 ((hkeeps.resolve_iff hbetween).2 hfound)
    rw [readBytes_eq, hsource] at hread
    cases entry <;> cases hread
    rfl
  refine hlaid.congr fun place hplace => ?_
  rw [ofFile_over hvalid hopens hplace]
  by_cases hend : place = rel ++ [name]
  · rw [if_pos hend, hend, over_apply, below_self, ofTree_self hfound, Option.some_or]
  · rw [if_neg hend]
    by_cases hbelow : rel ++ [name] <+: place
    · obtain ⟨more, rfl⟩ := hbelow
      have hmore : more ≠ [] := fun hnil => hend (by simp [hnil])
      rw [over_apply, below_append, ofTree_of_leaf hfound hentry hmore, Option.none_or]
    · rw [over_apply, below_of_not hbelow, Option.none_or]

/-- What is copied from a directory, at most so many levels deep, is its tree. -/
def CopiesTrees (site : Site fs root) (inv : FileSystem → Prop) (fuel : Nat) : Prop :=
  ∀ {ancestors source target rel layer count now now'},
    KeepsTree inv fs source → Extends root target rel →
    (∀ name ∈ rel, ValidName name) → layer.Opens rel → site.Bears inv layer now →
    copyBelow fuel ancestors source target now = .ok count now' →
    site.Bears inv (((ofTree fs source).below rel).over layer) now'

/-- Each entry is copied with its tree. -/
theorem copyEntry_laid {fuel : Nat} {ancestors : List Ancestor} (ih : CopiesTrees site inv fuel)
    (hkeeps : KeepsTree inv fs source) (hname : ValidName name)
    (htarget : Extends root target rel) (hvalid : ∀ name ∈ rel, ValidName name) (hopens : layer.Opens rel)
    (h : site.Bears inv layer now)
    (hrun : copyEntry fuel ancestors source target count name now = .ok count' now') :
    site.Bears inv (((ofTree fs (source.child name)).below (rel ++ [name])).over layer) now' := by
  have hchild := htarget.validChild hname
  have hvalid' : ∀ other ∈ rel ++ [name], ValidName other := by
    simp only [List.mem_append, List.mem_singleton]
    rintro other (hother | rfl)
    · exact hvalid other hother
    · exact hname
  have hinside : staysInside 0 (rel ++ [name]) = true := staysInside_of_plain (ValidName.plain hvalid')
  obtain ⟨location, entry, hfound, ⟨rfl, between, ancestors, copied, hmade, hbelow⟩ | ⟨hleaf, parent, hparent, hcopy⟩⟩ :=
    copyEntry_inv hrun
  · rw [(hkeeps.child hname).resolve_iff h.prepared] at hfound
    have hlaid := createDirectories_laid hchild hinside hsupports h hmade
    refine (ih (hkeeps.child hname) hchild hvalid' (hopens.ofDirectories_over hvalid') hlaid hbelow).congr
      fun place hplace => ?_
    exact ofTree_over_ofDirectories hfound hvalid' hopens hplace
  · rw [(hkeeps.child hname).resolve_iff h.prepared] at hfound
    exact copyLeaf_laid hsupports (hkeeps.child hname) hchild hvalid' hopens h hfound hleaf hparent hcopy

theorem copyBelow_laid (fuel : Nat) : CopiesTrees site inv fuel := by
  induction fuel with
  | zero => exact fun _ _ _ _ _ hrun => by cases hrun
  | succ fuel ih =>
      intro ancestors source target rel layer count now now' hkeeps htarget hvalid hopens h hrun
      rw [copyBelow_succ] at hrun
      obtain ⟨names, s, hread, hfold⟩ := bind_eq_ok.1 hrun
      obtain ⟨rfl, dir, hdir, rfl⟩ := readNames_inv (lift_eq_ok.1 hread)
      have hsource := (hkeeps.resolve_iff h.prepared).1 hdir
      have wfNow := hsupports.wellFormed h.prepared
      have hall := foldlM_laid source (s.names dir) (fun hmem hopens h hentry => by
        obtain ⟨entry, hthere⟩ := Option.isSome_iff_exists.1 (mem_names.1 hmem)
        have hname := wfNow.validName hthere
        exact ⟨hname, copyEntry_laid hsupports ih hkeeps hname htarget hvalid hopens h hentry⟩) hopens h hfold
      refine hall.congr fun place hplace => ?_
      rw [over_apply, over_apply]
      by_cases hrel : rel <+: place
      · obtain ⟨behind, rfl⟩ := hrel
        rw [below_append, below_append]
        by_cases hbehind : behind = []
        · have hself : layer rel = some .directory :=
            hopens rel (List.prefix_refl _) fun hnil => hplace (by simp [hnil, hbehind])
          rw [hbehind, List.append_nil, hself, ofTree_self hsource, under, Option.none_or, Option.some_or]
        · rw [under_names hkeeps h.prepared hdir hbehind]
      · rw [below_of_not hrel, below_of_not hrel]

/-- A copied tree is laid over what was there before. -/
theorem copyTree_laid (hkeeps : KeepsTree inv fs source)
    (htext : root.text ≠ "") (h : site.Bears inv layer now)
    (hsucceeds : ∀ reason, (copyTree source root now).1.outcome ≠ .failed reason) :
    site.Bears inv ((ofTree fs source).over layer) (copyTree source root now).2 := by
  unfold copyTree at hsucceeds ⊢
  split
  next hholds =>
    rw [if_pos hholds] at hsucceeds
    rcases hrun : copyEntries source root now with ⟨files, later⟩ | ⟨e, later⟩
    · obtain ⟨⟨location, entry⟩, s, hentry, hcopy⟩ := bind_eq_ok.1 hrun
      obtain ⟨rfl, -⟩ := entryOf_inv hentry
      have hlaid := copyBelow_laid hsupports _ hkeeps (extends_refl htext) (by simp) ?_ h hcopy
      · rwa [below_nil] at hlaid
      · rintro front hfront hne
        exact absurd (List.prefix_nil.1 hfront) hne
    · simp [hrun] at hsucceeds
  next hholds => simp [hholds] at hsucceeds

end Copying

end Deploy

end ModPackager
