import ModPackager.Proofs.Deploy.Copy
import ModPackager.Proofs.FileSystem.Alike

/-!
# Two deployments of one site

Two prepared states of one site are `Twins` if they hold the same but at hidden places, which have nothing to do
with the site. No path that goes on from the root comes by such a place (`Prepared.not_extra_of_way`), and no path
into a tree that lies apart does. So every deployment step goes the same way in both, and twins stay twins
(`writeFile_tracks`, `copyTree_tracks`).
-/

namespace ModPackager

namespace FileSystem

variable {fs fs' : FileSystem} {links : Nat} {here place : Location} {names : List String} {path : Path}
  {hidden changed : Location → Prop}

/-- Where names spell no link, a way comes by the places that they spell and by no others. -/
theorem exists_climb_of_mem_trail (hunlinked : fs.Unlinked here names) (hplace : place ∈ fs.trail links here names) :
    ∃ front, front <+: names ∧ place = climb here front := by
  induction names generalizing here with
  | nil => exact ⟨[], List.nil_prefix, by simpa [trail_nil] using hplace⟩
  | cons name rest ih =>
      have hhere : place = here → ∃ front, front <+: name :: rest ∧ place = climb here front :=
        fun heq => ⟨[], List.nil_prefix, heq⟩
      have hrest : place ∈ fs.trail links (climbStep here name) rest →
          ∃ front, front <+: name :: rest ∧ place = climb here front := by
        intro hmem
        obtain ⟨front, hfront, rfl⟩ := ih hunlinked.tail hmem
        exact ⟨name :: front, List.prefix_cons_inj name |>.2 hfront, rfl⟩
      by_cases hdir : fs.entry? here = some .directory
      · rcases name_cases name with rfl | rfl | ⟨hdot, hup, hlong⟩ | hname
        · rw [trail_dot hdir] at hplace
          exact (List.mem_cons.1 hplace).elim hhere hrest
        · rw [trail_up hdir] at hplace
          exact (List.mem_cons.1 hplace).elim hhere hrest
        · rw [trail_long hdir hdot hup hlong] at hplace
          exact hhere (List.mem_singleton.1 hplace)
        · rw [trail_name hdir hname] at hplace
          rw [climbStep_of_ordinary hname] at hrest
          rcases List.mem_cons.1 hplace with heq | hmem
          · exact hhere heq
          · rcases List.mem_cons.1 hmem with rfl | hbehind
            · exact hrest here_mem_trail
            · rcases hentry : fs.entry? (here ++ [name]) with _ | ⟨_ | _ | text⟩ <;> rw [hentry] at hbehind
              · cases hbehind
              · exact hrest hbehind
              · exact hrest hbehind
              · have hlink := hunlinked [name] (by simp) text
                rw [climb_cons, climbStep_of_ordinary hname, climb_nil] at hlink
                exact absurd hentry hlink
      · rw [trail_cons_of_not_directory hdir] at hplace
        exact hhere (List.mem_singleton.1 hplace)

/-- Where no name of a path spells a link or a parent, its way goes straight to the place that they spell. -/
theorem prefix_of_mem_way (hunlinked : fs.Unlinked [] (fs.namesTo path)) (hup : ".." ∉ fs.namesTo path)
    (hplace : place ∈ fs.way path) : place <+: climb [] (fs.namesTo path) := by
  obtain ⟨front, hfront, rfl⟩ := exists_climb_of_mem_trail hunlinked hplace
  exact climb_prefix hup hfront

/-- The way of a path that leads through fewer names is part of the way. -/
theorem mem_way_of_part {part : Path} (hpart : fs.namesTo part <+: fs.namesTo path) (hplace : place ∈ fs.way part) :
    place ∈ fs.way path := by
  obtain ⟨more, hmore⟩ := hpart
  rw [way, ← hmore]
  exact trail_append hplace

/-- The way to an entry comes by its place. -/
theorem mem_way_child {name : String} {dir : Location} (hpath : path.text ≠ "") (hname : ValidName name)
    (hdir : fs.LeadsTo (fs.namesTo path) dir) : dir ++ [name] ∈ fs.way (path.child name) := by
  obtain ⟨fewer, hfewer⟩ := Leads.mem_trail_append hdir
  rw [way, namesTo_child fs hpath hname.1 hname.2.2.2.1, hfewer, trail_name hdir.isDirectory hname.ordinary]
  exact .inr (by simp)

/-- The way of a path avoids what may change. -/
def Away (fs : FileSystem) (changed : Location → Prop) (path : Path) : Prop := ∀ place ∈ fs.way path, ¬ changed place

theorem Apart.away {source : Path} (h : Apart fs source changed) : Away fs changed source := h [] (by simp)

end FileSystem

namespace Deploy

open FileSystem FileAction

variable {fs now : FileSystem} {root path source target : Path} {place location : Location} {entry : Entry}
  {rel : List String} {name : String} {extra hidden : Location → Prop} {site : Site fs root}

/-! ### Ways below a site -/

/-- A path that goes on from the root comes by the places on the way to the base of the site, and from there by those
that its names spell. -/
theorem Site.Prepared.mem_way (h : site.Prepared extra now) (hspares : site.Spares extra) (hpath : Extends root path rel)
    (hinside : staysInside 0 rel = true) (hplace : place ∈ now.way path) :
    place ∈ fs.trail maxLinks [] site.known
      ∨ ∃ front, front <+: site.missing ++ rel ∧ place = climb site.base front := by
  have hagree : Agree fs now (fs.trail maxLinks [] site.known) :=
    h.changes.agree fun place hplace => hspares.not_changed hplace
  obtain ⟨fewer, hfewer⟩ := Leads.mem_trail_append (h.leadsTo hspares)
  rw [way, hpath.namesTo_eq, h.changes.namesTo root, site.namesTo_eq, List.append_assoc, hfewer,
    trail_congr hagree] at hplace
  exact hplace.imp_right (exists_climb_of_mem_trail (h.unlinked_append hinside))

/-- A path that goes on from the root comes by nothing that has nothing to do with the site. -/
theorem Site.Prepared.not_extra_of_way (h : site.Prepared extra now) (hspares : site.Spares extra)
    (hpath : Extends root path rel) (hinside : staysInside 0 rel = true) (hplace : place ∈ now.way path) :
    ¬ extra place := by
  rcases h.mem_way hspares hpath hinside hplace with hknown | ⟨front, hfront, rfl⟩
  · exact fun hextra => hspares.way _ hknown (.inr hextra)
  · rcases prefix_append_cases hfront with habove | ⟨more, -, rfl, hmore⟩
    · exact fun hextra => hspares.above _ hextra (site.climb_prefix_dir habove)
    · obtain ⟨tail, rfl⟩ := hmore
      have hbelow : site.dir <+: climb site.base (site.missing ++ more) := by
        rw [climb_append]
        change site.dir <+: climb site.dir more
        rw [climb_of_staysInside_zero (staysInside_of_append hinside)]
        exact List.prefix_append _ _
      exact fun hextra => hspares.below _ hextra hbelow

/-! ### Twins -/

/-- Two prepared states of one site that hold the same but at hidden places. -/
structure Site.Twins (site : Site fs root) (extra hidden : Location → Prop) (s t : FileSystem) : Prop where
  left : site.Prepared extra s
  right : site.Prepared extra t
  alike : Alike hidden s t

namespace Site.Twins

variable {s t : FileSystem}

theorem mono {larger : Location → Prop} (h : site.Twins extra hidden s t)
    (hlarger : ∀ {place}, hidden place → larger place) : site.Twins extra larger s t :=
  ⟨h.left, h.right, h.alike.mono hlarger⟩

/-- Something else changed hidden places of the first one. -/
theorem left_extra (h : site.Twins extra hidden s t) {later : FileSystem} (hchanges : Changes hidden s later)
    (hhidden : ∀ {place}, hidden place → extra place) : site.Twins extra hidden later t :=
  ⟨h.left.trans_extra (hchanges.weaken hhidden), h.right, hchanges.alike.symm.trans h.alike⟩

/-- A path that nothing leads astray leads both to the same place as before. -/
theorem resolve_away (h : site.Twins extra hidden s t)
    (haway : Away fs (fun place => site.Affects place ∨ extra place) path) (follow : Bool) :
    t.resolve follow path = s.resolve follow path :=
  (h.right.changes.resolve haway).trans (h.left.changes.resolve haway).symm

variable (hspares : site.Spares extra) (hhidden : ∀ {place}, hidden place → extra place)
  (hpath : Extends root path rel) (hinside : staysInside 0 rel = true)

include hspares hhidden hpath hinside

/-- What is on the way of a path that goes on from the root leads to the same place in both. -/
theorem resolve_part (h : site.Twins extra hidden s t) {part : Path} (hpart : s.namesTo part <+: s.namesTo path)
    (follow : Bool) : t.resolve follow part = s.resolve follow part :=
  h.alike.resolve (fun _ hplace hplaceHidden =>
    h.left.not_extra_of_way hspares hpath hinside (mem_way_of_part hpart hplace) (hhidden hplaceHidden)) follow

theorem follows : Follows (site.Twins extra hidden) path :=
  fun _ _ h => h.resolve_part hspares hhidden hpath hinside (List.prefix_refl _)

variable (wf : fs.WellFormed)

include wf

theorem makes (h : site.Twins extra hidden s t) (hmakes : MakesAt s path location) :
    site.Twins extra hidden (s.put location .directory) (t.put location .directory) := by
  have hmakesToo : MakesAt t path location := by
    obtain ⟨part, hpart, htrimmed, hresolve⟩ := hmakes
    refine ⟨part, ?_, htrimmed, (h.resolve_part hspares hhidden hpath hinside hpart false).trans hresolve⟩
    rwa [h.right.changes.namesTo, h.right.changes.namesTo, ← h.left.changes.namesTo, ← h.left.changes.namesTo]
  have hroot : location ≠ [] := by
    obtain ⟨_, -, -, hresolve⟩ := hmakes
    exact (writable_of_vacant hresolve).ne_nil
  exact ⟨h.left.makeDirectory hspares wf hpath hinside hmakes, h.right.makeDirectory hspares wf hpath hinside hmakesToo,
    h.alike.put hroot⟩

theorem writes (h : site.Twins extra hidden s t) (hne : rel ≠ []) (hwrites : WritesAt s path location)
    {contents : ByteArray} :
    site.Twins extra hidden (s.put location (.file contents)) (t.put location (.file contents)) := by
  have hwritesToo : WritesAt t path location := by
    unfold WritesAt
    rw [follows hspares hhidden hpath hinside s t h]
    exact hwrites
  exact ⟨h.left.writeFile hspares wf hpath hinside hne hwrites, h.right.writeFile hspares wf hpath hinside hne hwritesToo,
    h.alike.put (hwrites.writable (h.left.changes.wellFormed wf)).ne_nil⟩

theorem createDirectories : Tracks (site.Twins extra hidden) (createDirectories path) :=
  createDirectories_tracks (fun h hpart => h.resolve_part hspares hhidden hpath hinside hpart)
    fun h hmakes => h.makes hspares hhidden hpath hinside wf hmakes

theorem createParent : Tracks (site.Twins extra hidden) (createParent path) :=
  createParent_tracks (fun h hpart => h.resolve_part hspares hhidden hpath hinside hpart)
    fun h hmakes => h.makes hspares hhidden hpath hinside wf hmakes

theorem writeBytes (hne : rel ≠ []) (contents : ByteArray) :
    Tracks (site.Twins extra hidden) (writeBytes path contents) :=
  writeBytes_tracks (follows hspares hhidden hpath hinside)
    fun h hwrites => h.writes hspares hhidden hpath hinside wf hne hwrites

theorem copyFile (hne : rel ≠ []) (hsource : Follows (site.Twins extra hidden) source) :
    Tracks (site.Twins extra hidden) (copyFile source path) :=
  copyFile_tracks hsource (follows hspares hhidden hpath hinside)
    fun h hwrites => h.writes hspares hhidden hpath hinside wf hne hwrites

end Site.Twins

/-! ### Steps -/

section Steps

variable {rel : FileSystem → FileSystem → Prop} {α : Type}

/-- A step comes to the same in related states, and leaves them related. -/
def StepTracks (rel : FileSystem → FileSystem → Prop) (step : Step) : Prop :=
  ∀ s t, rel s t → (step t).1 = (step s).1 ∧ rel (step s).2 (step t).2

theorem lift_tracks {action : FileAction α} (h : Tracks rel action) : Tracks rel (lift action) := by
  intro s t hs
  have hend := h s t hs
  unfold lift
  generalize action s = first, action t = other at hend
  cases hend with
  | ok hrel => exact .ok hrel
  | error hrel => exact .error hrel

theorem toStep_tracks {action : DiskAction Unit} (h : Tracks rel action) : StepTracks rel (toStep action) := by
  intro s t hs
  have hend := h s t hs
  unfold toStep
  generalize action s = first, action t = other at hend
  cases hend with
  | ok hrel => exact ⟨rfl, hrel⟩
  | error hrel => exact ⟨rfl, hrel⟩

theorem entryOf_tracks (h : Follows rel path) : Tracks rel (entryOf path) := by
  refine Tracks.get_bind (fun hs => ?_) fun s => ?_
  · rw [h.lookup hs]
  · split
    · exact .pure
    · exact .throw

theorem isLink_of_follows (h : Follows rel path) {s t : FileSystem} (hs : rel s t) : isLink t path = isLink s path := by
  unfold isLink
  rw [h s t hs]

end Steps

section Twins

variable (hspares : site.Spares extra) (wf : fs.WellFormed) (hhidden : ∀ {place}, hidden place → extra place)

include hspares wf hhidden

theorem writeFile_tracks (hpath : Extends root path rel) (hinside : staysInside 0 rel = true) (hne : rel ≠ [])
    (text : String) : StepTracks (site.Twins extra hidden) (writeFile path text) :=
  toStep_tracks <| lift_tracks <| (Site.Twins.createParent hspares hhidden hpath hinside wf).bind
    fun _ => Site.Twins.writeBytes hspares hhidden hpath hinside wf hne _

/-! ### Copying -/

omit hspares hhidden in
/-- Twins list the same names in a directory that lies apart. -/
theorem Site.Twins.names_eq {s t : FileSystem} {dir : Location} (h : site.Twins extra hidden s t)
    (hapart : Apart fs source fun place => site.Affects place ∨ extra place) (hsource : source.text ≠ "")
    (hdir : s.resolve true source = .ok (.found dir .directory)) : t.names dir = s.names dir := by
  have hleads : fs.LeadsTo (fs.namesTo source) dir := leadsTo_of_resolve ((hapart.resolve h.left.changes) ▸ hdir)
  refine names_congr (h.left.changes.wellFormed wf) (h.right.changes.wellFormed wf) fun name hname => ?_
  have hkept : ¬ (site.Affects (dir ++ [name]) ∨ extra (dir ++ [name])) :=
    (hapart.child hname).away _ (mem_way_child hsource hname hleads)
  rw [h.left.changes.entries _ hkept, h.right.changes.entries _ hkept]

/-- Copying, at most so many levels deep, does the same in twins. -/
def CopiesAlike (site : Site fs root) (extra hidden : Location → Prop) (fuel : Nat) : Prop :=
  ∀ {ancestors source target rel}, (Apart fs source fun place => site.Affects place ∨ extra place) →
    source.text ≠ "" → Extends root target rel → (∀ name ∈ rel, ValidName name) →
    Tracks (site.Twins extra hidden) (copyBelow fuel ancestors source target)

theorem copyEntry_tracks {fuel count : Nat} {ancestors : List Ancestor} (ih : CopiesAlike site extra hidden fuel)
    (hapart : Apart fs source fun place => site.Affects place ∨ extra place) (htarget : Extends root target rel)
    (hvalid : ∀ name ∈ rel, ValidName name) (hname : ValidName name) :
    Tracks (site.Twins extra hidden) (copyEntry fuel ancestors source target count name) := by
  have hcopy := htarget.validChild hname
  have hvalid' : ∀ other ∈ rel ++ [name], ValidName other :=
    List.forall_mem_append.2 ⟨hvalid, by simpa using hname⟩
  have hinside : staysInside 0 (rel ++ [name]) = true := staysInside_of_plain (ValidName.plain hvalid')
  have hfollows : Follows (site.Twins extra hidden) (source.child name) :=
    fun _ _ h => h.resolve_away (hapart.child hname).away
  refine (entryOf_tracks hfollows).bind fun found => ?_
  split
  · refine .get_bind (fun hs => ?_) fun seen => ?_
    · rw [isLink_of_follows hfollows hs]
    · split
      · exact .throw
      · refine (lift_tracks (Site.Twins.createDirectories hspares hhidden hcopy hinside wf)).bind fun _ => ?_
        exact (ih (hapart.child hname) (Path.text_child_ne hname.1 hname.2.2.2.1) hcopy hvalid').bind fun _ => .pure
  · refine (lift_tracks (Site.Twins.createParent hspares hhidden hcopy hinside wf)).bind fun _ => ?_
    exact (lift_tracks (Site.Twins.copyFile hspares hhidden hcopy hinside wf (by simp) hfollows)).bind fun _ => .pure

theorem copyBelow_tracks (fuel : Nat) : CopiesAlike site extra hidden fuel := by
  induction fuel with
  | zero => exact fun _ _ _ _ => .throw
  | succ fuel ih =>
      intro ancestors source target rel hapart hsource htarget hvalid
      rw [copyBelow_succ]
      have hread : Tracks (site.Twins extra hidden) (readNames source) :=
        readNames_tracks (fun _ _ h => h.resolve_away hapart.away) fun h hdir => h.names_eq wf hapart hsource hdir
      have hnames : Maintains (site.Prepared extra) (lift (readNames source)) fun names => ∀ name ∈ names, ValidName name :=
        lift_maintains (readNames_maintains fun h => h.changes.wellFormed wf)
      refine (lift_tracks hread).bind_of (fun h hrun => (hnames.ok h.left hrun).2) fun names hnames => ?_
      exact .foldlM (fun count name hname =>
        copyEntry_tracks hspares wf hhidden ih hapart htarget hvalid (hnames name hname)) 0

theorem copyTree_tracks (hapart : Apart fs source fun place => site.Affects place ∨ extra place)
    (hsource : source.text ≠ "") (htext : root.text ≠ "") {s t : FileSystem} (h : site.Twins extra hidden s t) :
    (copyTree source root t).1 = (copyTree source root s).1
      ∧ site.Twins extra hidden (copyTree source root s).2 (copyTree source root t).2 := by
  have hfollows : Follows (site.Twins extra hidden) source := fun _ _ h => h.resolve_away hapart.away
  have hcopy : Tracks (site.Twins extra hidden) (copyEntries source root) :=
    (entryOf_tracks hfollows).bind fun found =>
      copyBelow_tracks hspares wf hhidden _ hapart hsource (extends_refl htext) (by simp)
  have hend := hcopy s t h
  unfold copyTree
  rw [holdsDirectory_of_resolve (hfollows s t h true)]
  split
  · generalize copyEntries source root s = first, copyEntries source root t = other at hend
    cases hend with
    | ok hrel => exact ⟨rfl, hrel⟩
    | error hrel => exact ⟨rfl, hrel⟩
  · exact ⟨rfl, h⟩

end Twins

end Deploy

end ModPackager
