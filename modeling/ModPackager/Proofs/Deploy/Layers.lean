import Mathlib.Data.List.Infix
import ModPackager.Proofs.Deploy.Site
import ModPackager.Proofs.FileSystem.Success

/-!
# Layers below a site

What lies below a site is told by a `Layer`: a function from the names that lead there from the site. Each
deployment step that succeeds puts a layer of its own over what was there before it: the directories of the
skeleton (`createSkeleton_laid`), a file with the directories on the way to it (`writeFile_laid`).

Two facts give the layer of a step. Only the way that the names of its path spell can change (`Site.Bearing`), and
a step that succeeds has found or made a directory at every place on that way but the last one
(`Stands.isDirectory_front`). Both go for every invariant that supports the site.
-/

namespace ModPackager.Deploy

open FileSystem FileAction

variable {fs now now' : FileSystem} {root path source : Path} {place location : Location}
  {rel names front : List String} {extra : Location → Prop} {site : Site fs root} {contents : ByteArray}
  {entry : Entry}

/-! ### Layers -/

/-- What lies below a directory, by the names that lead there from the directory. -/
abbrev Layer := Location → Option Entry

/-- A layer on top of another one. -/
def Layer.over (upper lower : Layer) : Layer := fun rel => (upper rel).or (lower rel)

namespace Layer

theorem over_apply (upper lower : Layer) (rel : Location) :
    (upper.over lower) rel = (upper rel).or (lower rel) := rfl

/-- The layer without anything. -/
def empty : Layer := fun _ => none

theorem over_assoc (upper middle lower : Layer) : (upper.over middle).over lower = upper.over (middle.over lower) :=
  funext fun _ => Option.or_assoc

theorem empty_over (lower : Layer) : empty.over lower = lower := funext fun _ => Option.none_or

theorem over_empty (upper : Layer) : upper.over empty = upper := funext fun _ => Option.or_none

/-- The locations on the way that names spell. -/
def onWay (names : List String) : List Location := names.inits.map (climb [])

theorem mem_onWay : place ∈ onWay names ↔ ∃ front, front <+: names ∧ climb [] front = place := by
  simp [onWay, List.mem_inits]

/-- The directories on the way that names spell. -/
def ofDirectories (names : List String) : Layer := fun rel =>
  if rel ∈ onWay names then some .directory else none

/-- A file, with the directories on the way to it. -/
def ofFile (names : List String) (contents : ByteArray) : Layer := fun rel =>
  if rel = climb [] names then some (.file contents) else ofDirectories names rel

/-- Off the way of a file nothing comes with it. -/
theorem ofFile_of_not_mem (h : place ∉ onWay names) : ofFile names contents place = none := by
  have hend : place ≠ climb [] names := by
    rintro rfl
    exact h (mem_onWay.2 ⟨names, List.prefix_refl _, rfl⟩)
  rw [ofFile, if_neg hend, ofDirectories, if_neg h]

/-- The file of a layer lies where its names lead. -/
theorem eq_climb_of_ofFile {old : ByteArray} (h : ofFile names contents place = some (.file old)) :
    place = climb [] names := by
  by_contra hne
  rw [ofFile, if_neg hne, ofDirectories] at h
  split at h <;> cases h

end Layer

variable {layer other : Layer}

/-! ### What lies below a site -/

/-- A state of an invariant with exactly a layer below a site. -/
structure Site.Bears (site : Site fs root) (inv : FileSystem → Prop) (layer : Layer) (now : FileSystem) :
    Prop where
  prepared : inv now
  lays : ∀ rel, rel ≠ [] → now.entry? (site.dir ++ rel) = layer rel

/-- A state of an invariant with a layer below a site, but for the way that names spell. -/
structure Site.Bearing (site : Site fs root) (inv : FileSystem → Prop) (names : List String) (layer : Layer)
    (now : FileSystem) : Prop where
  prepared : inv now
  lays : ∀ rel, rel ∉ Layer.onWay names → now.entry? (site.dir ++ rel) = layer rel

/-- A prepared site with exactly a layer below it. -/
abbrev Site.Laid (site : Site fs root) (extra : Location → Prop) (layer : Layer) (now : FileSystem) : Prop :=
  site.Bears (site.Prepared extra) layer now

namespace Site.Bears

variable {inv : FileSystem → Prop}

/-- Layers that hold the same below a directory are the same below a site. -/
theorem congr (h : site.Bears inv layer now) (heq : ∀ rel, rel ≠ [] → layer rel = other rel) :
    site.Bears inv other now := ⟨h.prepared, fun rel hrel => (h.lays rel hrel).trans (heq rel hrel)⟩

theorem bearing (h : site.Bears inv layer now) : site.Bearing inv names layer now := by
  refine ⟨h.prepared, fun rel hoff => h.lays rel ?_⟩
  rintro rfl
  exact hoff (Layer.mem_onWay.2 ⟨[], List.nil_prefix, climb_nil []⟩)

end Site.Bears

namespace Site.Laid

theorem mono {wider : Location → Prop} (h : site.Laid extra layer now)
    (hwider : ∀ place, extra place → wider place) : site.Laid wider layer now := ⟨h.prepared.mono hwider, h.lays⟩

/-- What is laid below a site is told by the entries below it. -/
theorem beside (h : site.Laid extra layer now) (hprepared : site.Prepared extra now')
    (hbeneath : ∀ place, Beneath site.dir place → now'.entry? place = now.entry? place) :
    site.Laid extra layer now' := by
  refine ⟨hprepared, fun rel hrel => ?_⟩
  rw [hbeneath _ (beneath_iff.2 ⟨rel, hrel, rfl⟩), h.lays rel hrel]

end Site.Laid

section Supports

variable {inv : FileSystem → Prop}

namespace Site.Bearing

/-- Something was put at a place above the site or on the way. -/
theorem put (h : site.Bearing inv names layer now) (hprepared : inv (now.put location entry))
    (hroot : location ≠ [])
    (hplace : location <+: site.dir ∨ ∃ front, front <+: names ∧ location = site.dir ++ climb [] front) :
    site.Bearing inv names layer (now.put location entry) := by
  refine ⟨hprepared, fun rel hoff => ?_⟩
  rw [entry?_put_of_ne hroot, h.lays rel hoff]
  rintro rfl
  rcases hplace with habove | ⟨front, hfront, heq⟩
  · have hnil : rel = [] := by
      have hlength := habove.length_le
      rw [List.length_append] at hlength
      exact List.length_eq_zero_iff.1 (by omega)
    exact hoff (Layer.mem_onWay.2 ⟨[], List.nil_prefix, by rw [hnil, climb_nil]⟩)
  · exact hoff (Layer.mem_onWay.2 ⟨front, hfront, (List.append_cancel_left heq).symm⟩)

variable (hsupports : site.Supports inv) (hpath : Extends root path names) (hinside : staysInside 0 names = true)

include hsupports hpath hinside

theorem makes (h : site.Bearing inv names layer now) (hmakes : MakesAt now path location) :
    site.Bearing inv names layer (now.put location .directory) := by
  have hroot : location ≠ [] := by
    obtain ⟨_, -, -, hvacant⟩ := hmakes
    exact (writable_of_vacant hvacant).ne_nil
  refine h.put (hsupports.makes h.prepared hpath hinside hmakes) hroot ?_
  rcases (hsupports.stands h.prepared).makesAt hpath hinside hmakes with ⟨front, hfront, rfl⟩ | ⟨-, hfront⟩
  · exact .inl (climb_prefix_dir hfront)
  · exact .inr hfront

theorem createDirectories :
    Maintains (site.Bearing inv names layer) (createDirectories path) fun _ => True :=
  createDirectories_maintains fun h hmakes => h.makes hsupports hpath hinside hmakes

theorem createParent : Maintains (site.Bearing inv names layer) (createParent path) fun _ => True :=
  createParent_maintains fun h hmakes => h.makes hsupports hpath hinside hmakes

theorem writes (h : site.Bearing inv names layer now) (hne : names ≠ [])
    (hwrites : WritesAt now path location) :
    site.Bearing inv names layer (now.put location (.file contents)) := by
  refine h.put (hsupports.writes h.prepared hpath hinside hne hwrites) hwrites.ne_nil
    (.inr ⟨names, List.prefix_refl _, ?_⟩)
  exact ((hsupports.stands h.prepared).writesAt hpath hinside hne hwrites).2

theorem writeBytes (hne : names ≠ []) :
    Maintains (site.Bearing inv names layer) (writeBytes path contents) fun _ => True :=
  writeBytes_maintains fun h hwrites => h.writes hsupports hpath hinside hne hwrites

end Site.Bearing

/-! ### On the way of a path -/

section Paths

variable (hpath : Extends root path names) (hinside : staysInside 0 names = true)

include hpath hinside

/-- A path that leads somewhere goes through directories. -/
theorem Site.Stands.isDirectory_front (h : site.Stands now) {follow slash : Bool} {target : Target}
    (hleads : Leads now follow maxLinks [] (now.namesTo path) slash target) (hfront : front <+: names)
    (hne : front ≠ names) : now.entry? (site.dir ++ climb [] front) = some .directory := by
  obtain ⟨more, rfl⟩ := hfront
  have hmore : more ≠ [] := by
    rintro rfl
    exact hne (by simp)
  obtain ⟨fewer, hfewer⟩ := h.leadsTo.walk_append
  rw [h.namesTo_eq hpath] at hleads
  have hbehind := hfewer.1 hleads (by simp [hmore])
  have hunlinked := h.unlinked hinside
  rw [← List.append_assoc] at hbehind hunlinked
  have hdir := hbehind.isDirectory_climb hmore (hunlinked.of_prefix (List.prefix_append _ _))
  rwa [climb_append, ← Site.dir, climb_of_staysInside_zero (staysInside_of_append hinside)] at hdir

/-- A path that leads to a directory leads to the one that its names spell. -/
theorem Site.Stands.isDirectory_end (h : site.Stands now) (hholds : now.holdsDirectory path = true) :
    now.entry? (site.dir ++ climb [] names) = some .directory := by
  obtain ⟨place, hresolve⟩ := holdsDirectory_iff.1 hholds
  have hplace := place_eq_climb hresolve (h.namesTo_eq hpath) h.leadsTo (h.unlinked hinside) fun _ => rfl
  rw [climb_append, ← Site.dir, climb_of_staysInside_zero hinside] at hplace
  exact hplace ▸ entry?_of_found hresolve

/-! ### Operations that succeed -/

variable (hsupports : site.Supports inv)

include hsupports

/-- Making a directory lays directories on the way to it over what was there. -/
theorem createDirectories_laid (h : site.Bears inv layer now)
    (hrun : createDirectories path now = .ok () now') :
    site.Bears inv ((Layer.ofDirectories names).over layer) now' := by
  obtain ⟨hbearing, -⟩ := (Site.Bearing.createDirectories hsupports hpath hinside).ok h.bearing hrun
  have hholds := createDirectories_holds hpath.text_ne hrun
  have hstands := hsupports.stands hbearing.prepared
  refine ⟨hbearing.prepared, fun rel _ => ?_⟩
  by_cases hon : rel ∈ Layer.onWay names
  · obtain ⟨front, hfront, rfl⟩ := Layer.mem_onWay.1 hon
    simp only [Layer.over, Layer.ofDirectories, if_pos hon, Option.some_or]
    by_cases hend : front = names
    · rw [hend]
      exact hstands.isDirectory_end hpath hinside hholds
    · obtain ⟨_, hresolve⟩ := holdsDirectory_iff.1 hholds
      exact hstands.isDirectory_front hpath hinside (resolve_eq_ok_iff.1 hresolve).2 hfront hend
  · rw [hbearing.lays rel hon]
    simp [Layer.over, Layer.ofDirectories, hon]

/-- Writing a file lays it, with the directories on the way to it, over what was there before these were
made. -/
theorem writeBytes_laid (hne : names ≠ []) (h : site.Bearing inv names layer now)
    (hrun : writeBytes path contents now = .ok () now') :
    site.Bears inv ((Layer.ofFile names contents).over layer) now' := by
  obtain ⟨hbearing, -⟩ := (Site.Bearing.writeBytes hsupports hpath hinside hne).ok h hrun
  obtain ⟨location, hwrites, rfl⟩ := writeBytes_inv hrun
  have hstands := hsupports.stands h.prepared
  obtain ⟨-, rfl⟩ := hstands.writesAt hpath hinside hne hwrites
  have hroot := hwrites.ne_nil
  refine ⟨hbearing.prepared, fun rel _ => ?_⟩
  by_cases hend : rel = climb [] names
  · rw [hend, entry?_put_self hroot]
    simp [Layer.over, Layer.ofFile]
  · by_cases hon : rel ∈ Layer.onWay names
    · obtain ⟨front, hfront, rfl⟩ := Layer.mem_onWay.1 hon
      obtain ⟨target, hresolve, -⟩ := hwrites.place
      have hdir := hstands.isDirectory_front hpath hinside (resolve_eq_ok_iff.1 hresolve).2 hfront
        (fun heq => hend (by rw [heq]))
      rw [entry?_put_of_ne hroot fun heq => hend (List.append_cancel_left heq), hdir]
      simp [Layer.over, Layer.ofFile, Layer.ofDirectories, hend, hon]
    · rw [hbearing.lays rel hon]
      simp [Layer.over, Layer.ofFile, Layer.ofDirectories, hend, hon]

/-- Copying a file lays the bytes that were read from the source once the copy was emptied. -/
theorem copyFile_laid (hne : names ≠ []) (h : site.Bearing inv names layer now)
    (hrun : copyFile source path now = .ok () now') :
    ∃ between bytes, inv between ∧ readBytes source between = .ok bytes between
      ∧ site.Bears inv ((Layer.ofFile names bytes).over layer) now' := by
  obtain ⟨-, -, between, bytes, -, hempty, hread, hwrite⟩ := copyFile_inv hrun
  obtain ⟨hbetween, -⟩ := (Site.Bearing.writeBytes hsupports hpath hinside hne).ok h hempty
  exact ⟨between, bytes, hbetween.prepared, hread, writeBytes_laid hpath hinside hsupports hne hbetween hwrite⟩

end Paths

end Supports

theorem Site.Prepared.isDirectory_front (h : site.Prepared extra now) (hspares : site.Spares extra)
    (hpath : Extends root path names) (hinside : staysInside 0 names = true) {follow slash : Bool} {target : Target}
    (hleads : Leads now follow maxLinks [] (now.namesTo path) slash target) (hfront : front <+: names)
    (hne : front ≠ names) : now.entry? (site.dir ++ climb [] front) = some .directory :=
  (h.stands hspares).isDirectory_front hpath hinside hleads hfront hne

/-! ### Steps that succeed -/

section Steps

variable (hspares : site.Spares extra) (wf : fs.WellFormed)

include hspares wf

/-- The skeleton is two directories. -/
theorem createSkeleton_laid (htext : root.text ≠ "") (h : site.Laid extra layer now)
    (hsucceeds : ∀ reason, (createSkeleton root now).1 ≠ .failed reason) :
    site.Laid extra ((Layer.ofDirectories [sourceDir]).over ((Layer.ofDirectories [lovelyDir]).over layer))
      (createSkeleton root now).2 := by
  obtain ⟨⟨⟩, between, hlovely, hrest⟩ := bind_eq_ok.1 (toStep_inv hsucceeds)
  obtain ⟨⟨⟩, between', hsource, hend⟩ := bind_eq_ok.1 hrest
  cases hend
  have hlaid := createDirectories_laid ((extends_refl htext).validChild validName_lovelyDir) (by decide)
    (hspares.supports wf) h hlovely
  exact createDirectories_laid ((extends_refl htext).validChild validName_sourceDir) (by decide)
    (hspares.supports wf) hlaid hsource

/-- A written file is laid with the directories on the way to it. -/
theorem writeFile_laid {text : String} (hpath : Extends root path names) (hinside : staysInside 0 names = true)
    (hne : names ≠ []) (h : site.Laid extra layer now)
    (hsucceeds : ∀ reason, (writeFile path text now).1 ≠ .failed reason) :
    site.Laid extra ((Layer.ofFile names text.toUTF8).over layer) (writeFile path text now).2 := by
  obtain ⟨⟨⟩, between, hparent, hwrite⟩ := bind_eq_ok.1 (toStep_inv hsucceeds)
  obtain ⟨hbearing, -⟩ := (Site.Bearing.createParent (hspares.supports wf) hpath hinside).ok h.bearing hparent
  exact writeBytes_laid hpath hinside (hspares.supports wf) hne hbearing hwrite

end Steps

/-- Nothing is laid at a site whose root was cleared. -/
theorem clearDirectory_laid (site : Site fs root) (hroot : Followable root) (wf : fs.WellFormed)
    (hclear : ∀ reason, (clearDirectory root fs).1 ≠ .failed reason) :
    site.Laid extra Layer.empty (clearDirectory root fs).2 :=
  ⟨clearDirectory_prepared site hroot wf hclear, fun _ hrel => clearDirectory_empties site hroot wf hclear hrel⟩

end ModPackager.Deploy
