import ModPackager.Proofs.FileSystem.Way

/-!
# Confined changes

`Changes allowed before after` says that between two file systems entries changed at allowed locations
only, and that no link is new. This is what is known after any number of operations: it is reflexive and
transitive, and an operation extends it when the one location that it puts or erases is allowed
(`Changes.put`, `Changes.erase`). A path whose way avoids the allowed locations leads to the same place
before and after (`Changes.resolve`).

`Grows` says less of the allowed locations and more of the others: there nothing changed either, except that
directories were made.
-/

namespace ModPackager.FileSystem

variable {fs fs' fs'' : FileSystem} {follow : Bool} {links : Nat} {here dir location : Location}
  {names : List String} {slash : Bool} {target : Target} {path : Path} {entry old : Entry}
  {allowed larger changed : Location → Prop}

/-! ### Where entries can be put -/

/-- A vacant place has a name that an entry can have, when the names that lead there could be cut out of
a text. -/
theorem Leads.validName_vacant (h : Leads fs follow links here names slash (.vacant location))
    (hnames : ∀ name ∈ names, name ≠ "" ∧ '/' ∉ name.toList) :
    ∃ dir name, location = dir ++ [name] ∧ ValidName name ∧ fs.entry? dir = some .directory
      ∧ fs.entry? location = none := by
  generalize htarget : Target.vacant location = target at h
  induction h with
  | arrive => cases htarget
  | dot _ _ ih => exact ih (fun name hname => hnames name (List.mem_cons_of_mem _ hname)) htarget
  | up _ _ ih => exact ih (fun name hname => hnames name (List.mem_cons_of_mem _ hname)) htarget
  | vacant hdir hname hnone =>
      cases htarget
      obtain ⟨hempty, hslash⟩ := hnames _ List.mem_cons_self
      exact ⟨_, _, rfl, ⟨hempty, hname.1, hname.2.1, hslash, hname.2.2⟩, hdir, hnone⟩
  | stop => cases htarget
  | link _ _ _ _ _ ih =>
      refine ih (fun name hname => ?_) htarget
      rcases List.mem_append.1 hname with hname | hname
      · exact name_of_mem_namesOf hname
      · exact hnames name (List.mem_cons_of_mem _ hname)
  | enter _ _ _ _ _ ih =>
      exact ih (fun name hname => hnames name (List.mem_cons_of_mem _ hname)) htarget

/-- An entry can be put at a location: in a directory, under a name that an entry can have, in place of
what is no directory. -/
def Writable (fs : FileSystem) (location : Location) : Prop :=
  ∃ dir name, location = dir ++ [name] ∧ ValidName name ∧ fs.entry? dir = some .directory
    ∧ fs.entry? location ≠ some .directory

theorem Writable.ne_nil (h : fs.Writable location) : location ≠ [] := by
  obtain ⟨dir, name, rfl, -⟩ := h
  simp

theorem Writable.not_directory (h : fs.Writable location) : fs.entry? location ≠ some .directory := by
  obtain ⟨_, _, -, -, -, hold⟩ := h
  exact hold

theorem Writable.wellFormed_put (h : fs.Writable location) (wf : fs.WellFormed) :
    (fs.put location entry).WellFormed := by
  obtain ⟨dir, name, rfl, hname, hdir, hold⟩ := h
  exact wf.put hname hdir hold

theorem writable_of_vacant (h : fs.resolve follow path = .ok (.vacant location)) :
    fs.Writable location := by
  obtain ⟨-, hleads⟩ := resolve_eq_ok_iff.1 h
  obtain ⟨dir, name, hlocation, hname, hdir, hnone⟩ :=
    hleads.validName_vacant fun name hname => name_of_mem_namesOf hname
  exact ⟨dir, name, hlocation, hname, hdir, by simp [hnone]⟩

theorem entry?_of_vacant (h : fs.resolve follow path = .ok (.vacant location)) :
    fs.entry? location = none := by
  obtain ⟨-, hleads⟩ := resolve_eq_ok_iff.1 h
  obtain ⟨-, -, -, -, -, hnone⟩ := hleads.vacant_inv
  exact hnone

theorem entry?_of_found (h : fs.resolve follow path = .ok (.found location entry)) :
    fs.entry? location = some entry := (resolve_eq_ok_iff.1 h).2.entry?_found

theorem WellFormed.writable_of_entry? (wf : fs.WellFormed) (h : fs.entry? location = some old)
    (hold : old ≠ .directory) : fs.Writable location := by
  rcases List.eq_nil_or_concat location with rfl | ⟨dir, name, rfl⟩
  · exact absurd (Option.some.inj h).symm hold
  · rw [List.concat_eq_append] at h ⊢
    exact ⟨dir, name, rfl, wf.validName h, wf.isDirectory_of_child h, by simp [h, hold]⟩

/-! ### Changes -/

/-- Entries changed at allowed locations only, and no link is new. -/
structure Changes (allowed : Location → Prop) (before after : FileSystem) : Prop where
  workingDir : after.workingDir = before.workingDir
  wellFormed : before.WellFormed → after.WellFormed
  entries : ∀ place, ¬ allowed place → after.entry? place = before.entry? place
  links : ∀ place text, after.entry? place = some (.link text) → before.entry? place = some (.link text)

namespace Changes

theorem refl (fs : FileSystem) : Changes allowed fs fs where
  workingDir := rfl
  wellFormed := id
  entries := fun _ _ => rfl
  links := fun _ _ => id

theorem trans (first : Changes allowed fs fs') (second : Changes allowed fs' fs'') :
    Changes allowed fs fs'' where
  workingDir := second.workingDir.trans first.workingDir
  wellFormed := fun wf => second.wellFormed (first.wellFormed wf)
  entries := fun place h => (second.entries place h).trans (first.entries place h)
  links := fun place text h => first.links place text (second.links place text h)

theorem weaken (h : Changes allowed fs fs') (hlarger : ∀ {place}, allowed place → larger place) :
    Changes larger fs fs' where
  workingDir := h.workingDir
  wellFormed := h.wellFormed
  entries := fun place hplace => h.entries place fun hallowed => hplace (hlarger hallowed)
  links := h.links

/-- Something other than a link was put at an allowed location. -/
theorem put (h : Changes allowed fs fs') (hwritable : fs'.Writable location) (hallowed : allowed location)
    (hentry : ∀ text, entry ≠ .link text) : Changes allowed fs (fs'.put location entry) where
  workingDir := by rw [workingDir_put, h.workingDir]
  wellFormed := fun wf => hwritable.wellFormed_put (h.wellFormed wf)
  entries := by
    intro place hplace
    have hne : place ≠ location := by
      rintro rfl
      exact hplace hallowed
    rw [entry?_put_of_ne hwritable.ne_nil hne, h.entries place hplace]
  links := by
    intro place text hlink
    rw [entry?_put _ hwritable.ne_nil] at hlink
    split at hlink
    · exact absurd (Option.some.inj hlink) (hentry text)
    · exact h.links place text hlink

/-- What lies at or below a location was removed, where all of that is allowed. -/
theorem erase (h : Changes allowed fs fs') (hallowed : ∀ {place}, location <+: place → allowed place) :
    Changes allowed fs (fs'.erase location) where
  workingDir := h.workingDir
  wellFormed := fun wf => (h.wellFormed wf).erase
  entries := by
    intro place hplace
    rw [entry?_erase, if_neg fun hbelow => hplace (hallowed hbelow.2)]
    exact h.entries place hplace
  links := by
    intro place text hlink
    rw [entry?_erase] at hlink
    split at hlink
    · cases hlink
    · exact h.links place text hlink

/-- What lies at an allowed location was removed, where that is no directory: there is nothing below. -/
theorem erase_leaf (h : Changes allowed fs fs') (wf : fs'.WellFormed) (hallowed : allowed location)
    (hentry : fs'.entry? location = some entry) (hleaf : entry ≠ .directory) :
    Changes allowed fs (fs'.erase location) where
  workingDir := h.workingDir
  wellFormed := fun _ => wf.erase
  entries := by
    intro place hplace
    rw [entry?_erase, ← h.entries place hplace]
    split
    next hbelow =>
        obtain ⟨below, rfl⟩ := hbelow.2
        by_contra hsome
        obtain ⟨found, hfound⟩ := Option.ne_none_iff_exists'.1 (Ne.symm hsome)
        by_cases hnil : below = []
        · exact hplace (by simpa [hnil] using hallowed)
        · have hdir := wf.isDirectory_of_append hnil hfound
          exact hleaf (Option.some.inj (hentry.symm.trans hdir))
    · rfl
  links := by
    intro place text hlink
    rw [entry?_erase] at hlink
    split at hlink
    · cases hlink
    · exact h.links place text hlink

/-- Time passed. -/
theorem later (h : Changes allowed fs fs') (now : Nat) : Changes allowed fs { fs' with now } where
  workingDir := h.workingDir
  wellFormed := fun wf =>
    let wf' := h.wellFormed wf
    ⟨wf'.nodup, wf'.inDirectory, wf'.validNames⟩
  entries := h.entries
  links := h.links

/-- A path is left alone whose way avoids what may change. -/
theorem agree (h : Changes allowed fs fs') {places : List Location}
    (havoids : ∀ place ∈ places, ¬ allowed place) : Agree fs fs' places :=
  fun place hplace => h.entries place (havoids place hplace)

theorem resolve (h : Changes allowed fs fs') (havoids : ∀ place ∈ fs.way path, ¬ allowed place) :
    fs'.resolve follow path = fs.resolve follow path := resolve_congr h.workingDir (h.agree havoids)

theorem lookup (h : Changes allowed fs fs') (havoids : ∀ place ∈ fs.way path, ¬ allowed place) :
    fs'.lookup path = fs.lookup path := lookup_congr h.workingDir (h.agree havoids)

theorem way (h : Changes allowed fs fs') (havoids : ∀ place ∈ fs.way path, ¬ allowed place) :
    fs'.way path = fs.way path := way_congr h.workingDir (h.agree havoids)

theorem namesTo (h : Changes allowed fs fs') (path : Path) : fs'.namesTo path = fs.namesTo path := by
  rw [FileSystem.namesTo, FileSystem.namesTo, h.workingDir]

end Changes

/-! ### Growth -/

/-- Only some places changed, except that directories were made where nothing was. -/
def Grows (changed : Location → Prop) (before after : FileSystem) : Prop :=
  ∀ place, ¬ changed place → after.entry? place = before.entry? place
    ∨ before.entry? place = none ∧ after.entry? place = some .directory

namespace Grows

theorem refl (fs : FileSystem) : Grows changed fs fs := fun _ _ => .inl rfl

theorem trans (first : Grows changed fs fs') (second : Grows changed fs' fs'') : Grows changed fs fs'' := by
  intro place hplace
  rcases first place hplace with hsame | ⟨hnone, hmade⟩
  · rcases second place hplace with hsame' | ⟨hnone', hmade'⟩
    · exact .inl (hsame'.trans hsame)
    · exact .inr ⟨hsame ▸ hnone', hmade'⟩
  · rcases second place hplace with hsame' | ⟨hnone', -⟩
    · exact .inr ⟨hnone, hsame'.trans hmade⟩
    · rw [hmade] at hnone'
      cases hnone'

theorem weaken {larger : Location → Prop} (h : Grows changed fs fs')
    (hlarger : ∀ {place}, changed place → larger place) : Grows larger fs fs' :=
  fun place hplace => h place fun hchanged => hplace (hlarger hchanged)

theorem makes (h : Grows changed fs fs') (hroot : location ≠ []) (hnone : fs'.entry? location = none) :
    Grows changed fs (fs'.put location .directory) := by
  refine h.trans fun place _ => ?_
  rw [entry?_put _ hroot]
  split
  next heq => exact .inr ⟨heq ▸ hnone, rfl⟩
  · exact .inl rfl

/-- Without other changes everything is still there. -/
theorem entry? (h : Grows (fun _ => False) fs fs') {place : Location} {found : Entry}
    (hfound : fs.entry? place = some found) : fs'.entry? place = some found := by
  rcases h place id with hsame | ⟨hnone, -⟩
  · rw [hsame, hfound]
  · rw [hfound] at hnone
    cases hnone

end Grows

theorem Changes.grows (h : Changes changed fs fs') : Grows changed fs fs' :=
  fun place hplace => .inl (h.entries place hplace)

end ModPackager.FileSystem
