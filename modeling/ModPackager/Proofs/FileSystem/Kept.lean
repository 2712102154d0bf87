import ModPackager.Proofs.FileSystem.Success

/-!
# What is kept when files are only added

`Kept before after` says that directories and links are still there, that files are still files, and that no link is new.
Making directories and writing files comes to no more than that. Whatever leads to a directory then still leads there
(`Kept.leadsTo`), and a path that misses nothing that was added leads to the same place as before
(`Kept.lookup?_eq`).
-/

namespace ModPackager.FileSystem

open FileAction

variable {fs fs' : FileSystem} {follow slash : Bool} {links : Nat} {here dir place location : Location}
  {names : List String} {path : Path} {entry found : Entry} {contents : ByteArray} {text : String}

/-- Everything is still there, but that files may have other bytes, and no link is new. -/
structure Kept (before after : FileSystem) : Prop where
  workingDir : after.workingDir = before.workingDir
  same : ∀ {place found}, before.entry? place = some found → (∀ contents, found ≠ .file contents) →
    after.entry? place = some found
  files : ∀ {place old}, before.entry? place = some (.file old) → ∃ new, after.entry? place = some (.file new)
  links : ∀ {place text}, after.entry? place = some (.link text) → before.entry? place = some (.link text)

namespace Kept

theorem refl (fs : FileSystem) : Kept fs fs := ⟨rfl, fun h _ => h, fun h => ⟨_, h⟩, id⟩

/-- A directory was made where nothing was. -/
theorem makes (h : Kept fs fs') (hvacant : fs'.resolve follow path = .ok (.vacant location)) :
    Kept fs (fs'.put location .directory) := by
  have hroot := (writable_of_vacant hvacant).ne_nil
  have hother : ∀ {place found}, fs'.entry? place = some found → place ≠ location := by
    rintro place found hfound rfl
    rw [entry?_of_vacant hvacant] at hfound
    cases hfound
  refine ⟨workingDir_put.trans h.workingDir, fun hfound hkind => ?_, fun hfile => ?_, fun hlink => ?_⟩
  · have hkept := h.same hfound hkind
    rw [entry?_put_of_ne hroot (hother hkept), hkept]
  · obtain ⟨new, hnew⟩ := h.files hfile
    exact ⟨new, by rw [entry?_put_of_ne hroot (hother hnew), hnew]⟩
  · rw [entry?_put _ hroot] at hlink
    split at hlink
    · cases hlink
    · exact h.links hlink

/-- A file was written. -/
theorem writes (h : Kept fs fs') (hwrites : WritesAt fs' path location) : Kept fs (fs'.put location (.file contents)) := by
  have hroot := hwrites.ne_nil
  refine ⟨workingDir_put.trans h.workingDir, fun {place found} hfound hkind => ?_, fun {place old} hfile => ?_,
    fun hlink => ?_⟩
  · have hkept := h.same hfound hkind
    rw [entry?_put_of_ne hroot, hkept]
    rintro rfl
    obtain ⟨old, hold⟩ := hwrites.file_of_entry? hkept
    exact hkind old hold
  · rw [entry?_put _ hroot]
    split
    · exact ⟨contents, rfl⟩
    · exact h.files hfile
  · rw [entry?_put _ hroot] at hlink
    split at hlink
    · cases hlink
    · exact h.links hlink

theorem createDirectories (path : Path) : Maintains (Kept fs) (createDirectories path) fun _ => True :=
  createDirectories_maintains fun {_ _} h hmakes => by
    obtain ⟨_, -, -, hvacant⟩ := hmakes
    exact h.makes hvacant

theorem createParent (path : Path) : Maintains (Kept fs) (createParent path) fun _ => True :=
  createParent_maintains fun {_ _} h hmakes => by
    obtain ⟨_, -, -, hvacant⟩ := hmakes
    exact h.makes hvacant

variable (h : Kept fs fs')

include h

/-- What is a directory now was one, or was missing. -/
theorem isDirectory_of_some (hbefore : fs.entry? place = some found) (hafter : fs'.entry? place = some .directory) :
    found = .directory := by
  cases found with
  | directory => rfl
  | file old =>
      obtain ⟨new, hnew⟩ := h.files hbefore
      rw [hafter] at hnew
      cases hnew
  | link text =>
      rw [h.same hbefore nofun] at hafter
      cases hafter

theorem leadsTo (hleads : fs.LeadsTo names dir) : fs'.LeadsTo names dir :=
  Leads.persists h.same (h.same hleads.isDirectory nofun) (.inl rfl) hleads

theorem resolve_persists (hresolve : fs.resolve follow path = .ok (.found place entry))
    (hplace : fs'.entry? place = some entry) : fs'.resolve follow path = .ok (.found place entry) :=
  FileSystem.resolve_persists h.same hplace (.inl rfl) h.workingDir hresolve

/-- What names lead to now they led to before, if what they missed is still missing. -/
theorem leads_of_missing (hmissing : ∀ place ∈ fs.trail links here names, fs.entry? place = none → fs'.entry? place = none)
    (hleads : Leads fs' follow links here names slash (.found place entry)) :
    ∃ found, Leads fs follow links here names slash (.found place found) := by
  -- What a step of the walk looks at was there, and was a directory or a link if it is one.
  have hthere : ∀ {here names place found} {links : Nat}, (∀ place ∈ fs.trail links here names, fs.entry? place = none →
      fs'.entry? place = none) → place ∈ fs.trail links here names → fs'.entry? place = some found →
      ∃ before, fs.entry? place = some before := by
    intro here names place found links hmissing hplace hfound
    rw [← Option.isSome_iff_exists, Option.isSome_iff_ne_none]
    intro hnone
    rw [hmissing place hplace hnone] at hfound
    cases hfound
  have hdirectory : ∀ {here names} {links : Nat}, (∀ place ∈ fs.trail links here names, fs.entry? place = none →
      fs'.entry? place = none) → fs'.entry? here = some .directory → fs.entry? here = some .directory := by
    intro here names links hmissing hdir
    obtain ⟨before, hbefore⟩ := hthere hmissing here_mem_trail hdir
    rw [hbefore, h.isDirectory_of_some hbefore hdir]
  generalize htarget : Target.found place entry = target at hleads
  induction hleads with
  | @arrive _ here slash entry hentry hslash =>
      cases htarget
      obtain ⟨before, hbefore⟩ := hthere hmissing here_mem_trail hentry
      refine ⟨before, .arrive hbefore fun hends => ?_⟩
      cases entry with
      | directory => rw [h.isDirectory_of_some hbefore hentry]; rfl
      | _ => cases hslash hends
  | dot hdir _ ih =>
      have hbefore := hdirectory hmissing hdir
      rw [trail_dot hbefore] at hmissing
      obtain ⟨found, hfound⟩ := ih (fun place hplace => hmissing place (List.mem_cons_of_mem _ hplace)) htarget
      exact ⟨found, .dot hbefore hfound⟩
  | up hdir _ ih =>
      have hbefore := hdirectory hmissing hdir
      rw [trail_up hbefore] at hmissing
      obtain ⟨found, hfound⟩ := ih (fun place hplace => hmissing place (List.mem_cons_of_mem _ hplace)) htarget
      exact ⟨found, .up hbefore hfound⟩
  | vacant => cases htarget
  | stop hdir hname hentry hfollow =>
      cases htarget
      exact ⟨_, .stop (hdirectory hmissing hdir) hname (h.links hentry) hfollow⟩
  | link hdir hname hentry hfollow _ ih =>
      have hbefore := hdirectory hmissing hdir
      have hlink := h.links hentry
      rw [trail_name hbefore hname, hlink] at hmissing
      obtain ⟨found, hfound⟩ := ih (fun place hplace => hmissing place (by simp [trailBehind, hplace])) htarget
      exact ⟨found, .link hbefore hname hlink hfollow hfound⟩
  | @enter links here name rest _ entry _ hdir hname hentry hlink _ ih =>
      have hbefore := hdirectory hmissing hdir
      obtain ⟨before, hthere⟩ := hthere hmissing (by rw [trail_name hbefore hname]; simp) hentry
      have hplain : ∀ text, before ≠ .link text := by
        rintro text rfl
        rw [h.same hthere nofun] at hentry
        exact hlink text (Option.some.inj hentry).symm
      rw [trail_name hbefore hname, hthere] at hmissing
      obtain ⟨found, hfound⟩ := ih (fun place hplace => hmissing place (by
        cases before with
        | link text => exact absurd rfl (hplain text)
        | _ => simp [hplace])) htarget
      exact ⟨found, .enter hbefore hname hthere hplain hfound⟩

/-- What a path leads to now it led to before, if what it missed is still missing. -/
theorem resolve_of_missing (hmissing : ∀ place ∈ fs.way path, fs.entry? place = none → fs'.entry? place = none)
    (hresolve : fs'.resolve follow path = .ok (.found place entry)) :
    ∃ found, fs.resolve follow path = .ok (.found place found) := by
  obtain ⟨hpath, hleads⟩ := resolve_eq_ok_iff.1 hresolve
  rw [namesTo, slashOf, h.workingDir, ← namesTo, ← slashOf] at hleads
  obtain ⟨found, hfound⟩ := h.leads_of_missing hmissing hleads
  exact ⟨found, resolve_eq_ok_iff.2 ⟨hpath, hfound⟩⟩

/-- A path leads to the same as before, if that is the same and what the path missed is still missing. -/
theorem lookup?_eq (hmissing : ∀ place ∈ fs.way path, fs.entry? place = none → fs'.entry? place = none)
    (hplace : ∀ place entry, fs.lookup? path = some (place, entry) → fs'.entry? place = some entry) :
    fs'.lookup? path = fs.lookup? path := by
  rcases hbefore : fs.lookup? path with _ | ⟨place, entry⟩
  · rw [← Option.not_isSome_iff_eq_none, Option.isSome_iff_exists]
    rintro ⟨⟨place, entry⟩, hafter⟩
    obtain ⟨found, hfound⟩ := h.resolve_of_missing hmissing (lookup?_eq_some_iff.1 hafter)
    rw [lookup?_eq_some_iff.2 hfound] at hbefore
    cases hbefore
  · exact lookup?_eq_some_iff.2 (h.resolve_persists (lookup?_eq_some_iff.1 hbefore) (hplace place entry hbefore))

/-- A path names the same link as before, if what it missed is still missing. -/
theorem resolve_link_iff (hmissing : ∀ place ∈ fs.way path, fs.entry? place = none → fs'.entry? place = none) :
    fs'.resolve false path = .ok (.found place (.link text)) ↔ fs.resolve false path = .ok (.found place (.link text)) := by
  constructor
  · intro hresolve
    obtain ⟨found, hfound⟩ := h.resolve_of_missing hmissing hresolve
    have hlink := h.links (entry?_of_found hresolve)
    rwa [Option.some.inj ((entry?_of_found hfound).symm.trans hlink)] at hfound
  · exact fun hresolve => h.resolve_persists hresolve (h.same (entry?_of_found hresolve) nofun)

end Kept

end ModPackager.FileSystem
