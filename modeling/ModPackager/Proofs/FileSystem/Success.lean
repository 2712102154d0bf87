import ModPackager.Proofs.FileSystem.Action

/-!
# What file operations achieve

An operation that ends without a fault has done what it is for: a directory is where one was to be made
(`createDirectories_holds`), a file that was written is read back (`readBytes_writeBytes`), and a file that was
copied has the bytes of its source (`copyFile_inv`).
-/

namespace ModPackager

namespace FileSystem

variable {fs fs' : FileSystem} {links : Nat} {here location : Location} {names : List String} {slash : Bool}
  {path : Path} {entry : Entry}

/-- Where names led to nothing, they lead to the entry that is put there, unless that is a link. -/
theorem Leads.fill (h : Leads fs false links here names slash (.vacant location))
    (hmore : ∀ {place found}, fs.entry? place = some found → fs'.entry? place = some found)
    (hentry : fs'.entry? location = some entry) (hlink : ∀ text, entry ≠ .link text)
    (hslash : slash = true → entry.isDirectory = true) :
    Leads fs' true links here names slash (.found location entry) := by
  generalize htarget : Target.vacant location = target at h
  induction h with
  | arrive => cases htarget
  | dot hdir _ ih => exact .dot (hmore hdir) (ih hslash htarget)
  | up hdir _ ih => exact .up (hmore hdir) (ih hslash htarget)
  | vacant hdir hname _ =>
      cases htarget
      exact .enter (hmore hdir) hname hentry hlink (.arrive hentry hslash)
  | stop => cases htarget
  | @link _ _ _ rest _ text _ hdir hname hentry hfollow _ ih =>
      refine .link (hmore hdir) hname (hmore hentry) (fun _ => .inl rfl) (ih (fun h => hslash ?_) htarget)
      by_cases hrest : rest = []
      · exact (hfollow hrest).resolve_left (by simp)
      · simpa [hrest] using h
  | enter hdir hname hfound hlink _ ih => exact .enter (hmore hdir) hname (hmore hfound) hlink (ih hslash htarget)

/-- A path that led to nothing leads to the entry that is put there, unless that is a link or no directory
where one is asked for. -/
theorem resolve_put (h : fs.resolve false path = .ok (.vacant location)) (hlink : ∀ text, entry ≠ .link text)
    (hslash : fs.slashOf path = true → entry.isDirectory = true) :
    (fs.put location entry).resolve true path = .ok (.found location entry) := by
  obtain ⟨hpath, hleads⟩ := resolve_eq_ok_iff.1 h
  have hnone := entry?_of_vacant h
  have hroot : location ≠ [] := (writable_of_vacant h).ne_nil
  refine resolve_eq_ok_iff.2 ⟨hpath, ?_⟩
  rw [namesTo, slashOf, workingDir_put, ← namesTo, ← slashOf]
  refine hleads.fill (fun {place found} hfound => ?_) (entry?_put_self hroot) hlink hslash
  have hne : place ≠ location := by
    rintro rfl
    simp [hnone] at hfound
  rw [entry?_put_of_ne hroot hne, hfound]

end FileSystem

namespace FileAction

open FileSystem

variable {fs fs' : FileSystem} {path source target : Path} {contents : ByteArray}

theorem ensureDirectory_holds (h : ensureDirectory path fs = .ok () fs') :
    fs'.holdsDirectory path = true := by
  rw [ensureDirectory_eq] at h
  rcases hresolve : fs.resolve false path with _ | ⟨_⟩ | ⟨location⟩
  · simp only [hresolve] at h
    split at h
    next hholds => cases h; exact hholds
    · cases h
  · simp only [hresolve] at h
    split at h
    next hholds => cases h; exact hholds
    · cases h
  · simp only [hresolve] at h
    cases h
    exact holdsDirectory_iff.2 ⟨location, resolve_put hresolve nofun fun _ => rfl⟩

theorem createParents_holds {fuel : Nat} (hpath : path.text ≠ "")
    (h : createParents fuel path fs = .ok () fs') : fs'.holdsDirectory path = true := by
  cases fuel with
  | zero => cases h
  | succ fuel =>
      unfold createParents at h
      rw [if_neg (by simpa using hpath)] at h
      obtain ⟨fault?, s, hfault, hrest⟩ := bind_eq_ok.1 h
      unfold faultOf at hfault
      rcases hrun : ensureDirectory path fs with ⟨⟨⟩, made⟩ | ⟨fault, made⟩
      · simp only [hrun] at hfault
        cases hfault
        cases hrest
        exact ensureDirectory_holds hrun
      · simp only [hrun] at hfault
        cases hfault
        rcases hparent : path.parent? with _ | parent
        · rw [hparent] at hrest
          cases fault <;> cases hrest
        · rw [hparent] at hrest
          cases fault with
          | notFound =>
              obtain ⟨⟨⟩, _, -, hagain⟩ := bind_eq_ok.1 hrest
              exact ensureDirectory_holds hagain
          | _ => cases hrest

/-- After directories were made, a directory is there. -/
theorem createDirectories_holds (hpath : path.text ≠ "") (h : createDirectories path fs = .ok () fs') :
    fs'.holdsDirectory path = true := createParents_holds hpath h

/-- A file that was written is read back, unless its path ends in a link. -/
theorem readBytes_writeBytes (hlink : ∀ location text, fs.resolve false path ≠ .ok (.found location (.link text)))
    (h : writeBytes path contents fs = .ok () fs') : readBytes path fs' = .ok contents fs' := by
  suffices hfound : ∃ location, fs'.resolve true path = .ok (.found location (.file contents)) by
    obtain ⟨location, hresolve⟩ := hfound
    rw [readBytes_eq, lookup_eq_ok_iff.2 hresolve]
  rw [writeBytes_eq] at h
  split at h
  next location old hresolve =>
      cases h
      have hfile := entry?_of_found hresolve
      have hroot : location ≠ [] := by
        rintro rfl
        cases hfile
      refine ⟨location, resolve_persists (fun {place found} hfound hkind => ?_) (entry?_put_self hroot)
        (.inr ⟨old, contents, rfl, rfl⟩) workingDir_put hresolve⟩
      refine (entry?_put_of_ne hroot ?_).trans hfound
      rintro rfl
      exact hkind old (Option.some.inj (hfound.symm.trans hfile))
  · cases h
  next location hresolve =>
      split at h
      · cases h
      next hslash =>
          cases h
          obtain ⟨hpath, hleads⟩ := resolve_eq_ok_iff.1 hresolve
          refine ⟨location, resolve_put ?_ nofun fun hends => ?_⟩
          · rcases hleads.unfollow with hvacant | ⟨place, text, hstops⟩
            · exact resolve_eq_ok_iff.2 ⟨hpath, hvacant⟩
            · exact absurd (resolve_eq_ok_iff.2 ⟨hpath, hstops⟩) (hlink place text)
          · rw [slashOf_of_ne hpath.2.1] at hends
            exact absurd hends hslash
  · cases h

/-- What a path leads to stays when a file is written elsewhere, and what is no file stays anyhow. -/
theorem writeBytes_persists {other : Path} {follow : Bool} {place : Location} {entry : Entry}
    (h : writeBytes path contents fs = .ok () fs') (hother : fs.resolve follow other = .ok (.found place entry))
    (helse : ∀ old, entry = .file old → ¬ WritesAt fs path place) :
    fs'.resolve follow other = .ok (.found place entry) := by
  obtain ⟨location, hwrites, rfl⟩ := writeBytes_inv h
  have hentry := entry?_of_found hother
  have hkept : ∀ {place found}, fs.entry? place = some found → (∀ old, found = .file old → place ≠ location) →
      FileSystem.entry? (fs.put location (.file contents)) place = some found := by
    intro place found hfound hne
    have hroot : location ≠ [] := by
      rintro rfl
      obtain ⟨_, hfile⟩ := hwrites.file_of_entry? (show fs.entry? [] = some .directory from rfl)
      cases hfile
    rw [entry?_put_of_ne hroot, hfound]
    rintro rfl
    obtain ⟨old, rfl⟩ := hwrites.file_of_entry? hfound
    exact hne old rfl rfl
  refine resolve_persists (fun hfound hkind => hkept hfound fun old hfile => absurd hfile (hkind old))
    (hkept hentry fun old hfile heq => helse old hfile (heq ▸ hwrites)) (.inl rfl) workingDir_put hother

/-- A copy was written twice: without any bytes, and then with those that the source had by then. -/
theorem copyFile_inv (h : copyFile source target fs = .ok () fs') :
    ∃ location contents between bytes, fs.lookup source = .ok (location, .file contents)
      ∧ writeBytes target ByteArray.empty fs = .ok () between
      ∧ readBytes source between = .ok bytes between ∧ writeBytes target bytes between = .ok () fs' := by
  rw [copyFile_eq] at h
  rcases hlookup : fs.lookup source with _ | ⟨location, contents | _ | _⟩
  · simp [hlookup] at h
  · simp only [hlookup] at h
    obtain ⟨⟨⟩, between, hempty, hrest⟩ := bind_eq_ok.1 h
    obtain ⟨bytes, s, hread, hwrite⟩ := bind_eq_ok.1 hrest
    have hsame : s = between := (readBytes_inv hread).1
    subst hsame
    exact ⟨location, contents, s, bytes, rfl, hempty, hread, hwrite⟩
  · simp [hlookup] at h
  · simp [hlookup] at h

theorem readNames_inv {names : List String} (h : readNames path fs = .ok names fs') :
    fs' = fs ∧ ∃ dir, fs.resolve true path = .ok (.found dir .directory) ∧ names = fs.names dir := by
  rw [readNames_eq] at h
  rcases hlookup : fs.lookup path with _ | ⟨dir, _ | _ | _⟩ <;> simp only [hlookup] at h <;> cases h
  exact ⟨rfl, dir, lookup_eq_ok_iff.1 hlookup, rfl⟩

end FileAction

end ModPackager
