import ModPackager.FileSystem.Action
import ModPackager.Proofs.Actions
import ModPackager.Proofs.FileSystem.Changes

/-!
# What file operations keep

Each operation has one lemma: it keeps an invariant that is kept where the operation puts or erases
something. The lemma says which places these are, in terms of what paths lead to, so that no proof about a
longer action opens the operations in it.
-/

namespace ModPackager

namespace FileAction

open FileSystem

variable {fs : FileSystem} {path source target : Path} {location : Location} {contents : ByteArray}
  {inv : FileSystem → Prop}

/-! ### Reading -/

theorem readBytes_eq (fs : FileSystem) (path : Path) : readBytes path fs =
    match fs.lookup path with
    | .ok (_, .file contents) => .ok contents fs
    | .ok _ => .error .isDirectory fs
    | .error fault => .error fault fs := by
  change (ofResult (fs.lookup path) >>= _ : FileAction ByteArray) fs = _
  rcases fs.lookup path with _ | ⟨_, _ | _ | _⟩ <;> rfl

theorem readBytes_maintains : Maintains inv (readBytes path) fun _ => True := by
  intro fs hfs
  rw [readBytes_eq]
  rcases fs.lookup path with _ | ⟨_, _ | _ | _⟩
  · exact hfs
  · exact ⟨hfs, trivial⟩
  · exact hfs
  · exact hfs

theorem readBytes_inv {fs' : FileSystem} (h : readBytes path fs = .ok contents fs') :
    fs' = fs ∧ ∃ location, fs.resolve true path = .ok (.found location (.file contents)) := by
  rw [readBytes_eq] at h
  rcases hlookup : fs.lookup path with _ | ⟨location, _ | _ | _⟩ <;> simp only [hlookup] at h <;> cases h
  exact ⟨rfl, location, lookup_eq_ok_iff.1 hlookup⟩

/-- What a path reads does not depend on the time. -/
theorem readBytes_later {now : Nat} (h : readBytes path { fs with now } = .ok contents { fs with now }) :
    readBytes path fs = .ok contents fs := by
  have hsame : Changes (fun _ => False) fs { fs with now } := (Changes.refl fs).later now
  obtain ⟨-, location, hresolve⟩ := readBytes_inv h
  rw [hsame.resolve fun _ _ => id] at hresolve
  rw [readBytes_eq, lookup_eq_ok_iff.2 hresolve]

theorem readText_eq (fs : FileSystem) (path : Path) : readText path fs =
    match readBytes path fs with
    | .ok bytes _ =>
      match String.fromUTF8? bytes with
      | some text => .ok text fs
      | none => .error .notText fs
    | .error fault _ => .error fault fs := by
  change EStateM.bind (readBytes path) _ fs = _
  unfold EStateM.bind
  rw [readBytes_eq]
  rcases fs.lookup path with _ | ⟨_, bytes | _ | _⟩
  · rfl
  · dsimp only
    cases String.fromUTF8? bytes <;> rfl
  · rfl
  · rfl

theorem readText_maintains : Maintains inv (readText path) fun _ => True := by
  refine readBytes_maintains.bind fun bytes _ => ?_
  split
  · exact .pure trivial
  · exact .throw

theorem readNames_eq (fs : FileSystem) (path : Path) : readNames path fs =
    match fs.lookup path with
    | .ok (location, .directory) => .ok (fs.names location) fs
    | .ok _ => .error .notDirectory fs
    | .error fault => .error fault fs := by
  change (ofResult (fs.lookup path) >>= _ : FileAction (List String)) fs = _
  rcases fs.lookup path with _ | ⟨_, _ | _ | _⟩ <;> rfl

/-- The names in a directory are names of entries. -/
theorem readNames_maintains (hwf : ∀ {fs}, inv fs → fs.WellFormed) :
    Maintains inv (readNames path) fun names => ∀ name ∈ names, ValidName name := by
  intro fs hfs
  rw [readNames_eq]
  rcases fs.lookup path with _ | ⟨location, _ | _ | _⟩
  · exact hfs
  · exact hfs
  · refine ⟨hfs, fun name hname => ?_⟩
    obtain ⟨entry, hentry⟩ := Option.isSome_iff_exists.1 (mem_names.1 hname)
    exact (hwf hfs).validName hentry
  · exact hfs

/-! ### Writing -/

theorem writeBytes_eq (fs : FileSystem) (path : Path) (contents : ByteArray) :
    writeBytes path contents fs =
      match fs.resolve true path with
      | .ok (.found location (.file _)) => .ok () (fs.put location (.file contents))
      | .ok (.found _ _) => .error .isDirectory fs
      | .ok (.vacant location) =>
        if endsInSlash path.text then .error .isDirectory fs
        else .ok () (fs.put location (.file contents))
      | .error fault => .error fault fs := by
  change (ofResult (fs.resolve true path) >>= _ : FileAction Unit) fs = _
  rcases fs.resolve true path with _ | ⟨_, _ | _ | _⟩ | _
  · rfl
  · rfl
  · rfl
  · rfl
  · simp only [ofResult, pure_bind]
    split <;> rfl

/-- A file is written where there is one already, or nothing. -/
def WritesAt (fs : FileSystem) (path : Path) (location : Location) : Prop :=
  (∃ contents, fs.resolve true path = .ok (.found location (.file contents)))
    ∨ fs.resolve true path = .ok (.vacant location)

theorem WritesAt.place (h : WritesAt fs path location) :
    ∃ target, fs.resolve true path = .ok target ∧ target.place = location := by
  rcases h with ⟨_, h⟩ | h
  · exact ⟨_, h, rfl⟩
  · exact ⟨_, h, rfl⟩

theorem WritesAt.writable (h : WritesAt fs path location) (wf : fs.WellFormed) :
    fs.Writable location := by
  rcases h with ⟨contents, h⟩ | h
  · exact wf.writable_of_entry? (entry?_of_found h) (by simp)
  · exact writable_of_vacant h

/-- There is no more than a file where one is written. -/
theorem WritesAt.file_of_entry? (h : WritesAt fs path location) {entry : Entry}
    (hentry : fs.entry? location = some entry) : ∃ contents, entry = .file contents := by
  rcases h with ⟨contents, h⟩ | h
  · exact ⟨contents, Option.some.inj (hentry.symm.trans (entry?_of_found h))⟩
  · rw [entry?_of_vacant h] at hentry
    cases hentry

theorem WritesAt.ne_nil (h : WritesAt fs path location) : location ≠ [] := by
  rintro rfl
  obtain ⟨contents, hfile⟩ := h.file_of_entry? fs.entry?_root
  cases hfile

/-- A file that was written was put where its path leads. -/
theorem writeBytes_inv {fs' : FileSystem} (h : writeBytes path contents fs = .ok () fs') :
    ∃ location, WritesAt fs path location ∧ fs' = fs.put location (.file contents) := by
  rw [writeBytes_eq] at h
  split at h
  next location _ hresolve => cases h; exact ⟨location, .inl ⟨_, hresolve⟩, rfl⟩
  · cases h
  next location hresolve =>
      split at h
      · cases h
      · cases h; exact ⟨location, .inr hresolve, rfl⟩
  · cases h

theorem writeBytes_error {fs' : FileSystem} {fault : IoFault}
    (h : writeBytes path contents fs = .error fault fs') : fs' = fs := by
  rw [writeBytes_eq] at h
  split at h
  · cases h
  · cases h; rfl
  · split at h
    · cases h; rfl
    · cases h
  · cases h; rfl

theorem writeBytes_maintains
    (hput : ∀ {fs location}, inv fs → WritesAt fs path location → inv (fs.put location (.file contents))) :
    Maintains inv (writeBytes path contents) fun _ => True := by
  intro fs hfs
  rcases hrun : writeBytes path contents fs with ⟨⟨⟩, fs'⟩ | ⟨fault, fs'⟩
  · obtain ⟨location, hwrites, rfl⟩ := writeBytes_inv hrun
    exact ⟨hput hfs hwrites, trivial⟩
  · exact writeBytes_error hrun ▸ hfs

theorem copyFile_eq (fs : FileSystem) (source target : Path) : copyFile source target fs =
    match fs.lookup source with
    | .ok (_, .file _) =>
      (writeBytes target ByteArray.empty >>= fun _ => readBytes source >>= writeBytes target) fs
    | .ok _ => .error .notRegular fs
    | .error fault => .error fault fs := by
  change (ofResult (fs.lookup source) >>= _ : FileAction Unit) fs = _
  rcases fs.lookup source with _ | ⟨_, _ | _ | _⟩ <;> rfl

theorem copyFile_maintains
    (hput : ∀ {fs location contents}, inv fs → WritesAt fs target location →
      inv (fs.put location (.file contents))) :
    Maintains inv (copyFile source target) fun _ => True := by
  have hcopy : Maintains inv (writeBytes target ByteArray.empty >>= fun _ =>
      readBytes source >>= writeBytes target) fun _ => True :=
    (writeBytes_maintains hput).bind fun _ _ =>
      readBytes_maintains.bind fun _ _ => writeBytes_maintains hput
  intro fs hfs
  rw [copyFile_eq]
  rcases fs.lookup source with _ | ⟨_, _ | _ | _⟩
  · exact hfs
  · exact hcopy fs hfs
  · exact hfs
  · exact hfs

/-! ### Directories -/

theorem createDirectory_eq (fs : FileSystem) (path : Path) : createDirectory path fs =
    match fs.resolve false path with
    | .ok (.vacant location) => .ok () (fs.put location .directory)
    | .ok (.found _ _) => .error .exists fs
    | .error fault => .error fault fs := by
  change (ofResult (fs.resolve false path) >>= _ : FileAction Unit) fs = _
  rcases fs.resolve false path with _ | ⟨_⟩ | ⟨_⟩ <;> rfl

/-- Making a directory where there is none puts one at a vacant place, or changes nothing; it succeeds if
there is one then. -/
theorem ensureDirectory_eq (fs : FileSystem) (path : Path) : ensureDirectory path fs =
    match fs.resolve false path with
    | .ok (.vacant location) => .ok () (fs.put location .directory)
    | .ok (.found _ _) => if fs.holdsDirectory path then .ok () fs else .error .exists fs
    | .error fault => if fs.holdsDirectory path then .ok () fs else .error fault fs := by
  unfold ensureDirectory
  unfold faultOf
  change EStateM.bind _ _ fs = _
  unfold EStateM.bind
  simp only [createDirectory_eq]
  rcases fs.resolve false path with _ | ⟨_⟩ | ⟨_⟩
  · simp only [bind, EStateM.bind, run_get]
    cases fs.holdsDirectory path <;> rfl
  · simp only [bind, EStateM.bind, run_get]
    cases fs.holdsDirectory path <;> rfl
  · rfl

theorem ensureDirectory_maintains
    (hput : ∀ {fs location}, inv fs → fs.resolve false path = .ok (.vacant location) →
      inv (fs.put location .directory)) :
    Maintains inv (ensureDirectory path) fun _ => True := by
  intro fs hfs
  rw [ensureDirectory_eq]
  rcases hresolve : fs.resolve false path with _ | ⟨_⟩ | ⟨location⟩
  · simp only
    cases fs.holdsDirectory path
    · exact hfs
    · exact ⟨hfs, trivial⟩
  · simp only
    cases fs.holdsDirectory path
    · exact hfs
    · exact ⟨hfs, trivial⟩
  · exact ⟨hput hfs hresolve, trivial⟩

theorem faultOf_maintains {action : FileAction Unit} (h : Maintains inv action fun _ => True) :
    Maintains inv (faultOf action) fun _ => True := by
  intro fs hfs
  have hstep := h fs hfs
  unfold faultOf
  split at hstep
  next heq => simp only [heq]; exact hstep
  next heq => simp only [heq]; exact ⟨hstep, trivial⟩

/-- A place for a directory on the way of a path: a beginning of its names leads there, and nothing is
there. -/
def MakesAt (fs : FileSystem) (path : Path) (location : Location) : Prop :=
  ∃ part : Path, fs.namesTo part <+: fs.namesTo path ∧ (path.Trimmed → part.Trimmed)
    ∧ fs.resolve false part = .ok (.vacant location)

/-- What is on the way of the parent is on the way of the path. -/
theorem MakesAt.of_parent {parent : Path} (h : MakesAt fs parent location)
    (hparent : path.parent? = some parent) : MakesAt fs path location := by
  obtain ⟨part, hpart, htrimmed, hresolve⟩ := h
  exact ⟨part, hpart.trans (fs.namesTo_parent hparent), fun _ => htrimmed (Path.trimmed_parent hparent),
    hresolve⟩

theorem createParents_maintains (fuel : Nat)
    (hput : ∀ {fs location}, inv fs → MakesAt fs path location → inv (fs.put location .directory)) :
    Maintains inv (createParents fuel path) fun _ => True := by
  induction fuel generalizing path with
  | zero => exact .throw
  | succ fuel ih =>
      have hensure : Maintains inv (ensureDirectory path) fun _ => True :=
        ensureDirectory_maintains fun hfs hresolve => hput hfs ⟨path, List.prefix_refl _, id, hresolve⟩
      unfold createParents
      split
      · exact .pure trivial
      · refine (faultOf_maintains hensure).bind fun fault? _ => ?_
        split
        · exact .pure trivial
        · split
          next parent hparent =>
              refine (ih ?_).bind fun _ _ => hensure
              exact fun hfs hmakes => hput hfs (hmakes.of_parent hparent)
          · exact .throw

theorem createDirectories_maintains
    (hput : ∀ {fs location}, inv fs → MakesAt fs path location → inv (fs.put location .directory)) :
    Maintains inv (createDirectories path) fun _ => True := createParents_maintains _ hput

theorem createParent_maintains
    (hput : ∀ {fs location}, inv fs → MakesAt fs path location → inv (fs.put location .directory)) :
    Maintains inv (createParent path) fun _ => True := by
  unfold createParent
  split
  next parent hparent =>
      exact createDirectories_maintains fun hfs hmakes => hput hfs (hmakes.of_parent hparent)
  · exact .pure trivial

/-- Whatever becomes of making the directory that a path lies in, no more than directories are made. -/
theorem createParent_grows {changed : Location → Prop} (path : Path) :
    Maintains (fun later => Grows changed fs later ∧ later.workingDir = fs.workingDir) (createParent path)
      fun _ => True := by
  refine createParent_maintains fun {now location} h hmakes => ?_
  obtain ⟨_, -, -, hvacant⟩ := hmakes
  exact ⟨h.1.makes (writable_of_vacant hvacant).ne_nil (entry?_of_vacant hvacant), workingDir_put.trans h.2⟩

/-! ### Removing -/

theorem removeFile_eq (fs : FileSystem) (path : Path) : removeFile path fs =
    match fs.resolve false path with
    | .ok (.found _ .directory) => .error .isDirectory fs
    | .ok (.found location _) => .ok () (fs.erase location)
    | .ok (.vacant _) => .error .notFound fs
    | .error fault => .error fault fs := by
  change (ofResult (fs.resolve false path) >>= _ : FileAction Unit) fs = _
  rcases fs.resolve false path with _ | ⟨_, _ | _ | _⟩ | _ <;> rfl

theorem removeTree_eq (fs : FileSystem) (path : Path) : removeTree path fs =
    match fs.resolve false path with
    | .ok (.found _ (.file _)) => .error .notDirectory fs
    | .ok (.found location _) => .ok () (fs.erase location)
    | .ok (.vacant _) => .error .notFound fs
    | .error fault => .error fault fs := by
  change (ofResult (fs.resolve false path) >>= _ : FileAction Unit) fs = _
  rcases fs.resolve false path with _ | ⟨_, _ | _ | _⟩ | _ <;> rfl

/-- Removing what a path leads to, no link at the end followed, erases that and nothing else. -/
theorem removeFile_maintains
    (herase : ∀ {fs location entry}, inv fs → fs.resolve false path = .ok (.found location entry) →
      entry ≠ .directory → inv (fs.erase location)) :
    Maintains inv (removeFile path) fun _ => True := by
  intro fs hfs
  rw [removeFile_eq]
  rcases hresolve : fs.resolve false path with _ | ⟨_, _ | _ | _⟩ | _
  · exact hfs
  · exact ⟨herase hfs hresolve (by simp), trivial⟩
  · exact hfs
  · exact ⟨herase hfs hresolve (by simp), trivial⟩
  · exact hfs

theorem removeTree_maintains
    (herase : ∀ {fs location entry}, inv fs → fs.resolve false path = .ok (.found location entry) →
      inv (fs.erase location)) :
    Maintains inv (removeTree path) fun _ => True := by
  intro fs hfs
  rw [removeTree_eq]
  rcases hresolve : fs.resolve false path with _ | ⟨_, _ | _ | _⟩ | _
  · exact hfs
  · exact hfs
  · exact ⟨herase hfs hresolve, trivial⟩
  · exact ⟨herase hfs hresolve, trivial⟩
  · exact hfs

end FileAction

end ModPackager
