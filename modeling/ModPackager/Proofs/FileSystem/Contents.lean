import ModPackager.Proofs.FileSystem.Way

/-!
# Other contents of files

`rewrite` gives files other contents and leaves everything else as it is. Paths do not look into files, so
following one goes the same way before and after, and what it leads to is changed as everything is
(`lookup_rewrite`). Names in directories, and what is a file or a directory, are the same.
-/

namespace ModPackager

/-- An entry, where a file has its contents changed. -/
def Entry.rewrite (change : ByteArray → ByteArray) : Entry → Entry
  | .file contents => .file (change contents)
  | .directory => .directory
  | .link text => .link text

@[simp]
theorem Entry.isDirectory_rewrite (change : ByteArray → ByteArray) (entry : Entry) :
    (entry.rewrite change).isDirectory = entry.isDirectory := by
  cases entry <;> rfl

theorem Entry.rewrite_eq_directory {change : ByteArray → ByteArray} {entry : Entry} :
    entry.rewrite change = .directory ↔ entry = .directory := by
  cases entry <;> simp [rewrite]

namespace FileSystem

/-- The file system in which the contents of every file are changed, by its place. -/
def rewrite (fs : FileSystem) (change : Location → ByteArray → ByteArray) : FileSystem :=
  { fs with nodes := fs.nodes.map fun (place, node) =>
      (place, { node with entry := node.entry.rewrite (change place) }) }

/-- What a path leads to, once contents are changed. -/
def Target.rewrite (change : Location → ByteArray → ByteArray) : Target → Target
  | .found location entry => .found location (entry.rewrite (change location))
  | .vacant location => .vacant location

variable {fs : FileSystem} {change : Location → ByteArray → ByteArray} {follow : Bool} {links : Nat}
  {here location : Location} {names : List String} {slash : Bool} {path : Path}

/-! ### What lies in a file system -/

theorem node?_rewrite (location : Location) : (fs.rewrite change).node? location
    = (fs.node? location).map fun node => { node with entry := node.entry.rewrite (change location) } := by
  unfold rewrite node?
  generalize fs.nodes = nodes
  induction nodes with
  | nil => rfl
  | cons first rest ih =>
      obtain ⟨place, node⟩ := first
      rw [List.map_cons, lookup_cons_ite, lookup_cons_ite]
      split
      next heq =>
          subst heq
          rfl
      · exact ih

theorem entry?_rewrite (location : Location) :
    FileSystem.entry? (fs.rewrite change) location = (fs.entry? location).map (·.rewrite (change location)) := by
  unfold entry?
  split
  · rfl
  · rw [node?_rewrite, Option.map_map, Option.map_map]
    rfl

theorem entry?_rewrite_eq_directory :
    FileSystem.entry? (fs.rewrite change) location = some .directory ↔ fs.entry? location = some .directory := by
  rw [entry?_rewrite]
  simp [Entry.rewrite_eq_directory]

theorem names_rewrite (location : Location) : (fs.rewrite change).names location = fs.names location := by
  unfold names rewrite
  rw [List.filterMap_map]
  simp

/-! ### Following paths -/

theorem walkStep_rewrite
    (honward : ∀ {start rest slash}, (fs.rewrite change).onwardFor follow links start rest slash
      = (fs.onwardFor follow links start rest slash).map (·.rewrite change)) :
    (fs.rewrite change).walk follow links here names slash
      = (fs.walk follow links here names slash).map (·.rewrite change) := by
  induction names generalizing here slash with
  | nil =>
      rw [walk_nil, walk_nil, entry?_rewrite]
      rcases fs.entry? here with _ | entry
      · rfl
      · simp only [Option.map_some, Entry.isDirectory_rewrite]
        split <;> rfl
  | cons name rest ih =>
      by_cases hdir : fs.entry? here = some .directory
      · have hdir' : FileSystem.entry? (fs.rewrite change) here = some .directory := entry?_rewrite_eq_directory.2 hdir
        rcases name_cases name with rfl | rfl | ⟨hdot, hup, hlong⟩ | hname
        · rw [walk_dot hdir', walk_dot hdir, ih]
        · rw [walk_up hdir', walk_up hdir, ih]
        · rw [walk_long hdir' hdot hup hlong, walk_long hdir hdot hup hlong]
          rfl
        · rw [walk_name hdir' hname, walk_name hdir hname, entry?_rewrite]
          rcases fs.entry? (here ++ [name]) with _ | _ | _ | text
          · simp only [Option.map_none]
            split <;> rfl
          · exact ih
          · exact ih
          · simp only [Option.map_some, Entry.rewrite]
            split
            · rfl
            · exact honward
      · rw [walk_cons_of_not_directory hdir,
          walk_cons_of_not_directory fun h => hdir (entry?_rewrite_eq_directory.1 h)]
        rfl

theorem walk_rewrite : (fs.rewrite change).walk follow links here names slash
    = (fs.walk follow links here names slash).map (·.rewrite change) := by
  induction links generalizing here names slash with
  | zero => exact walkStep_rewrite rfl
  | succ links ih => exact walkStep_rewrite ih

theorem resolve_rewrite (follow : Bool) (path : Path) :
    (fs.rewrite change).resolve follow path = (fs.resolve follow path).map (·.rewrite change) := by
  simp only [resolve]
  split
  · rfl
  · split
    · rfl
    · split
      · rfl
      · exact walk_rewrite

theorem lookup_rewrite (path : Path) : (fs.rewrite change).lookup path
    = (fs.lookup path).map fun (location, entry) => (location, entry.rewrite (change location)) := by
  unfold lookup
  rw [resolve_rewrite]
  rcases fs.resolve true path with _ | ⟨_ | _⟩ <;> rfl

theorem lookup?_rewrite (path : Path) : (fs.rewrite change).lookup? path
    = (fs.lookup? path).map fun (location, entry) => (location, entry.rewrite (change location)) := by
  unfold lookup?
  rw [lookup_rewrite]
  rcases fs.lookup path with _ | _ <;> rfl

/-! ### What paths lead to -/

theorem holds_rewrite (path : Path) : (fs.rewrite change).holds path = fs.holds path := by
  unfold holds
  rw [lookup?_rewrite, Option.isSome_map]

theorem holdsFile_rewrite (path : Path) : (fs.rewrite change).holdsFile path = fs.holdsFile path := by
  unfold holdsFile
  rw [lookup?_rewrite]
  rcases fs.lookup? path with _ | ⟨_, _ | _ | _⟩ <;> rfl

theorem holdsDirectory_rewrite (path : Path) : (fs.rewrite change).holdsDirectory path = fs.holdsDirectory path := by
  unfold holdsDirectory
  rw [lookup?_rewrite]
  rcases fs.lookup? path with _ | ⟨_, _ | _ | _⟩ <;> rfl

end FileSystem

end ModPackager
