import ModPackager.Proofs.FileSystem.Action
import ModPackager.Proofs.Glob.Expand
import ModPackager.Proofs.Scan.Source
import ModPackager.Scan.Project

/-!
# What becomes of every source

Each source of a project is scanned by itself, and what comes of it is decided by its own contents: descriptors if
it can be read and parsed (`sourceAt?`), and an entry among the skipped sources if not. A scan puts these together
in the order of the paths. So it loses nothing, and spoiling sources takes away their own descriptors and no others
(`scanProject_keeps`): neither are other sources found, since patterns do not look into files, nor are others read
differently.
-/

namespace ModPackager.Scan

variable {fs fs' : FileSystem} {settings : Settings} {projectDir path : Path} {paths : List Path}
  {change : Location → ByteArray → ByteArray}

/-! ### One source -/

/-- The path of a source as descriptors show it. -/
def relative (projectDir path : Path) : Path := (path.stripPrefix? projectDir).getD path

/-- The descriptors of a source, if it can be read and parsed. -/
def sourceAt? (fs : FileSystem) (projectDir path : Path) : Option (List PatchDescriptor) :=
  match FileAction.readText path fs with
  | .ok text _ => (source (relative projectDir path) text).toOption
  | .error _ _ => none

theorem scanFile_eq (fs : FileSystem) (projectDir path : Path) : scanFile fs projectDir path =
    match FileAction.readText path fs with
    | .ok text _ => ⟨relative projectDir path, scanText (relative projectDir path) text⟩
    | .error fault _ => ⟨relative projectDir path, .unreadable fault⟩ := rfl

/-- A scanned source has its descriptors, and a skipped one is named. -/
theorem scanFile_cases (fs : FileSystem) (projectDir path : Path) :
    (∃ descriptors, sourceAt? fs projectDir path = some descriptors
        ∧ (scanFile fs projectDir path).descriptors = descriptors
        ∧ (scanFile fs projectDir path).isScanned = true ∧ (scanFile fs projectDir path).skipped? = none)
      ∨ sourceAt? fs projectDir path = none ∧ (scanFile fs projectDir path).descriptors = []
        ∧ (scanFile fs projectDir path).isScanned = false
        ∧ ∃ reason, (scanFile fs projectDir path).skipped? = some ⟨(relative projectDir path).text, reason⟩ := by
  rw [scanFile_eq, sourceAt?]
  rcases FileAction.readText path fs with ⟨text, _⟩ | ⟨fault, _⟩
  · simp only [source, scanText]
    rcases parseSource (relative projectDir path) text with refusal | module
    · exact .inr ⟨rfl, rfl, rfl, _, rfl⟩
    · exact .inl ⟨_, rfl, rfl, rfl, rfl⟩
  · exact .inr ⟨rfl, rfl, rfl, _, rfl⟩

theorem scanFile_descriptors (fs : FileSystem) (projectDir path : Path) :
    (scanFile fs projectDir path).descriptors = (sourceAt? fs projectDir path).getD [] := by
  rcases scanFile_cases fs projectDir path with ⟨descriptors, hsource, hfile, -⟩ | ⟨hsource, hfile, -⟩ <;>
    rw [hsource, hfile] <;> rfl

theorem scanFile_isScanned (fs : FileSystem) (projectDir path : Path) :
    (scanFile fs projectDir path).isScanned = (sourceAt? fs projectDir path).isSome := by
  rcases scanFile_cases fs projectDir path with ⟨descriptors, hsource, -, hfile, -⟩ | ⟨hsource, -, hfile, -⟩ <;>
    rw [hsource, hfile] <;> rfl

theorem sourceAt?_sorted {descriptors : List PatchDescriptor}
    (h : sourceAt? fs projectDir path = some descriptors) :
    (∀ descriptor ∈ descriptors, descriptor.type ≠ "")
      ∧ descriptors.Pairwise fun a b => a.line ≤ b.line := by
  unfold sourceAt? at h
  split at h
  next text _ _ =>
      rcases hsource : source (relative projectDir path) text with _ | found
      · simp [hsource, Except.toOption] at h
      · obtain rfl : found = descriptors := by simpa [hsource, Except.toOption] using h
        exact source_sorted hsource
  · cases h

/-- A source is read from the file that its path leads to. -/
theorem sourceAt?_eq (fs : FileSystem) (projectDir path : Path) : sourceAt? fs projectDir path =
    match fs.lookup? path with
    | some (_, .file contents) =>
      (String.fromUTF8? contents).bind fun text => (source (relative projectDir path) text).toOption
    | _ => none := by
  unfold sourceAt? FileSystem.lookup?
  rw [FileAction.readText_eq, FileAction.readBytes_eq]
  rcases fs.lookup path with _ | ⟨_, contents | _ | _⟩
  · rfl
  · simp only [Except.toOption]
    rcases String.fromUTF8? contents with _ | text <;> rfl
  · rfl
  · rfl

/-- Only what its path leads to decides what becomes of a source. -/
theorem sourceAt?_congr (h : fs'.lookup? path = fs.lookup? path) (projectDir : Path) :
    sourceAt? fs' projectDir path = sourceAt? fs projectDir path := by
  rw [sourceAt?_eq, sourceAt?_eq, h]

/-! ### All of them -/

/-- The sources are found by their names alone. -/
theorem collectSources_rewrite (fs : FileSystem) (change : Location → ByteArray → ByteArray) (projectDir : Path)
    (sources : String) :
    collectSources (fs.rewrite change) projectDir sources = collectSources fs projectDir sources := by
  have hholds : (fs.rewrite change).holdsFile = fs.holdsFile := funext FileSystem.holdsFile_rewrite
  unfold collectSources
  rw [Glob.paths_rewrite, hholds]

theorem skipped_scanFiles (fs : FileSystem) (projectDir : Path) (paths : List Path) :
    (Result.skipped ⟨paths.map (scanFile fs projectDir)⟩).map (·.path)
      = (paths.filter fun path => (sourceAt? fs projectDir path).isNone).map fun path =>
        (relative projectDir path).text := by
  unfold Result.skipped
  induction paths with
  | nil => rfl
  | cons path rest ih =>
      rcases scanFile_cases fs projectDir path with ⟨_, hsource, -, -, hskipped⟩ | ⟨hsource, -, -, reason, hskipped⟩
      · simpa [hsource, hskipped] using ih
      · simpa [hsource, hskipped] using ih

/-- The descriptors of spoilt sources are gone, and those of the others are left as they are. -/
theorem flatMap_sourceAt?_spoilt
    (h : ∀ path ∈ paths, fs'.lookup? path = fs.lookup? path ∨ sourceAt? fs' projectDir path = none) :
    paths.flatMap (fun path => (sourceAt? fs' projectDir path).getD [])
      = (paths.filter fun path => fs'.lookup? path = fs.lookup? path).flatMap fun path =>
        (sourceAt? fs projectDir path).getD [] := by
  induction paths with
  | nil => rfl
  | cons path rest ih =>
      have hrest := ih fun other hother => h other (List.mem_cons_of_mem _ hother)
      rw [List.flatMap_cons, hrest]
      by_cases hsame : fs'.lookup? path = fs.lookup? path
      · rw [sourceAt?_congr hsame, List.filter_cons_of_pos (by simpa using hsame), List.flatMap_cons]
      · have hspoilt := (h path List.mem_cons_self).resolve_left hsame
        rw [hspoilt, List.filter_cons_of_neg (by simpa using hsame)]
        rfl

/-- What a scan gives for the paths of its sources. -/
theorem scanProject_eq (h : collectSources fs settings.projectDir settings.sources = .ok paths) :
    scanProject fs settings = .ok ⟨paths.map (scanFile fs settings.projectDir)⟩ := by
  unfold scanProject
  rw [h]

theorem descriptors_scanFiles (fs : FileSystem) (projectDir : Path) (paths : List Path) :
    (Result.descriptors ⟨paths.map (scanFile fs projectDir)⟩)
      = paths.flatMap fun path => (sourceAt? fs projectDir path).getD [] := by
  simp only [Result.descriptors, List.flatMap_map, scanFile_descriptors]

/-- A scan gives what its sources give one by one, in the order of their paths: the descriptors of each that can be
read and parsed, and one entry among the skipped for each other one. Every descriptor has a type, and within one
source the lines never decrease. Where files have other contents, the same sources are scanned; if all of them that
are changed can no longer be read and parsed, their descriptors are missing, and nothing else is different. -/
theorem scanProject_keeps (hpaths : collectSources fs settings.projectDir settings.sources = .ok paths) :
    ∃ result, scanProject fs settings = .ok result
      ∧ result.descriptors = paths.flatMap (fun path => (sourceAt? fs settings.projectDir path).getD [])
      ∧ result.filesScanned = paths.countP (fun path => (sourceAt? fs settings.projectDir path).isSome)
      ∧ result.skipped.map (·.path)
        = (paths.filter fun path => (sourceAt? fs settings.projectDir path).isNone).map
          (fun path => (relative settings.projectDir path).text)
      ∧ result.filesScanned + result.skipped.length = paths.length
      ∧ (∀ descriptor ∈ result.descriptors, descriptor.type ≠ "")
      ∧ (∀ path ∈ paths, ∀ descriptors, sourceAt? fs settings.projectDir path = some descriptors →
        descriptors.Pairwise fun a b => a.line ≤ b.line)
      ∧ ∀ change,
        (∀ path ∈ paths, (fs.rewrite change).lookup? path = fs.lookup? path
          ∨ sourceAt? (fs.rewrite change) settings.projectDir path = none) →
        ∃ spoilt, scanProject (fs.rewrite change) settings = .ok spoilt
          ∧ spoilt.descriptors
            = (paths.filter fun path => (fs.rewrite change).lookup? path = fs.lookup? path).flatMap
              fun path => (sourceAt? fs settings.projectDir path).getD [] := by
  have hdescriptors := descriptors_scanFiles fs settings.projectDir paths
  have hscanned : Result.filesScanned ⟨paths.map (scanFile fs settings.projectDir)⟩
      = paths.countP fun path => (sourceAt? fs settings.projectDir path).isSome := by
    simp only [Result.filesScanned, List.countP_map, Function.comp_def, scanFile_isScanned]
  have hskipped := skipped_scanFiles fs settings.projectDir paths
  refine ⟨_, scanProject_eq hpaths, hdescriptors, hscanned, hskipped, ?_, ?_, ?_, fun change hspoilt => ?_⟩
  · have hlength := congrArg List.length hskipped
    rw [List.length_map, List.length_map, ← List.countP_eq_length_filter] at hlength
    rw [hscanned, hlength]
    have hsplit := List.length_eq_countP_add_countP (l := paths) fun path =>
      (sourceAt? fs settings.projectDir path).isSome
    simp only [Bool.not_eq_true, Bool.decide_eq_false, Option.not_isSome] at hsplit
    exact hsplit.symm
  · intro descriptor hmem
    rw [hdescriptors] at hmem
    obtain ⟨path, -, hpath⟩ := List.mem_flatMap.1 hmem
    rcases hsource : sourceAt? fs settings.projectDir path with _ | descriptors
    · simp [hsource] at hpath
    · rw [hsource] at hpath
      exact (sourceAt?_sorted hsource).1 descriptor hpath
  · exact fun path _ descriptors hsource => (sourceAt?_sorted hsource).2
  · have hsame : collectSources (fs.rewrite change) settings.projectDir settings.sources = .ok paths := by
      rw [collectSources_rewrite, hpaths]
    exact ⟨_, scanProject_eq hsame,
      (descriptors_scanFiles _ _ _).trans (flatMap_sourceAt?_spoilt hspoilt)⟩

/-- A project with a source in which a function has two documentation blocks. -/
def twiceProject : FileSystem :=
  .ofEntries ⟨"/w"⟩ [(["w"], .directory), (["w", "src"], .directory),
    (["w", "src", "a.ts"], .file "/** @lovelyType p */\n/** @lovelyType q */\nfunction f() \x7b\x7d\n".toUTF8)]

/-- Its settings. -/
def twiceSettings : Settings := .ofSources ⟨"."⟩ {} none {}

theorem scanProject_keeps_twiceProject :
    ∃ result spoilt, scanProject twiceProject twiceSettings = .ok result
      ∧ result.descriptors.map (fun descriptor => (descriptor.type, descriptor.line)) = [("p", 3), ("q", 3)]
      ∧ result.filesScanned = 1 ∧ result.skipped.map (·.path) = []
      ∧ scanProject (twiceProject.rewrite fun _ _ => ⟨#[255]⟩) twiceSettings = .ok spoilt
      ∧ spoilt.descriptors = [] := by
  have hpaths : collectSources twiceProject twiceSettings.projectDir twiceSettings.sources
      = .ok [⟨"src/a.ts"⟩] := by decide +kernel
  obtain ⟨result, hresult, hdescriptors, hscanned, hskipped, -, -, -, hall⟩ := scanProject_keeps hpaths
  obtain ⟨spoilt, hspoilt, hleft⟩ := hall (fun _ _ => ⟨#[255]⟩) (by decide +kernel)
  refine ⟨result, spoilt, hresult, ?_, ?_, ?_, hspoilt, ?_⟩
  · rw [hdescriptors]
    decide +kernel
  · rw [hscanned]
    decide +kernel
  · rw [hskipped]
    decide +kernel
  · rw [hleft]
    decide +kernel

end ModPackager.Scan
