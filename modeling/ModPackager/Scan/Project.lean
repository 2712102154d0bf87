import ModPackager.Config.Settings
import ModPackager.Glob.Expand
import ModPackager.Report
import ModPackager.Scan.Source

/-!
# Scanning a project

The include pattern of a project selects its sources. They are scanned in the order of their paths; a
file that cannot be read or is no module is left out and named, and never stops the scan.
-/

namespace ModPackager

namespace Scan

/-- The pattern that selects the sources of a project: the include pattern below the project
directory, in which nothing is a wildcard. -/
def sourcePattern (projectDir : Path) (sources : String) : List Char :=
  let dir := Glob.escape projectDir.text.toList
  (dir.reverse.dropWhile (· == '/')).reverse ++ '/' :: sources.toList

/-- The sources of a project in order. -/
def collectSources (fs : FileSystem) (projectDir : Path) (sources : String) :
    Except PatternFault (List Path) := do
  let found ← Glob.paths fs (sourcePattern projectDir sources)
  return (found.filter fs.holdsFile).mergeSort fun a b => !b.before a

/-- What became of a source. -/
inductive FileOutcome
  /-- It was scanned; annotations on the given lines belong to no name. -/
  | scanned (descriptors : List PatchDescriptor) (ignored : List Nat)
  | unreadable (fault : IoFault)
  | unparsable

/-- A source with its path below the project. -/
structure ScannedFile where
  path : Path
  outcome : FileOutcome

/-- The descriptors of a source. -/
def ScannedFile.descriptors (file : ScannedFile) : List PatchDescriptor :=
  match file.outcome with
  | .scanned descriptors _ => descriptors
  | _ => []

/-- Whether a source was scanned. -/
def ScannedFile.isScanned (file : ScannedFile) : Bool :=
  match file.outcome with
  | .scanned _ _ => true
  | _ => false

/-- Why a source was left out, if it was. -/
def ScannedFile.skipped? (file : ScannedFile) : Option SkippedSource :=
  match file.outcome with
  | .scanned _ _ => none
  | .unreadable fault => some ⟨file.path.text, fault.message⟩
  | .unparsable => some ⟨file.path.text, (Error.parse file.path).message⟩

/-- What scanning the text of a source gives. -/
def scanText (path : Path) (text : String) : FileOutcome :=
  match parseSource path text with
  | .ok module => .scanned (moduleDescriptors path module) (ignoredLines module)
  | .error _ => .unparsable

/-- Scans one source. -/
def scanFile (fs : FileSystem) (projectDir path : Path) : ScannedFile :=
  let relative := (path.stripPrefix? projectDir).getD path
  match FileAction.readText path fs with
  | .ok text _ => ⟨relative, scanText relative text⟩
  | .error fault _ => ⟨relative, .unreadable fault⟩

/-- What a scan found, source by source. -/
structure Result where
  files : List ScannedFile

namespace Result

/-- The descriptors of all sources. -/
def descriptors (result : Result) : List PatchDescriptor := result.files.flatMap (·.descriptors)

/-- How many sources were scanned. -/
def filesScanned (result : Result) : Nat := result.files.countP (·.isScanned)

/-- The sources that were left out. -/
def skipped (result : Result) : List SkippedSource := result.files.filterMap (·.skipped?)

/-- The descriptors that leave a field of the loader empty. -/
def incomplete (result : Result) : List PatchDescriptor :=
  result.descriptors.filter fun descriptor => !descriptor.missingFields.isEmpty

end Result

/-- Scans the sources of a project. -/
def scanProject (fs : FileSystem) (settings : Settings) : Except Error Result :=
  match collectSources fs settings.projectDir settings.sources with
  | .ok paths => .ok ⟨paths.map (scanFile fs settings.projectDir)⟩
  | .error fault => .error (.pattern fault)

end Scan

end ModPackager
