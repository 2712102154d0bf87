import ModPackager.Log
import ModPackager.Scan.Project

/-!
# What a scan notes

The events of a scan: for each source in order what was left out of it, then every annotation that
leaves fields empty, and at the end what was found.
-/

namespace ModPackager.Scan

/-- The part of the program that these events come from. -/
def logSource : String := "lovepack::scan"

/-- The event of an annotation that belongs to no name. -/
def ignoredEvent (path : Path) (line : Nat) : Log.Event :=
  ⟨logSource, .warn, "ignoring annotations on anonymous default export",
    [("file", path.text), ("line", toString line)]⟩

/-- The events of one source. -/
def ScannedFile.events (file : ScannedFile) : List Log.Event :=
  match file.outcome with
  | .scanned _ ignored => ignored.map (ignoredEvent file.path)
  | .unreadable fault =>
    [⟨logSource, .warn, "skipping unreadable source",
      [("file", file.path.text), ("error", fault.message)]⟩]
  | .unparsable =>
    [⟨logSource, .warn, "skipping unparsable source",
      [("file", file.path.text), ("error", (Error.parse file.path).message)]⟩]

/-- The event of an annotation that leaves fields empty. -/
def incompleteEvent (descriptor : PatchDescriptor) : Log.Event :=
  ⟨logSource, .warn, "patch annotation leaves loader fields empty",
    [("file", descriptor.source), ("line", toString descriptor.line),
      ("function", descriptor.functionName), ("missing", Log.listText descriptor.missingFields)]⟩

/-- The events of a scan in order. -/
def Result.events (result : Result) : List Log.Event :=
  result.files.flatMap (·.events) ++ result.incomplete.map incompleteEvent ++
    [⟨logSource, .debug, "scan finished",
      [("files", toString result.filesScanned),
        ("descriptors", toString result.descriptors.length)]⟩]

end ModPackager.Scan
