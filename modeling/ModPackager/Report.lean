import ModPackager.Json.Value

/-!
# Reports

Every deployment step ends in an outcome, never in an error, and a report lists the steps of one run
in order.
-/

namespace ModPackager

/-- How a step went. -/
inductive Outcome
  | success
  /-- Nothing had to be done. -/
  | skipped (reason : String)
  | failed (reason : String)
deriving DecidableEq, Repr

/-- Whether the step failed. -/
def Outcome.isFailure : Outcome → Bool
  | .failed _ => true
  | _ => false

/-- A named step and how it went. -/
structure StepReport where
  name : String
  outcome : Outcome
deriving DecidableEq, Repr

/-- A source file that a scan left out, and why. -/
structure SkippedSource where
  path : String
  reason : String
deriving DecidableEq, Repr

/-- What one run did. -/
structure Report where
  deployRoot : String
  /-- How many patches the manifest holds. -/
  descriptors : Nat := 0
  skippedSources : List SkippedSource := []
  /-- The steps in the order in which they ran. -/
  steps : List StepReport := []
  /-- File names of the deployed auxiliary scripts. -/
  auxScripts : List String := []
  manifestDigest : String := ""
  metadataDigest : String := ""
deriving DecidableEq, Repr

namespace Report

/-- Adds a step at the end. -/
def record (report : Report) (name : String) (outcome : Outcome) : Report :=
  { report with steps := report.steps ++ [⟨name, outcome⟩] }

/-- The failed steps in order. -/
def failedSteps (report : Report) : List StepReport :=
  report.steps.filter (·.outcome.isFailure)

/-- Whether any step failed. -/
def hasFailures (report : Report) : Bool := report.steps.any (·.outcome.isFailure)

end Report

/-! ### Reports as JSON -/

/-- The members that describe an outcome. -/
def Outcome.members : Outcome → List (String × Json)
  | .success => [("status", .string "success")]
  | .skipped reason => [("status", .string "skipped"), ("reason", .string reason)]
  | .failed reason => [("status", .string "failed"), ("reason", .string reason)]

/-- A step as JSON. -/
def StepReport.toJson (step : StepReport) : Json :=
  .object (("name", .string step.name) :: step.outcome.members)

/-- A skipped source as JSON. -/
def SkippedSource.toJson (source : SkippedSource) : Json :=
  .object [("path", .string source.path), ("reason", .string source.reason)]

/-- A report as JSON. -/
def Report.toJson (report : Report) : Json :=
  .object [
    ("deploy_root", .string report.deployRoot),
    ("descriptors", Json.ofNat report.descriptors),
    ("skipped_sources", .array (report.skippedSources.map SkippedSource.toJson)),
    ("steps", .array (report.steps.map StepReport.toJson)),
    ("aux_scripts", Json.ofStrings report.auxScripts),
    ("manifest_sha256", .string report.manifestDigest),
    ("metadata_sha256", .string report.metadataDigest)]

end ModPackager
