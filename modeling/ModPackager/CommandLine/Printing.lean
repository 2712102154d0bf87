import ModPackager.Config.Settings
import ModPackager.Error
import ModPackager.Report
import ModPackager.Scan.Project
import ModPackager.Text.Paint

/-!
# What commands print

The texts that the commands show: reports step by step, what a scan found, and errors.
-/

namespace ModPackager.CommandLine

/-- A way to show text: with colours or without. -/
structure Palette where
  coloured : Bool
deriving DecidableEq, Repr

namespace Palette

def good (palette : Palette) : String → String := Text.paint palette.coloured "92"

def doubtful (palette : Palette) : String → String := Text.paint palette.coloured "93"

def bad (palette : Palette) : String → String := Text.paint palette.coloured "91"

def faint (palette : Palette) : String → String := Text.paint palette.coloured "2"

def bold (palette : Palette) : String → String := Text.paint palette.coloured "1"

def bright (palette : Palette) : String → String := Text.paint palette.coloured "97"

def alarm (palette : Palette) : String → String := Text.paint palette.coloured "1;91"

def hint (palette : Palette) : String → String := Text.paint palette.coloured "1;94"

end Palette

/-- Lines as text. -/
def linesText (lines : List String) : String := "".intercalate (lines.map (· ++ "\n"))

/-! ### Reports -/

/-- The line of a source that was left out. -/
def skippedLine (palette : Palette) (source : SkippedSource) : String :=
  "  " ++ palette.doubtful "⚠" ++ " " ++ palette.bold source.path ++ " "
    ++ palette.faint ("(skipped: " ++ source.reason ++ ")")

/-- The lines of a step. -/
def stepLines (palette : Palette) (step : StepReport) : List String :=
  match step.outcome with
  | .success => ["  " ++ palette.good "✓" ++ " " ++ step.name]
  | .skipped reason =>
    ["  " ++ palette.faint "-" ++ " " ++ palette.faint step.name ++ " "
      ++ palette.faint ("(" ++ reason ++ ")")]
  | .failed reason =>
    ["  " ++ palette.bad "✗" ++ " " ++ palette.bad step.name,
      "      " ++ palette.faint "└─" ++ " " ++ palette.faint reason]

/-- The line that counts failed steps, if there are any. -/
def failureLines (palette : Palette) (failed : Nat) : List String :=
  match failed with
  | 0 => []
  | 1 => ["    " ++ palette.doubtful "1 step failed"]
  | _ => ["    " ++ palette.doubtful (toString failed ++ " steps failed")]

/-- A report for reading. -/
def reportText (palette : Palette) (report : Report) : String :=
  let sign := if report.hasFailures then palette.doubtful "⚠" else palette.good "✓"
  linesText <|
    report.skippedSources.map (skippedLine palette) ++ report.steps.flatMap (stepLines palette) ++
      ["", "  " ++ sign ++ " Deployed to " ++ palette.good report.deployRoot,
        "    Patches: " ++ toString report.descriptors ++ ", Extra scripts: "
          ++ toString report.auxScripts.length,
        "    " ++ palette.faint "patches.toml" ++ " " ++ palette.faint report.manifestDigest] ++
      failureLines palette report.failedSteps.length

/-- What is said about a strict run with failures. -/
def strictText : String :=
  "\n  Deployment incomplete with --strict. Fix the failed steps and retry.\n"

/-! ### Scans -/

/-- The line of an annotation that leaves fields empty. -/
def incompleteLine (palette : Palette) (descriptor : PatchDescriptor) : String :=
  "  " ++ palette.doubtful "⚠" ++ " " ++ descriptor.source ++ ":" ++ toString descriptor.line ++ " "
    ++ palette.bold descriptor.functionName ++ " leaves "
    ++ ", ".intercalate descriptor.missingFields ++ " empty"

/-- What is said about a scan. -/
def scanText (palette : Palette) (result : Scan.Result) : String :=
  linesText <|
    result.skipped.map (skippedLine palette) ++ result.incomplete.map (incompleteLine palette) ++
      ["  " ++ palette.good "✓" ++ " " ++ toString result.descriptors.length ++ " patches from "
        ++ toString result.filesScanned ++ " files"]

/-- A descriptor as JSON. -/
def descriptorJson (descriptor : PatchDescriptor) : Json :=
  let optional (name : String) (value : Option String) : List (String × Json) :=
    (value.map fun text => (name, Json.string text)).toList
  .object <|
    [("target", .string descriptor.target), ("pattern", .string descriptor.pattern),
      ("position", .string descriptor.position), ("type", .string descriptor.type),
      ("match_indent", .bool descriptor.matchIndent),
      ("locals", Json.ofStrings descriptor.locals)] ++
    optional "payload_prefix" descriptor.payloadBefore ++
    optional "payload_suffix" descriptor.payloadAfter ++
    [("function_name", .string descriptor.functionName), ("source", .string descriptor.source),
      ("line", Json.ofNat descriptor.line)]

/-- What a scan found as JSON. -/
def scanJson (result : Scan.Result) : Json :=
  .object [
    ("descriptors", .array (result.descriptors.map descriptorJson)),
    ("files_scanned", Json.ofNat result.filesScanned),
    ("skipped", .array (result.skipped.map SkippedSource.toJson))]

/-! ### Errors -/

/-- Splits a text at its first colon with a blank behind it. -/
def splitAtColon? : List Char → Option (List Char × List Char)
  | [] => none
  | ':' :: ' ' :: rest => some ([], rest)
  | c :: rest => (splitAtColon? rest).map fun (before, after) => (c :: before, after)

/-- The kind that an error message begins with, and the rest, if it begins with one. -/
def errorKind? (message : String) : Option (String × String) := do
  let (before, after) ← splitAtColon? message.toList
  let kind := (String.ofList before).toLower
  if kind.utf8ByteSize < 40 && "error".toList.isSuffixOf kind.toList then
    return (Text.replace kind " error" "", String.ofList after)
  else none

/-- The lines that show an error. -/
def errorLines (palette : Palette) (e : Error) : List String :=
  match e with
  | .projectNotFound dir =>
    ["  " ++ palette.alarm "error" ++ " package.json not found", "",
      "    " ++ palette.faint "Searched" ++ ": " ++ dir.text]
  | .unsupportedPlatform reason =>
    ["  " ++ palette.alarm "error" ++ " Unsupported platform", "", "    " ++ reason, "",
      "    " ++ palette.hint "hint" ++ ": Set " ++ palette.bright deployDirVariable ++ " or pass "
        ++ palette.bright "--deploy-dir"]
  | _ =>
    match errorKind? e.message with
    | some (kind, rest) =>
      ["  " ++ palette.alarm ("error[" ++ kind ++ "]") ++ " " ++ palette.faint rest]
    | none => ["  " ++ palette.alarm "error" ++ " " ++ e.message]

/-- An error for reading. -/
def errorText (palette : Palette) (e : Error) : String :=
  linesText ([""] ++ errorLines palette e ++ [""])

end ModPackager.CommandLine
