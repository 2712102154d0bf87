import ModPackager.FileSystem.Action
import ModPackager.Text.Lines

/-!
# Auxiliary scripts

Each script of the auxiliary directory is a job: the compiler turns it into a file next to it, which
is deployed. The first line of a script may ask for its code to be embedded as a string.
-/

namespace ModPackager

/-- A script to compile and deploy. -/
structure Job where
  fileName : String
  source : Path
  /-- Where the compiler writes. -/
  output : Path
  /-- Where the compiled script is deployed. -/
  deployPath : Path
deriving DecidableEq, Repr

/-- A script name without its ending. -/
def scriptStem (fileName : String) : String := (Text.dropEnding? fileName ".ts").getD fileName

/-- The name of a compiled script. -/
def scriptTarget (fileName : String) : String := scriptStem fileName ++ ".lua"

namespace Job

/-- The script name without its ending. -/
def stem (job : Job) : String := scriptStem job.fileName

/-- The name of the compiled script. -/
def targetName (job : Job) : String := scriptTarget job.fileName

/-- The job of a script. -/
def ofName (auxDir deployDir : Path) (fileName : String) : Job where
  fileName := fileName
  source := auxDir.child fileName
  output := auxDir.child (scriptTarget fileName)
  deployPath := deployDir.child (scriptTarget fileName)

/-- What the first line of a script begins with if its code is to be embedded. -/
def embedMark : String := "// $love2d-compile-to-string$ //"

/-- Whether a script asks for its code to be embedded. -/
def embeds (job : Job) : FileAction Bool := do
  let contents ← FileAction.readBytes job.source
  return embedMark.toUTF8.toList.isPrefixOf contents.toList

end Job

/-- The directory of deployed scripts below the deploy root. -/
def scriptDir : String := "extra_lua"

/-- Whether a file name is that of a script: not hidden, and no declaration file. -/
def isScriptName (name : String) : Bool :=
  name.toList.head? != some '.' && (Text.dropEnding? name ".ts").isSome
    && (Text.dropEnding? name ".d.ts").isNone

/-- The jobs of an auxiliary directory in the order of file names; none if it is not there. -/
def discoverJobs (fs : FileSystem) (auxDir deployRoot : Path) : Except IoFault (List Job) :=
  if fs.holdsDirectory auxDir then
    match FileAction.readNames auxDir fs with
    | .error fault _ => .error fault
    | .ok names _ =>
      let scripts := names.filter fun name => isScriptName name && fs.holdsFile (auxDir.child name)
      .ok ((scripts.mergeSort fun a b => a ≤ b).map (Job.ofName auxDir (deployRoot.child scriptDir)))
  else .ok []

end ModPackager
