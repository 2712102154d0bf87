import ModPackager.FileSystem.Fault
import ModPackager.Json.Fault
import ModPackager.Path

/-!
# Errors

What stops a run, or a single step of it, each with the text that reports it.
-/

namespace ModPackager

/-- Why an include pattern is refused. -/
inductive PatternReason
  /-- Three stars in a row. -/
  | wildcards
  /-- Two stars that are not a whole component. -/
  | recursion
  /-- A bracket that opens no set of characters. -/
  | range
deriving DecidableEq, Repr

/-- The text of the reason. -/
def PatternReason.message : PatternReason → String
  | .wildcards => "wildcards are either regular `*` or recursive `**`"
  | .recursion => "recursive wildcards must form a single path component"
  | .range => "invalid range pattern"

/-- A refused pattern: where it breaks the rules, in characters, and how. -/
structure PatternFault where
  position : Nat
  reason : PatternReason
deriving DecidableEq, Repr

/-- How a program ended. -/
inductive ExitStatus
  | code (value : Nat)
  /-- A signal ended it. -/
  | signal (number : Nat)
deriving DecidableEq, Repr

/-- The names of signals. -/
def signalNames : List (Nat × String) :=
  [(1, "SIGHUP"), (2, "SIGINT"), (3, "SIGQUIT"), (4, "SIGILL"), (5, "SIGTRAP"), (6, "SIGABRT"),
    (7, "SIGBUS"), (8, "SIGFPE"), (9, "SIGKILL"), (10, "SIGUSR1"), (11, "SIGSEGV"),
    (12, "SIGUSR2"), (13, "SIGPIPE"), (14, "SIGALRM"), (15, "SIGTERM"), (16, "SIGSTKFLT"),
    (17, "SIGCHLD"), (18, "SIGCONT"), (19, "SIGSTOP"), (20, "SIGTSTP"), (21, "SIGTTIN"),
    (22, "SIGTTOU"), (23, "SIGURG"), (24, "SIGXCPU"), (25, "SIGXFSZ"), (26, "SIGVTALRM"),
    (27, "SIGPROF"), (28, "SIGWINCH"), (29, "SIGIO"), (30, "SIGPWR"), (31, "SIGSYS")]

/-- The text that describes an exit. -/
def ExitStatus.describe : ExitStatus → String
  | .code value => "exit status: " ++ toString value
  | .signal number =>
    "signal: " ++ toString number ++
      match signalNames.lookup number with
      | some name => " (" ++ name ++ ")"
      | none => ""

/-- Why an operation failed. -/
inductive Error
  /-- The directory holds no package document. -/
  | projectNotFound (dir : Path)
  /-- The package document is of no use; the text says why. -/
  | invalidProject (reason : String)
  /-- The configuration file breaks the grammar. -/
  | configMalformed
  /-- The configuration file holds something unsuitable; the text shows where. -/
  | configUnsuitable (reason : String)
  /-- A source file is no module. -/
  | parse (path : Path)
  /-- There is no place to deploy to unless one is given. -/
  | unsupportedPlatform (reason : String)
  /-- Clearing the deploy root would hit what must be kept. -/
  | unsafeDeployRoot (root : Path) (reason : String)
  /-- The compiler did not start. -/
  | compilerSpawn (program : String) (fault : IoFault)
  /-- The compiler failed. -/
  | compilerFailed (file : String) (status : ExitStatus) (errors : String)
  /-- The compiler, or its output, took too long. -/
  | compilerTimedOut (file : String) (secs : Nat)
  /-- The compiler's output is gone. -/
  | compilerOutputMissing (file : String) (path : Path)
  | io (fault : IoFault)
  /-- A directory tree cannot be listed further. -/
  | walk (path : Path) (fault : IoFault)
  /-- A link leads back to a directory that it lies in. -/
  | walkLoop (path ancestor : Path)
  /-- The include pattern is refused. -/
  | pattern (fault : PatternFault)
deriving DecidableEq, Repr

/-- The text that reports an error. -/
def Error.message : Error → String
  | .projectNotFound dir => "package.json not found in " ++ dir.text
  | .invalidProject reason => "Invalid project manifest: package.json: " ++ reason
  | .configMalformed => "Failed to parse configuration: lovepack.toml: TOML parse error"
  | .configUnsuitable reason => "Failed to parse configuration: lovepack.toml: " ++ reason
  | .parse path => "Parse error in " ++ path.text
  | .unsupportedPlatform reason => "Unsupported platform: " ++ reason
  | .unsafeDeployRoot root reason => "Unsafe deploy root " ++ root.text ++ ": " ++ reason
  | .compilerSpawn program fault =>
    "Failed to spawn compiler `" ++ program ++ "`: " ++ fault.message
  | .compilerFailed file status _ => "Compiler failed for " ++ file ++ " with " ++ status.describe
  | .compilerTimedOut file secs =>
    "Compiler timed out after " ++ toString secs ++ "s for " ++ file
  | .compilerOutputMissing file path =>
    "Compiler output " ++ path.text ++ " missing for " ++ file
  | .io fault => "IO error: " ++ fault.message
  | .walk path fault =>
    "Walkdir error: IO error for operation on " ++ path.text ++ ": " ++ fault.message
  | .walkLoop path ancestor =>
    "Walkdir error: File system loop found: " ++ path.text ++ " points to an ancestor "
      ++ ancestor.text
  | .pattern fault =>
    "Glob pattern error: Pattern syntax error near position " ++ toString fault.position ++ ": "
      ++ fault.reason.message

end ModPackager
