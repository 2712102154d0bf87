import ModPackager.Shell.Interpreter
import ModPackager.World

/-!
# The shell as a compiler

A compiler is started by name in its working directory. It is a shell with a script, or one of the
tools, and has to be done, together with everything that holds its output open, before its time is up.
-/

namespace ModPackager.Shell

/-- How many steps a script may take. -/
def stepLimit : Nat := 1000000

/-- The status of a program as the end of its process. -/
def runTool (tool : Tool) (arguments : List String) : Script Unit := do
  setStatus (← tool arguments)

/-- The program of a name, if there is one. -/
def program? (name : String) : Option (List String → Script Unit) :=
  let name := programName name
  if name = "sh" then some (runShell stepLimit)
  else if name = "kill" then some (runTool kill)
  else (tools.lookup name).map runTool

/-- Whether a text holds the character that ends texts for the system. -/
def hasNul (text : String) : Bool := text.toList.contains '\x00'

/-- Why a program that is not known does not start: it is not there, or cannot be run. -/
def refusal (files : FileSystem) (name : String) : IoFault :=
  if name.toList.contains '/' then
    match files.lookup ⟨name⟩ with
    | .ok _ => .permissionDenied
    | .error fault => fault
  else .notFound

/-- What an invocation runs, or why it does not start. -/
def launch (invocation : Invocation) (files : FileSystem) : Except IoFault (Script Unit) := do
  if hasNul invocation.program || invocation.args.any hasNul || hasNul invocation.workingDir.text then
    throw .nulInArgument
  match ← files.lookup invocation.workingDir with
  | (_, .directory) => pure ()
  | _ => throw .notDirectory
  match program? invocation.program with
  | some run => return run invocation.args
  | none => throw (refusal { files with workingDir := files.workingDir.join invocation.workingDir } invocation.program)

/-- The text of bytes; what is no text is shown by a sign of its own. -/
def shownText (bytes : ByteArray) : String :=
  (String.fromUTF8? bytes).getD <| String.ofList <| bytes.toList.map fun byte =>
    if byte < 128 then Char.ofNat byte.toNat else '\ufffd'

/-- The tasks that go on without the process that was asked for. -/
def orphans (tasks : List Task) : List Task :=
  (tasks.filter (·.role != .main)).map fun task => { task with role := .detached }

/-- Runs a compiler within a number of milliseconds. -/
def compiler : Compiler := fun invocation limit world =>
  match launch invocation world.files with
  | .error fault => (.notStarted fault, world)
  | .ok script =>
    if limit = 0 then (.timedOut, world)
    else
      let machine : Machine := ⟨world.files, ByteArray.empty, ByteArray.empty⟩
      let process := script.start { workingDir := world.files.workingDir.join invocation.workingDir } machine
      let schedule :=
        (process.settle .main world.pending).advance Schedule.isComplete (world.now + limit - 1)
          Schedule.wakeLimit
      let machine := schedule.machine
      match schedule.status, schedule.isComplete with
      | some status, true =>
        (.exited status (shownText machine.output) (shownText machine.errors),
          { world with files := machine.files, pending := schedule.tasks })
      | _, _ =>
        (.timedOut,
          { world with
            files := { machine.files with now := world.now + limit }
            pending := orphans schedule.tasks })

end ModPackager.Shell
