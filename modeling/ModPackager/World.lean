import ModPackager.Log
import ModPackager.Process

/-!
# The world of a run

A run acts on files, and next to it processes that it has started may still change them. The world
holds the files, the processes that are still to go on, and what the run has noted so far.
-/

namespace ModPackager

/-- Everything that a run acts on. -/
structure World where
  files : FileSystem
  /-- The processes that are still to go on. -/
  pending : List Task := []
  log : List Log.Event := []

namespace World

/-- The time now, in milliseconds. -/
def now (world : World) : Nat := world.files.now

/-- The world some time later, after the processes that were due by then have gone on. -/
def wait (world : World) (milliseconds : Nat) : World :=
  let time := world.now + milliseconds
  let schedule : Schedule := ⟨⟨world.files, ByteArray.empty, ByteArray.empty⟩, world.pending, none⟩
  let later := schedule.advance (fun _ => false) time Schedule.wakeLimit
  { world with files := { later.machine.files with now := time }, pending := later.tasks }

/-- Notes an event. -/
def note (world : World) (source : String) (level : Log.Level) (message : String)
    (fields : List (String × String)) : World :=
  { world with log := world.log ++ [⟨source, level, message, fields⟩] }

/-- A change of the files as a change of the world. -/
def onFiles {α : Type} (action : StateM FileSystem α) (world : World) : α × World :=
  let (value, files) := action world.files
  (value, { world with files })

end World

/-! ### Compilers -/

/-- How a compiler is asked to run. -/
structure Invocation where
  program : String
  args : List String
  workingDir : Path
deriving DecidableEq, Repr

/-- How a run of a compiler ended. -/
inductive Completion
  | notStarted (fault : IoFault)
  /-- It was not done within its time. -/
  | timedOut
  | exited (status : ExitStatus) (output errors : String)
deriving DecidableEq, Repr

/-- A compiler: what an invocation does to the world within a number of milliseconds. -/
abbrev Compiler := Invocation → Nat → World → Completion × World

end ModPackager
