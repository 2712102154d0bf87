import ModPackager.FileSystem.Action
import ModPackager.Process

/-!
# Running in a shell

A script runs in a shell, which has a working directory, variables and descriptors of its own, on a
machine that it shares with other processes. It may end the shell at any point, and it may sleep.
-/

namespace ModPackager.Shell

/-- Where printed bytes go. -/
inductive Sink
  /-- The output of the run. -/
  | output
  /-- The error output of the run. -/
  | errors
  | nowhere
  /-- To the shell, which hands them on. -/
  | kept
  | file (location : Location)
deriving DecidableEq, Repr

/-- The state of a shell. -/
structure State where
  workingDir : Path
  bindings : List (String × String) := []
  /-- The variables that programs see. -/
  exported : List String := []
  /-- The name of the script and what follows it. -/
  arguments : List String := []
  /-- How the last command ended. -/
  status : Nat := 0
  input : List UInt8 := []
  output : Sink := .output
  errors : Sink := .errors
  /-- What has been printed to the shell. -/
  kept : ByteArray := ByteArray.empty
  /-- Whether a failure ends the shell. -/
  strict : Bool := false
  /-- Whether a parameter without a value ends the shell. -/
  needsValues : Bool := false

/-- What a script goes on with: its value, or how it ends the shell. -/
abbrev Next (α : Type) := Except ExitStatus α → State → Machine → Process

/-- A script with a value. -/
def Script (α : Type) : Type := State → Machine → Next α → Process

namespace Script

instance : Monad Script where
  pure value := fun state machine next => next (.ok value) state machine
  bind first rest := fun state machine next =>
    first state machine fun
      | .ok value, state, machine => rest value state machine next
      | .error status, state, machine => next (.error status) state machine

instance {α : Type} : Inhabited (Script α) where
  default := fun state machine next => next (.error (.code 0)) state machine

/-! ### State -/

/-- The state of the shell. -/
def state : Script State := fun state machine next => next (.ok state) state machine

/-- Changes the state of the shell. -/
def change (f : State → State) : Script Unit := fun state machine next =>
  next (.ok ()) (f state) machine

/-- Ends the shell. -/
def exit {α : Type} (status : ExitStatus) : Script α := fun state machine next =>
  next (.error status) state machine

/-- Sleeps. -/
def sleep (milliseconds : Nat) : Script Unit := fun state machine next =>
  .asleep milliseconds machine fun machine => next (.ok ()) state machine

/-! ### Files -/

/-- The files as seen from the working directory of the shell. -/
def seenFrom (state : State) (files : FileSystem) : FileSystem :=
  { files with workingDir := state.workingDir }

/-- The files. -/
def files : Script FileSystem := fun state machine next =>
  next (.ok (seenFrom state machine.files)) state machine

/-- Tries a file operation. -/
def attempt {α : Type} (action : FileAction α) : Script (Except IoFault α) :=
  fun state machine next =>
    let (result, files) : Except IoFault α × FileSystem :=
      match action (seenFrom state machine.files) with
      | .ok value files => (.ok value, files)
      | .error fault files => (.error fault, files)
    next (.ok result) state
      { machine with files := { files with workingDir := machine.files.workingDir } }

/-! ### Printing -/

/-- The bytes of a file at a location, if there is one. -/
def contentsAt (files : FileSystem) (location : Location) : ByteArray :=
  match files.entry? location with
  | some (.file contents) => contents
  | _ => ByteArray.empty

/-- Adds bytes at the end of a file. -/
def appendTo (files : FileSystem) (location : Location) (bytes : ByteArray) : FileSystem :=
  files.put location (.file (contentsAt files location ++ bytes))

/-- Prints bytes. -/
def printTo (sink : Sink) (bytes : ByteArray) : Script Unit := fun state machine next =>
  match sink with
  | .output => next (.ok ()) state { machine with output := machine.output ++ bytes }
  | .errors => next (.ok ()) state { machine with errors := machine.errors ++ bytes }
  | .nowhere => next (.ok ()) state machine
  | .kept => next (.ok ()) { state with kept := state.kept ++ bytes } machine
  | .file location =>
    next (.ok ()) state { machine with files := appendTo machine.files location bytes }

/-- Prints bytes as output. -/
def print (bytes : ByteArray) : Script Unit := do printTo (← state).output bytes

/-- Prints text as output. -/
def printText (text : String) : Script Unit := print text.toUTF8

/-- Prints a line of error output in the name of a program. -/
def complain (program text : String) : Script Unit := do
  printTo (← state).errors (program ++ ": " ++ text ++ "\n").toUTF8

/-! ### Shells in the shell -/

/-- Runs a script in a shell of its own, which starts out like this one, and gives the status. Only
what it keeps for this shell comes back from it. -/
def inSubshell (start : State → State) (script : Script Unit) : Script Nat :=
  fun outer machine next =>
    script (start outer) machine fun result inner machine =>
      let status :=
        match result with
        | .ok () => inner.status
        | .error (.code status) => status
        | .error (.signal number) => 128 + number
      next (.ok status) { outer with kept := inner.kept } machine

/-- What a script prints when run in a shell of its own, and its status. -/
def capture (start : State → State) (script : Script Unit) : Script (ByteArray × Nat) := do
  let before := (← state).kept
  let fresh (state : State) : State :=
    { start state with output := .kept, kept := ByteArray.empty }
  let status ← inSubshell fresh script
  let printed := (← state).kept
  change fun state => { state with kept := before }
  return (printed, status)

/-- Whether a shell holds the output of the run open. -/
def isAttached (state : State) : Bool :=
  [state.output, state.errors].any fun sink => sink == .output || sink == .errors

/-- How a process ends with a shell. -/
def finish : Next Unit := fun result state machine =>
  .ended (match result with
    | .ok () => .code state.status
    | .error status => status) machine

/-- Starts a script next to this one. The descriptors are first set up by `start`. -/
def spawn (start : Script Unit) (script : Script Unit) : Script Unit := fun state machine next =>
  start state machine fun _ inner machine =>
    .forked (isAttached inner) machine
      (fun machine => script inner machine finish)
      (fun machine => next (.ok ()) state machine)

end Script

/-- The process of a script in a shell. -/
def Script.start (script : Script Unit) (state : State) (machine : Machine) : Process :=
  script state machine finish

end ModPackager.Shell
