import ModPackager.Error
import ModPackager.FileSystem.Tree

/-!
# Processes

A process acts on the files until it ends or sleeps; when it wakes up it goes on with the files as they
are then. It may start another process and does not wait for it. Of several sleeping processes the one
that is due first goes on first.
-/

namespace ModPackager

/-- What processes share: the files, and what has been printed so far. -/
structure Machine where
  files : FileSystem
  output : ByteArray := ByteArray.empty
  errors : ByteArray := ByteArray.empty

/-- A process in progress, with what it leaves to the others. -/
inductive Process
  | ended (status : ExitStatus) (machine : Machine)
  | asleep (milliseconds : Nat) (machine : Machine) (wake : Machine → Process)
  /-- It has started another one, which holds the printed output open or does not. -/
  | forked (attached : Bool) (machine : Machine) (child parent : Machine → Process)

/-- What a process is to the one who waits. -/
inductive Role
  /-- The process that was asked for. -/
  | main
  /-- A process that the output is still open for. -/
  | attached
  /-- A process that nobody waits for. -/
  | detached
deriving DecidableEq, Repr

/-- A process that sleeps. -/
structure Task where
  /-- When it wakes up. -/
  due : Nat
  role : Role
  wake : Machine → Process

/-- Sleeping processes and what they share. -/
structure Schedule where
  machine : Machine
  tasks : List Task
  /-- How the process that was asked for ended, if it did. -/
  status : Option ExitStatus := none

/-- Lets a process go on until it ends or sleeps. A sleep takes some time, however short. -/
def Process.settle (role : Role) (tasks : List Task) : Process → Schedule
  | .ended status machine => ⟨machine, tasks, if role = .main then some status else none⟩
  | .asleep milliseconds machine wake =>
    ⟨machine, tasks ++ [⟨machine.files.now + max milliseconds 1, role, wake⟩], none⟩
  | .forked attached machine child parent =>
    let started := (child machine).settle (if attached then .attached else .detached) tasks
    (parent started.machine).settle role started.tasks

namespace Schedule

/-- The task that is due first, if it is due by a time. -/
def next? (schedule : Schedule) (time : Nat) : Option Task :=
  let first := schedule.tasks.foldl (fun (best : Option Task) task =>
    match best with
    | none => some task
    | some other => if task.due < other.due then some task else some other) none
  first.filter (·.due ≤ time)

/-- Drops the first task that is due at a time. -/
def dropDue (due : Nat) : List Task → List Task
  | [] => []
  | task :: rest => if task.due = due then rest else task :: dropDue due rest

/-- Wakes a task up. -/
def wake (schedule : Schedule) (task : Task) : Schedule :=
  let files := { schedule.machine.files with now := max schedule.machine.files.now task.due }
  let woken :=
    (task.wake { schedule.machine with files }).settle task.role (dropDue task.due schedule.tasks)
  { woken with status := schedule.status <|> woken.status }

/-- Wakes tasks up in the order of time until a time, or until it is enough, at most `fuel` of them. -/
def advance (enough : Schedule → Bool) (time : Nat) : Nat → Schedule → Schedule
  | 0, schedule => schedule
  | fuel + 1, schedule =>
    if enough schedule then schedule
    else
      match schedule.next? time with
      | none => schedule
      | some task => advance enough time fuel (schedule.wake task)

/-- How often processes may wake up in one go. -/
def wakeLimit : Nat := 20000

/-- Whether the process that was asked for has ended and no other one holds the output open. -/
def isComplete (schedule : Schedule) : Bool :=
  schedule.status.isSome && schedule.tasks.all (·.role == .detached)

end Schedule

end ModPackager
