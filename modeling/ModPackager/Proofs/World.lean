import ModPackager.Proofs.FileSystem.Changes
import ModPackager.World

/-!
# Confined processes

A process is confined if it changes files at allowed locations only, from when it starts or wakes up until
it ends or sleeps, whenever it finds files in a state that can be reached. Other processes run in between,
so nothing is said on what it finds.

An invariant of reachable states that confined changes keep is therefore kept by a schedule of confined
processes: however long is waited, and in whatever order the tasks wake up (`Schedule.Confined.advance`,
`World.Confined.wait`). A confined compiler keeps it by definition, and so do the processes that it leaves
behind.

Where nothing is pending, waiting is just that (`World.wait_idle`).
-/

namespace ModPackager

open FileSystem

section Confined

variable (reach : FileSystem → Prop) (allowed : Location → Prop)

/-- A process changes allowed locations only, when it starts from some files and whenever it goes on. -/
def Process.Confined : Process → FileSystem → Prop
  | .ended _ machine, start => Changes allowed start machine.files
  | .asleep _ machine wake, start =>
    Changes allowed start machine.files
      ∧ ∀ found : Machine, reach found.files → (wake found).Confined found.files
  | .forked _ machine child parent, start =>
    Changes allowed start machine.files
      ∧ (∀ found : Machine, reach found.files → (child found).Confined found.files)
      ∧ ∀ found : Machine, reach found.files → (parent found).Confined found.files

/-- A sleeping process is confined when it wakes up. -/
def Task.Confined (task : Task) : Prop :=
  ∀ found : Machine, reach found.files → (task.wake found).Confined reach allowed found.files

/-- The files satisfy an invariant, and every sleeping process is confined. -/
structure Schedule.Confined (inv : FileSystem → Prop) (schedule : Schedule) : Prop where
  files : inv schedule.machine.files
  tasks : ∀ task ∈ schedule.tasks, task.Confined reach allowed

/-- The files satisfy an invariant, and every pending process is confined. -/
structure World.Confined (inv : FileSystem → Prop) (world : World) : Prop where
  files : inv world.files
  pending : ∀ task ∈ world.pending, task.Confined reach allowed

/-- An invocation changes allowed locations only, and leaves confined processes behind. -/
def Compiler.Confined (compiler : Compiler) : Prop :=
  ∀ invocation limit world, world.Confined reach allowed reach →
    Changes allowed world.files (compiler invocation limit world).2.files
      ∧ ∀ task ∈ (compiler invocation limit world).2.pending, task.Confined reach allowed

end Confined

variable {reach inv : FileSystem → Prop} {allowed : Location → Prop} {schedule : Schedule} {world : World}

theorem Schedule.mem_of_mem_dropDue {due : Nat} {tasks : List Task} {task : Task}
    (h : task ∈ dropDue due tasks) : task ∈ tasks := by
  induction tasks with
  | nil => cases h
  | cons first rest ih =>
      unfold dropDue at h
      split at h
      · exact List.mem_cons_of_mem _ h
      · rcases List.mem_cons.1 h with rfl | h
        · exact List.mem_cons_self
        · exact List.mem_cons_of_mem _ (ih h)

/-- The task that comes first is one of those that are compared. -/
theorem Schedule.mem_of_foldl {tasks : List Task} {best : Option Task} {task : Task}
    (h : tasks.foldl (fun (best : Option Task) task =>
      match best with
      | none => some task
      | some other => if task.due < other.due then some task else some other) best = some task) :
    best = some task ∨ task ∈ tasks := by
  induction tasks generalizing best with
  | nil => exact .inl h
  | cons first rest ih =>
      rcases ih h with hnext | hrest
      · cases best with
        | none => exact .inr (by simp_all)
        | some other =>
            simp only at hnext
            split at hnext
            · exact .inr (by simp_all)
            · exact .inl hnext
      · exact .inr (List.mem_cons_of_mem _ hrest)

theorem Schedule.mem_of_next? {time : Nat} {task : Task} (h : schedule.next? time = some task) :
    task ∈ schedule.tasks := by
  simp only [next?, Option.filter_eq_some_iff] at h
  exact (mem_of_foldl h.1).resolve_left nofun

theorem World.Confined.weaken (h : world.Confined reach allowed inv)
    (hreach : ∀ {fs}, inv fs → reach fs) : world.Confined reach allowed reach :=
  ⟨hreach h.files, h.pending⟩

theorem World.Confined.note (h : world.Confined reach allowed inv) (source : String) (level : Log.Level)
    (message : String) (fields : List (String × String)) :
    (world.note source level message fields).Confined reach allowed inv := ⟨h.files, h.pending⟩

theorem World.onFiles_eq {α : Type} (action : StateM FileSystem α) (world : World) :
    world.onFiles action = ((action world.files).1, { world with files := (action world.files).2 }) := rfl

theorem World.Confined.onFiles {α : Type} (h : world.Confined reach allowed inv)
    {action : StateM FileSystem α} (hfiles : inv (action world.files).2) :
    (world.onFiles action).2.Confined reach allowed inv := ⟨hfiles, h.pending⟩

section Runs

variable (hreach : ∀ {fs}, inv fs → reach fs)
  (hclosed : ∀ {fs fs'}, inv fs → Changes allowed fs fs' → inv fs')

include hreach hclosed

/-- Letting a confined process go on. -/
theorem Process.Confined.settle {process : Process} {start : FileSystem} {tasks : List Task}
    (h : process.Confined reach allowed start) (hstart : inv start)
    (htasks : ∀ task ∈ tasks, task.Confined reach allowed) (role : Role) :
    (process.settle role tasks).Confined reach allowed inv := by
  induction process generalizing start tasks role with
  | ended status machine => exact ⟨hclosed hstart h, htasks⟩
  | asleep milliseconds machine wake _ =>
      obtain ⟨hchanges, hwake⟩ := h
      refine ⟨hclosed hstart hchanges, fun task htask => ?_⟩
      rcases List.mem_append.1 htask with htask | htask
      · exact htasks task htask
      · rw [List.mem_singleton.1 htask]
        exact hwake
  | forked attached machine child parent ihChild ihParent =>
      obtain ⟨hchanges, hchild, hparent⟩ := h
      have hmachine := hclosed hstart hchanges
      have hstarted := ihChild machine (hchild machine (hreach hmachine)) hmachine htasks
        (if attached then .attached else .detached)
      exact ihParent _ (hparent _ (hreach hstarted.files)) hstarted.files hstarted.tasks role

namespace Schedule.Confined

theorem wake (h : schedule.Confined reach allowed inv) {task : Task}
    (htask : task.Confined reach allowed) : (schedule.wake task).Confined reach allowed inv := by
  have htime : inv { schedule.machine.files with now := max schedule.machine.files.now task.due } :=
    hclosed h.files ((Changes.refl _).later _)
  have hrest : ∀ other ∈ dropDue task.due schedule.tasks, other.Confined reach allowed :=
    fun other hother => h.tasks other (mem_of_mem_dropDue hother)
  have hprocess := htask ⟨_, schedule.machine.output, schedule.machine.errors⟩ (hreach htime)
  have hsettled := hprocess.settle hreach hclosed htime hrest task.role
  exact ⟨hsettled.files, hsettled.tasks⟩

/-- However many tasks wake up. -/
theorem advance (h : schedule.Confined reach allowed inv) (enough : Schedule → Bool) (time fuel : Nat) :
    (schedule.advance enough time fuel).Confined reach allowed inv := by
  induction fuel generalizing schedule with
  | zero => exact h
  | succ fuel ih =>
      unfold Schedule.advance
      split
      · exact h
      · split
        · exact h
        next task htask => exact ih (h.wake hreach hclosed (h.tasks task (mem_of_next? htask)))

end Schedule.Confined

theorem World.Confined.wait (h : world.Confined reach allowed inv) (milliseconds : Nat) :
    (world.wait milliseconds).Confined reach allowed inv := by
  have hstart : (Schedule.mk ⟨world.files, ByteArray.empty, ByteArray.empty⟩ world.pending none).Confined
      reach allowed inv := ⟨h.files, h.pending⟩
  have hlater := hstart.advance hreach hclosed (fun _ => false) (world.now + milliseconds) Schedule.wakeLimit
  exact ⟨hclosed hlater.files ((Changes.refl _).later _), hlater.tasks⟩

end Runs

/-! ### Without processes -/

theorem Schedule.advance_idle {schedule : Schedule} (h : schedule.tasks = []) (enough : Schedule → Bool)
    (time fuel : Nat) : schedule.advance enough time fuel = schedule := by
  cases fuel with
  | zero => rfl
  | succ fuel => simp [advance, next?, h]

/-- Where nothing is pending, no more than time passes. -/
theorem World.wait_idle {world : World} (h : world.pending = []) (milliseconds : Nat) :
    world.wait milliseconds = { world with files := { world.files with now := world.now + milliseconds } } := by
  unfold wait
  simp only
  rw [Schedule.advance_idle h]

end ModPackager
