import ModPackager.Glob.Expand
import ModPackager.Proofs.FileSystem.Contents

/-!
# What an expansion looks at

An expansion asks a file system what a path leads to, whether it is a directory, and which names it holds.
Searches that see the same in this sense find the same (`Sees.expand_eq`), by induction on the steps. Contents of
files are not among it, so changing them does not change what fits a pattern (`paths_rewrite`).
-/

namespace ModPackager.Glob

namespace Search

/-- Two searches get the same answers. -/
structure Sees (a b : Search) : Prop where
  onlyDirectories : a.onlyDirectories = b.onlyDirectories
  holdsDirectory : ∀ path, a.fs.holdsDirectory path = b.fs.holdsDirectory path
  holds : ∀ path, a.holds path = b.holds path
  children : ∀ path, a.children path = b.children path

namespace Sees

variable {a b : Search}

theorem result_eq (h : Sees a b) (path : Path) : a.result path = b.result path := by
  unfold result
  rw [h.onlyDirectories, h.holdsDirectory]

/-- Searches that get the same answers find the same, one step after another. -/
theorem step_eq (h : Sees a b) (fuel : Nat) :
    a.expand fuel = b.expand fuel ∧ a.arrive fuel = b.arrive fuel ∧ a.visit fuel = b.visit fuel := by
  induction fuel with
  | zero =>
      refine ⟨rfl, ?_, rfl⟩
      funext patterns path
      cases patterns with
      | nil => simp only [arrive, h.result_eq]
      | cons => simp only [arrive]
  | succ fuel ih =>
      obtain ⟨hexpand, harrive, hvisit⟩ := ih
      refine ⟨?_, ?_, ?_⟩ <;> funext patterns path
      · cases patterns with
        | nil => simp only [expand]
        | cons pattern rest => simp only [expand, harrive, hvisit, h.holds, h.holdsDirectory, h.children]
      · cases patterns with
        | nil => simp only [arrive, h.result_eq]
        | cons pattern rest => simp only [arrive, hexpand]
      · simp only [visit, hexpand, harrive, h.holdsDirectory]

theorem expand_eq (h : Sees a b) (fuel : Nat) (patterns : List Pattern) (path : Path) :
    a.expand fuel patterns path = b.expand fuel patterns path := by
  rw [(h.step_eq fuel).1]

end Sees

/-- A search does not look into files. -/
theorem sees_rewrite (fs : FileSystem) (change : Location → ByteArray → ByteArray) (onlyDirectories : Bool) :
    Sees ⟨fs.rewrite change, onlyDirectories⟩ ⟨fs, onlyDirectories⟩ where
  onlyDirectories := rfl
  holdsDirectory := FileSystem.holdsDirectory_rewrite
  holds path := by
    unfold holds
    rw [FileSystem.holds_rewrite, FileSystem.resolve_rewrite]
    rcases fs.resolve false path with _ | ⟨_ | _⟩ <;> rfl
  children path := by
    unfold children
    rw [FileSystem.lookup?_rewrite]
    rcases fs.lookup? path with _ | ⟨location, _ | _ | _⟩
    · rfl
    · rfl
    · simp only [Option.map_some, Entry.rewrite, FileSystem.names_rewrite]
    · rfl

end Search

/-- The paths that fit a pattern do not depend on what files hold. -/
theorem paths_rewrite (fs : FileSystem) (change : Location → ByteArray → ByteArray) (pattern : List Char) :
    paths (fs.rewrite change) pattern = paths fs pattern := by
  unfold paths
  simp only [(Search.sees_rewrite fs change _).expand_eq]

end ModPackager.Glob
