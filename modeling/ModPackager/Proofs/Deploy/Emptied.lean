import ModPackager.Proofs.Deploy.Clear

/-!
# What clearing comes to

Clearing is skipped just where the root leads to nothing. Otherwise it changes nothing but what lies below the directory
that the root leads to, and if it succeeds, nothing is left there (`clearDirectory_keeps_root`).

The root itself is kept unless its way runs below that directory: a root that is a link in the directory it leads to is
one of the entries that are removed (`clearDirectory_removes_root`).
-/

namespace ModPackager.Deploy

open FileSystem FileAction

variable {fs fs' : FileSystem} {root : Path} {dir location place : Location} {entry : Entry}

/-! ### The root -/

/-- What a path still leads to after pruning it has led to before, past nothing that is gone. -/
theorem Pruned.exists_of_mem_way (h : Pruned dir fs fs')
    (hresolve : fs'.resolve true root = .ok (.found location entry)) (hplace : place ∈ fs.way root) :
    ∃ found, fs'.entry? place = some found := by
  have hthere : ∀ place ∈ fs'.way root, ∃ found, fs'.entry? place = some found := fun place hplace =>
    (resolve_eq_ok_iff.1 hresolve).2.exists_of_mem_trail hplace
  have hway : fs.way root = fs'.way root := by
    refine way_congr h.workingDir.symm fun place hplace => ?_
    obtain ⟨found, hfound⟩ := hthere place hplace
    rw [hfound, h.entry? hfound]
  exact hthere place (hway ▸ hplace)

/-- Where everything below a directory is gone, a path that led to something still does just if its way did not run
below the directory; it then leads to the same. -/
theorem Pruned.holds_iff (h : Pruned dir fs fs') (hempty : ∀ place, Beneath dir place → fs'.node? place = none)
    (hresolve : fs.resolve true root = .ok (.found location entry)) :
    (fs'.holds root = true ↔ ∀ place ∈ fs.way root, ¬ Beneath dir place)
      ∧ (fs'.holds root = true → ∀ follow, fs'.resolve follow root = fs.resolve follow root) := by
  have hkept : (∀ place ∈ fs.way root, ¬ Beneath dir place) → ∀ follow,
      fs'.resolve follow root = fs.resolve follow root := fun hway follow => by
    refine resolve_congr h.workingDir fun place hplace => ?_
    by_cases hroot : place = []
    · rw [hroot, entry?_root, entry?_root]
    · rw [entry?_of_ne hroot, entry?_of_ne hroot, (h.nodes place).resolve_right fun hgone => hway place hplace hgone.2]
  have hway : fs'.holds root = true → ∀ place ∈ fs.way root, ¬ Beneath dir place := by
    intro hholds place hplace hbeneath
    obtain ⟨⟨location', entry'⟩, hfound⟩ := Option.isSome_iff_exists.1 hholds
    obtain ⟨found, hthere⟩ := h.exists_of_mem_way (lookup?_eq_some_iff.1 hfound) hplace
    obtain ⟨below, hbelow, rfl⟩ := beneath_iff.1 hbeneath
    rw [entry?_of_ne (by simp [hbelow]), hempty _ hbeneath] at hthere
    cases hthere
  refine ⟨⟨hway, fun havoids => ?_⟩, fun hholds => hkept (hway hholds)⟩
  rw [holds, lookup?_eq_some_iff.2 ((hkept havoids true).trans hresolve)]
  rfl

/-! ### Clearing -/

/-- Clearing that succeeds leaves nothing below the place that the root leads to. -/
theorem clearDirectory_beneath (wf : fs.WellFormed) (hresolve : fs.resolve true root = .ok (.found dir entry))
    (hsuccess : (clearDirectory root fs).1 = .success) (hbeneath : Beneath dir place) :
    (clearDirectory root fs).2.node? place = none := by
  have hpruned := clearDirectory_pruned wf (canonical?_eq_some_iff.2 ⟨entry, hresolve⟩)
  generalize hafter : (clearDirectory root fs).2 = after at hpruned
  obtain ⟨below, hbelow, rfl⟩ := beneath_iff.1 hbeneath
  suffices hnone : after.entry? (dir ++ below) = none by
    rw [entry?_of_ne (by simp [hbelow])] at hnone
    exact Option.map_eq_none_iff.1 hnone
  cases entry with
  | directory =>
      have hholds : fs.holds root = true := by simp [holds, lookup?_eq_some_iff.2 hresolve]
      rw [clearDirectory, if_pos hholds] at hsuccess hafter
      have hrun : clearEntries root fs = .ok () (toStep (lift (clearEntries root)) fs).2 :=
        toStep_inv (by simp [hsuccess])
      rw [hafter] at hrun
      -- Nothing lies below a first name that is gone.
      obtain ⟨name, rest, rfl⟩ := List.exists_cons_of_ne_nil hbelow
      refine hpruned.wellFormed.entry?_eq_none_of_prefix ?_ (clearEntries_empties wf hresolve hrun name)
      exact (List.prefix_append_right_inj dir).2 (List.prefix_append [name] rest)
  | file | link =>
      -- Nothing lies below what is no directory.
      by_contra hsome
      obtain ⟨found, hfound⟩ := Option.ne_none_iff_exists'.1 hsome
      have hdir := wf.isDirectory_of_append hbelow (hpruned.entry? hfound)
      rw [entry?_of_found hresolve] at hdir
      cases hdir

/-- Clearing is skipped, with everything left as it is, just where the root leads to nothing. Otherwise it changes only
what lies below the place that the root leads to. If it succeeds, nothing is left there, and the root leads to the same
as before if its way did not run below that place; if it did, the root leads to nothing. -/
theorem clearDirectory_keeps_root (wf : fs.WellFormed) (root : Path) :
    ((∃ reason, (clearDirectory root fs).1 = .skipped reason) ↔ fs.holds root = false)
    ∧ (fs.holds root = false → (clearDirectory root fs).2 = fs)
    ∧ ∀ dir entry, fs.resolve true root = .ok (.found dir entry) →
      (∀ place, ¬ Beneath dir place → (clearDirectory root fs).2.node? place = fs.node? place)
      ∧ ((clearDirectory root fs).1 = .success →
        (∀ place, Beneath dir place → (clearDirectory root fs).2.node? place = none)
        ∧ ((clearDirectory root fs).2.holds root = true ↔ ∀ place ∈ fs.way root, ¬ Beneath dir place)
        ∧ ((clearDirectory root fs).2.holds root = true → ∀ follow,
          (clearDirectory root fs).2.resolve follow root = fs.resolve follow root)) := by
  refine ⟨?_, fun hmissing => by simp [clearDirectory, hmissing], fun dir entry hresolve => ?_⟩
  · rcases hholds : fs.holds root with _ | _
    · simp [clearDirectory, hholds]
    · simp only [clearDirectory, hholds, if_true, toStep, Bool.true_eq_false, iff_false]
      split <;> simp
  · have hpruned := clearDirectory_pruned wf (canonical?_eq_some_iff.2 ⟨entry, hresolve⟩)
    refine ⟨fun place hplace => (hpruned.nodes place).resolve_right fun hgone => hplace hgone.2, fun hsuccess => ?_⟩
    have hempty : ∀ place, Beneath dir place → (clearDirectory root fs).2.node? place = none := fun _ =>
      clearDirectory_beneath wf hresolve hsuccess
    exact ⟨hempty, hpruned.holds_iff hempty hresolve⟩

/-- Through a link in place of a deploy root, the directory behind it is emptied; the link and what the links inside
lead to stay. -/
theorem clearDirectory_keeps_root_linkedRoot :
    linkedRoot.WellFormed
    ∧ (clearDirectory ⟨"deploy"⟩ linkedRoot).1 = .success
    ∧ (∀ place, Beneath ["w", "out"] place → (clearDirectory ⟨"deploy"⟩ linkedRoot).2.node? place = none)
    ∧ (clearDirectory ⟨"deploy"⟩ linkedRoot).2.resolve false ⟨"deploy"⟩ = linkedRoot.resolve false ⟨"deploy"⟩
    ∧ (clearDirectory ⟨"deploy"⟩ linkedRoot).2.node? ["w", "build", "main.lua"]
      = linkedRoot.node? ["w", "build", "main.lua"] := by
  have wf : linkedRoot.WellFormed := by decide +kernel
  have hlookup : linkedRoot.lookup? ⟨"deploy"⟩ = some (["w", "out"], .directory) := by decide +kernel
  have hsuccess : (clearDirectory ⟨"deploy"⟩ linkedRoot).1 = .success := by decide +kernel
  have hholds : (clearDirectory ⟨"deploy"⟩ linkedRoot).2.holds ⟨"deploy"⟩ = true := by decide +kernel
  obtain ⟨hkept, hcleared⟩ :=
    (clearDirectory_keeps_root wf ⟨"deploy"⟩).2.2 ["w", "out"] .directory (lookup?_eq_some_iff.1 hlookup)
  obtain ⟨hempty, -, hsame⟩ := hcleared hsuccess
  exact ⟨wf, hsuccess, hempty, hsame hholds false, hkept _ fun hbeneath => absurd hbeneath.1 (by decide)⟩

/-- A directory with a link to itself in it. -/
def selfLinked : FileSystem :=
  ofEntries ⟨"/w"⟩ [(["w"], .directory), (["w", "d"], .directory), (["w", "d", "link"], .link ".")]

/-- Cleared through the link, the directory is empty, and the root is gone. -/
theorem clearDirectory_removes_root :
    selfLinked.WellFormed
    ∧ selfLinked.holdsDirectory ⟨"d/link"⟩ = true
    ∧ selfLinked.entry? ["w", "d", "link"] = some (.link ".")
    ∧ (clearDirectory ⟨"d/link"⟩ selfLinked).1 = .success
    ∧ FileSystem.entry? (clearDirectory ⟨"d/link"⟩ selfLinked).2 ["w", "d", "link"] = none
    ∧ (clearDirectory ⟨"d/link"⟩ selfLinked).2.holds ⟨"d/link"⟩ = false := by
  decide +kernel

end ModPackager.Deploy
