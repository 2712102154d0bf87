import ModPackager.Proofs.Patch.Descriptor
import ModPackager.Proofs.TypeScript.Module
import ModPackager.Scan.Source

/-!
# What the descriptors of a source file have in common

Every descriptor stands for a block with a patch type, and carries the line of the item that the block documents
(`mem_itemDescriptors`). The items of a file come in order, so the lines of its descriptors never decrease, also
where an item has several blocks (`source_sorted`).
-/

namespace ModPackager

open TypeScript

namespace Scan

variable {path : Path} {module : Module} {item : Item} {text : String} {descriptor : PatchDescriptor}
  {descriptors : List PatchDescriptor}

/-- A descriptor of an item has a type and the line of the item. -/
theorem mem_itemDescriptors (h : descriptor ∈ itemDescriptors path module item) :
    descriptor.type ≠ "" ∧ descriptor.line = module.lineAt item.start := by
  unfold itemDescriptors at h
  split at h
  · cases h
  · split at h
    · cases h
    · obtain ⟨comment, -, hcomment⟩ := List.mem_filterMap.1 h
      obtain ⟨found, hfound, rfl⟩ := Option.map_eq_some_iff.1 hcomment
      have htype : found.type ≠ "" := (PatchDescriptor.ofTags?_eq_some hfound).2
      exact ⟨htype, rfl⟩

theorem type_ne_of_mem_moduleDescriptors (h : descriptor ∈ moduleDescriptors path module) : descriptor.type ≠ "" := by
  obtain ⟨item, -, hitem⟩ := List.mem_flatMap.1 h
  exact (mem_itemDescriptors hitem).1

/-- Items in order give lines in order. -/
theorem moduleDescriptors_sorted (h : module.items.Pairwise fun a b => a.start ≤ b.start) :
    (moduleDescriptors path module).Pairwise fun a b => a.line ≤ b.line := by
  refine List.pairwise_flatMap.2 ⟨fun item _ => ?_, h.imp fun hitems a ha b hb => ?_⟩
  · refine List.pairwise_of_forall_mem_list fun a ha b hb => Nat.le_of_eq ?_
    rw [(mem_itemDescriptors ha).2, (mem_itemDescriptors hb).2]
  · rw [(mem_itemDescriptors ha).2, (mem_itemDescriptors hb).2]
    exact module.lineAt_mono hitems

theorem source_inv (h : source path text = .ok descriptors) :
    ∃ module, parseSource path text = .ok module ∧ descriptors = moduleDescriptors path module := by
  unfold source at h
  rcases hparse : parseSource path text with _ | module
  · rw [hparse] at h
    cases h
  · rw [hparse] at h
    cases h
    exact ⟨module, rfl, rfl⟩

/-- The descriptors of a source file have types, and their lines never decrease. -/
theorem source_sorted (h : source path text = .ok descriptors) :
    (∀ descriptor ∈ descriptors, descriptor.type ≠ "")
      ∧ descriptors.Pairwise fun a b => a.line ≤ b.line := by
  obtain ⟨module, hparse, rfl⟩ := source_inv h
  exact ⟨fun _ => type_ne_of_mem_moduleDescriptors, moduleDescriptors_sorted (Module.parse_sorted hparse)⟩

end Scan

end ModPackager
