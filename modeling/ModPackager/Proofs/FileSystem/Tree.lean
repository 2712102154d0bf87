import Mathlib.Data.List.Induction
import ModPackager.FileSystem.Resolve

/-!
# The tree of files

What the two changes of a file system do to what lies at a location (`entry?_put`, `entry?_erase`), and
the shape that every file system keeps: `WellFormed` says that each entry lies in a directory, under a
name that an entry can have, and that no location is listed twice. It is decidable, so that a file
system written down can be checked.

In a well-formed file system what exists has directories all the way up (`isDirectory_of_append`), and a
directory lists exactly the names of what lies in it (`mem_names`).
-/

namespace ModPackager.FileSystem

variable {fs : FileSystem} {location other : Location} {entry : Entry}

/-! ### Putting and erasing -/

/-- Looking up in a list that is not empty compares with the first key. -/
theorem lookup_cons_ite (place : Location) (node : FileNode) (rest : List (Location × FileNode)) :
    ((place, node) :: rest).lookup other = if other = place then some node else rest.lookup other := by
  by_cases h : other = place
  · simp [h]
  · simp [List.lookup_cons, beq_false_of_ne h, h]

theorem lookup_replace (nodes : List (Location × FileNode)) (node : FileNode) :
    (nodes.map fun old => if old.1 = location then (location, node) else old).lookup other
      = if other = location then (nodes.lookup location).map fun _ => node else nodes.lookup other := by
  induction nodes with
  | nil => simp
  | cons old rest ih =>
      obtain ⟨place, found⟩ := old
      by_cases hold : place = location
      · subst hold
        by_cases hother : other = place <;> simp_all [lookup_cons_ite]
      · by_cases hother : other = location
        · subst hother
          simp_all [lookup_cons_ite, Ne.symm hold]
        · by_cases hplace : other = place <;> simp_all [lookup_cons_ite]

/-- What lies where after an entry was put somewhere. -/
theorem node?_put (fs : FileSystem) (location other : Location) (entry : Entry) :
    (fs.put location entry).node? other
      = if other = location then some ⟨entry, fs.now⟩ else fs.node? other := by
  unfold put
  simp only
  split
  next hsome =>
      obtain ⟨node, hnode⟩ := Option.isSome_iff_exists.1 hsome
      simp only [node?] at hnode ⊢
      rw [lookup_replace, hnode, Option.map_some]
  next hnone =>
      have hlookup : fs.nodes.lookup location = none := Option.not_isSome_iff_eq_none.1 hnone
      simp only [node?, List.lookup_append, lookup_cons_ite, List.lookup_nil]
      by_cases hother : other = location
      · subst hother
        simp [hlookup]
      · simp [hother]

/-- What lies where after everything at or below a location was removed. -/
theorem node?_erase (fs : FileSystem) (location other : Location) :
    (fs.erase location).node? other = if location <+: other then none else fs.node? other := by
  simp only [node?, erase]
  induction fs.nodes with
  | nil => simp
  | cons old rest ih =>
      obtain ⟨place, node⟩ := old
      by_cases hpre : location <+: place
      · rw [List.filter_cons_of_neg (by simpa using hpre), ih, lookup_cons_ite]
        by_cases hplace : other = place <;> simp_all
      · have hfalse : location.isPrefixOf place = false := Bool.eq_false_iff.2 (by simpa using hpre)
        rw [List.filter_cons_of_pos (by simp [hfalse]), lookup_cons_ite, lookup_cons_ite, ih]
        by_cases hplace : other = place <;> simp_all

theorem entry?_of_ne (h : other ≠ []) : fs.entry? other = (fs.node? other).map (·.entry) := by
  simp [FileSystem.entry?, h]

@[simp] theorem entry?_root (fs : FileSystem) : fs.entry? [] = some .directory := rfl

theorem entry?_put (fs : FileSystem) (h : location ≠ []) (other : Location) (entry : Entry) :
    FileSystem.entry? (fs.put location entry) other = if other = location then some entry else fs.entry? other := by
  by_cases hroot : other = []
  · subst hroot
    simp [Ne.symm h]
  · rw [entry?_of_ne hroot, entry?_of_ne hroot, node?_put]
    split <;> rfl

theorem entry?_put_of_ne (h : location ≠ []) (hne : other ≠ location) :
    FileSystem.entry? (fs.put location entry) other = fs.entry? other := by
  rw [entry?_put fs h, if_neg hne]

@[simp] theorem entry?_put_self (h : location ≠ []) :
    FileSystem.entry? (fs.put location entry) location = some entry := by
  rw [entry?_put fs h, if_pos rfl]

theorem entry?_erase (fs : FileSystem) (location other : Location) :
    FileSystem.entry? (fs.erase location) other
      = if other ≠ [] ∧ location <+: other then none else fs.entry? other := by
  by_cases hroot : other = []
  · simp [hroot]
  · rw [entry?_of_ne hroot, entry?_of_ne hroot, node?_erase]
    split <;> simp_all

@[simp] theorem now_put : (fs.put location entry).now = fs.now := by
  unfold put
  split <;> rfl

@[simp] theorem workingDir_put : (fs.put location entry).workingDir = fs.workingDir := by
  unfold put
  simp only
  split <;> rfl

/-! ### Well-formed file systems -/

/-- Names that an entry can have. -/
def ValidName (name : String) : Prop :=
  name ≠ "" ∧ name ≠ "." ∧ name ≠ ".." ∧ '/' ∉ name.toList ∧ name.utf8ByteSize ≤ maxName

instance : DecidablePred ValidName := fun _ => inferInstanceAs (Decidable (_ ∧ _))

/-- Every entry is listed once, lies in a directory, and has a name that an entry can have. -/
structure WellFormed (fs : FileSystem) : Prop where
  nodup : (fs.nodes.map (·.1)).Nodup
  inDirectory : ∀ node ∈ fs.nodes, fs.entry? node.1.dropLast = some .directory
  validNames : ∀ node ∈ fs.nodes, node.1 ≠ [] ∧ ∀ name ∈ node.1, ValidName name

instance : DecidablePred WellFormed := fun fs =>
  decidable_of_iff
    ((fs.nodes.map (·.1)).Nodup
      ∧ (∀ node ∈ fs.nodes, fs.entry? node.1.dropLast = some .directory)
      ∧ ∀ node ∈ fs.nodes, node.1 ≠ [] ∧ ∀ name ∈ node.1, ValidName name)
    ⟨fun ⟨h₁, h₂, h₃⟩ => ⟨h₁, h₂, h₃⟩, fun h => ⟨h.nodup, h.inDirectory, h.validNames⟩⟩

/-- A file system that holds some entries, at the beginning of time. -/
def ofEntries (workingDir : Path) (entries : List (Location × Entry)) : FileSystem where
  nodes := entries.map fun (location, entry) => (location, ⟨entry, 0⟩)
  now := 0
  workingDir

theorem mem_nodes_of_node? {node : FileNode} (h : fs.node? location = some node) :
    (location, node) ∈ fs.nodes := by
  obtain ⟨before, after, hnodes, -⟩ := List.lookup_eq_some_iff.1 h
  rw [hnodes]
  simp

theorem exists_node?_of_mem {node : FileNode} (h : (location, node) ∈ fs.nodes) :
    ∃ found, fs.node? location = some found := by
  rw [← Option.isSome_iff_exists, node?, List.lookup_isSome_iff]
  exact ⟨_, h, by simp⟩

theorem exists_mem_nodes (h : fs.entry? location = some entry) (hroot : location ≠ []) :
    ∃ node, (location, node) ∈ fs.nodes := by
  rw [entry?_of_ne hroot] at h
  obtain ⟨node, hnode, -⟩ := Option.map_eq_some_iff.1 h
  exact ⟨node, mem_nodes_of_node? hnode⟩

/-- Without links among its entries, a file system has none. -/
theorem ofEntries_unlinked {dir : Path} {entries : List (Location × Entry)}
    (h : ∀ found ∈ entries.map (·.2), (match found with | .link _ => false | _ => true) = true) (place : Location)
    (text : String) : FileSystem.entry? (ofEntries dir entries) place ≠ some (.link text) := by
  intro hlink
  have hroot : place ≠ [] := by
    rintro rfl
    cases hlink
  rw [entry?_of_ne hroot] at hlink
  obtain ⟨node, hnode, hentry⟩ := Option.map_eq_some_iff.1 hlink
  obtain ⟨⟨_, found⟩, hmem, heq⟩ := List.mem_map.1 (mem_nodes_of_node? hnode)
  cases heq
  have hfound := h found (List.mem_map.2 ⟨_, hmem, rfl⟩)
  simp only at hentry
  rw [hentry] at hfound
  cases hfound

/-- A location is listed under a name if it goes on with that name only. -/
theorem listed_iff {place : Location} {kind kind' : Bool} {name : String} :
    (match place.getLast? with
      | some last => if place.dropLast = location then some (last, kind) else none
      | none => none) = some (name, kind') ↔ place = location ++ [name] ∧ kind = kind' := by
  rcases List.eq_nil_or_concat place with rfl | ⟨front, last, rfl⟩
  · simp
  · simp only [List.concat_eq_append, List.getLast?_concat, List.dropLast_concat]
    split <;> simp_all

/-- A directory lists exactly the names of what lies in it. -/
theorem mem_names {name : String} :
    name ∈ fs.names location ↔ (fs.entry? (location ++ [name])).isSome := by
  simp only [names, List.mem_map, List.mem_mergeSort, List.mem_filterMap]
  constructor
  · rintro ⟨⟨found, kind⟩, ⟨⟨place, node⟩, hmem, hplace⟩, rfl⟩
    obtain ⟨rfl, -⟩ := listed_iff.1 hplace
    obtain ⟨other, hother⟩ := exists_node?_of_mem hmem
    simp [entry?_of_ne, hother]
  · intro h
    obtain ⟨found, hfound⟩ := Option.isSome_iff_exists.1 h
    obtain ⟨node, hnode⟩ := exists_mem_nodes hfound (by simp)
    exact ⟨(name, _), ⟨(location ++ [name], node), hnode, listed_iff.2 ⟨rfl, rfl⟩⟩, rfl⟩

namespace WellFormed

theorem validName (wf : fs.WellFormed) {name : String}
    (h : fs.entry? (location ++ [name]) = some entry) : ValidName name := by
  obtain ⟨node, hnode⟩ := exists_mem_nodes h (by simp)
  exact (wf.validNames _ hnode).2 name (by simp)

/-- What exists lies in a directory. -/
theorem isDirectory_of_child (wf : fs.WellFormed) {name : String}
    (h : fs.entry? (location ++ [name]) = some entry) : fs.entry? location = some .directory := by
  obtain ⟨node, hnode⟩ := exists_mem_nodes h (by simp)
  simpa using wf.inDirectory _ hnode

/-- What exists has directories all the way up. -/
theorem isDirectory_of_append (wf : fs.WellFormed) {below : Location} (hbelow : below ≠ [])
    (h : fs.entry? (location ++ below) = some entry) : fs.entry? location = some .directory := by
  induction below using List.reverseRecOn generalizing entry with
  | nil => exact absurd rfl hbelow
  | append_singleton front name ih =>
      rw [← List.append_assoc] at h
      have hfront := wf.isDirectory_of_child h
      by_cases hnil : front = []
      · simpa [hnil] using hfront
      · exact ih hnil hfront

/-- Nothing lies below what is missing. -/
theorem entry?_eq_none_of_prefix (wf : fs.WellFormed) (hpre : location <+: other)
    (h : fs.entry? location = none) : fs.entry? other = none := by
  obtain ⟨below, rfl⟩ := hpre
  by_contra hsome
  obtain ⟨found, hfound⟩ := Option.ne_none_iff_exists'.1 hsome
  by_cases hbelow : below = []
  · simp_all
  · simp [wf.isDirectory_of_append hbelow hfound] at h

/-- No name is listed twice in a directory. -/
theorem nodup_names (wf : fs.WellFormed) (location : Location) : (fs.names location).Nodup := by
  have hplaces : fs.nodes.Pairwise fun a b => a.1 ≠ b.1 := List.pairwise_map.1 wf.nodup
  unfold names
  simp only
  rw [((List.mergeSort_perm _ _).map _).nodup_iff, List.Nodup, List.pairwise_map, List.pairwise_filterMap]
  refine hplaces.imp fun {a b} hne => ?_
  rintro ⟨name, kind⟩ hfirst ⟨other, kind'⟩ hsecond rfl
  exact hne ((listed_iff.1 hfirst).1.trans (listed_iff.1 hsecond).1.symm)

/-! ### Changes keep a file system well-formed -/

theorem mem_nodes_put {node : Location × FileNode} (h : node ∈ (fs.put location entry).nodes) :
    node.1 = location ∨ node ∈ fs.nodes := by
  unfold FileSystem.put at h
  simp only at h
  split at h
  · simp only [List.mem_map] at h
    obtain ⟨old, hold, rfl⟩ := h
    split <;> simp_all
  · simp only [List.mem_append, List.mem_singleton] at h
    rcases h with h | rfl
    · exact .inr h
    · exact .inl rfl

theorem nodup_put (h : (fs.nodes.map (·.1)).Nodup) :
    ((fs.put location entry).nodes.map (·.1)).Nodup := by
  unfold FileSystem.put
  simp only
  split
  next =>
      have hkeys : ∀ node : FileNode, ((fs.nodes.map fun old =>
          if old.1 = location then (location, node) else old).map (·.1)) = fs.nodes.map (·.1) := by
        intro node
        rw [List.map_map]
        refine List.map_congr_left fun old _ => ?_
        simp only [Function.comp_apply]
        split <;> simp_all
      rwa [hkeys]
  next hnone =>
      have hnew : location ∉ fs.nodes.map (·.1) := by
        intro hmem
        obtain ⟨⟨place, node⟩, hnode, rfl⟩ := List.mem_map.1 hmem
        obtain ⟨found, hfound⟩ := exists_node?_of_mem hnode
        simp [hfound] at hnone
      rw [List.map_append, List.map_cons, List.map_nil, List.nodup_append]
      refine ⟨h, by simp, ?_⟩
      intro place hplace other hother heq
      rw [heq, List.mem_singleton.1 hother] at hplace
      exact hnew hplace

/-- Putting something in a directory, in place of what is no directory. -/
theorem put (wf : fs.WellFormed) {name : String} (hname : ValidName name)
    (hdir : fs.entry? location = some .directory)
    (hold : fs.entry? (location ++ [name]) ≠ some .directory) :
    (fs.put (location ++ [name]) entry).WellFormed where
  nodup := nodup_put wf.nodup
  inDirectory := by
    intro node hnode
    rcases mem_nodes_put hnode with hplace | hmem
    · rw [hplace, List.dropLast_concat, entry?_put_of_ne (by simp) (by simp), hdir]
    · have hparent := wf.inDirectory node hmem
      have hne : node.1.dropLast ≠ location ++ [name] := fun heq => hold (heq ▸ hparent)
      rw [entry?_put_of_ne (by simp) hne, hparent]
  validNames := by
    intro node hnode
    rcases mem_nodes_put hnode with hplace | hmem
    · have hnames : ∀ other ∈ location, ValidName other := by
        by_cases hroot : location = []
        · simp [hroot]
        · obtain ⟨found, hfound⟩ := exists_mem_nodes hdir hroot
          exact (wf.validNames _ hfound).2
      rw [hplace]
      refine ⟨by simp, fun other hother => ?_⟩
      rcases List.mem_append.1 hother with hother | hother
      · exact hnames other hother
      · rwa [List.mem_singleton.1 hother]
    · exact wf.validNames node hmem

/-- Removing something with everything below it. -/
theorem erase (wf : fs.WellFormed) : (fs.erase location).WellFormed where
  nodup := wf.nodup.sublist (List.filter_sublist.map _)
  inDirectory := by
    intro node hnode
    obtain ⟨hmem, hkept⟩ := List.mem_filter.1 hnode
    rw [entry?_erase, if_neg, wf.inDirectory node hmem]
    rintro ⟨-, hpre⟩
    have hbelow : location <+: node.1 := hpre.trans (List.dropLast_prefix _)
    simp [List.isPrefixOf_iff_prefix.2 hbelow] at hkept
  validNames := fun node hnode => wf.validNames node (List.mem_filter.1 hnode).1

end WellFormed

end ModPackager.FileSystem
