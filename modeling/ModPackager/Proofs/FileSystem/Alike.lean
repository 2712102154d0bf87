import Mathlib.Data.List.Sort
import ModPackager.Proofs.FileSystem.Success

/-!
# Doing the same in states that are alike

Two file systems are `Alike` if they hold the same but at hidden places. An action that looks at no hidden
place ends the same way in both of them, with the same value or fault, and leaves them alike. `Tracks rel action`
says this for any relation of states. It goes through sequences and loops, as `Maintains` does for one state.

A file operation is decided by where its paths lead. So each of them tracks a relation in which related states
agree about these paths, if the relation is kept where the operation puts or erases the same in both.
-/

namespace ModPackager

/-! ### Actions in related states -/

section Tracks

variable {σ ε α β : Type} {rel : σ → σ → Prop} {action : EStateM ε σ α}

/-- Two runs end the same way, in related states. -/
inductive SameEnd (rel : σ → σ → Prop) : EStateM.Result ε σ α → EStateM.Result ε σ α → Prop
  | ok {value s t} : rel s t → SameEnd rel (.ok value s) (.ok value t)
  | error {e s t} : rel s t → SameEnd rel (.error e s) (.error e t)

/-- An action does the same in related states. -/
def Tracks (rel : σ → σ → Prop) (action : EStateM ε σ α) : Prop :=
  ∀ s t, rel s t → SameEnd rel (action s) (action t)

namespace Tracks

theorem ok (h : Tracks rel action) {s t s' : σ} {value : α} (hs : rel s t) (hrun : action s = .ok value s') :
    ∃ t', action t = .ok value t' ∧ rel s' t' := by
  have hend := h s t hs
  rw [hrun] at hend
  generalize action t = other at hend
  cases hend with
  | ok hrel => exact ⟨_, rfl, hrel⟩

theorem pure {value : α} : Tracks rel (Pure.pure value : EStateM ε σ α) := fun _ _ hs => .ok hs

theorem throw {e : ε} : Tracks rel (throw e : EStateM ε σ α) := fun _ _ hs => .error hs

/-- Going on with a value, of which is known what the action ends in. -/
theorem bind_of {next : α → EStateM ε σ β} {result : α → Prop} (h : Tracks rel action)
    (hresult : ∀ {s t value s'}, rel s t → action s = .ok value s' → result value)
    (hnext : ∀ value, result value → Tracks rel (next value)) : Tracks rel (action >>= next) := by
  intro s t hs
  have hfirst := h s t hs
  change SameEnd rel (EStateM.bind action next s) (EStateM.bind action next t)
  unfold EStateM.bind
  rcases hrun : action s with ⟨value, s'⟩ | ⟨e, s'⟩ <;> rw [hrun] at hfirst <;> generalize action t = other at hfirst
  · cases hfirst with
    | ok hrel => exact hnext value (hresult hs hrun) _ _ hrel
  · cases hfirst with
    | error hrel => exact .error hrel

theorem bind {next : α → EStateM ε σ β} (h : Tracks rel action) (hnext : ∀ value, Tracks rel (next value)) :
    Tracks rel (action >>= next) := h.bind_of (fun _ _ => trivial) fun value (_ : True) => hnext value

/-- Reading the state, if what follows does not tell related states apart. -/
theorem get_bind {next : σ → EStateM ε σ β} (hsame : ∀ {s t}, rel s t → next s = next t)
    (h : ∀ s, Tracks rel (next s)) : Tracks rel (get >>= next) := by
  intro s t hs
  change SameEnd rel (next s s) (next t t)
  rw [← hsame hs]
  exact h s s t hs

theorem forM {f : α → EStateM ε σ PUnit} {items : List α} (h : ∀ item ∈ items, Tracks rel (f item)) :
    Tracks rel (items.forM f) := by
  induction items with
  | nil => exact pure
  | cons item rest ih =>
      exact bind (h item List.mem_cons_self) fun _ => ih fun item' hitem => h item' (List.mem_cons_of_mem _ hitem)

theorem foldlM {f : β → α → EStateM ε σ β} {items : List α}
    (h : ∀ so, ∀ item ∈ items, Tracks rel (f so item)) (start : β) : Tracks rel (items.foldlM f start) := by
  induction items generalizing start with
  | nil => exact pure
  | cons item rest ih =>
      rw [List.foldlM_cons]
      refine bind (h start item List.mem_cons_self) fun so => ih (fun so' item' hitem => h so' item' ?_) so
      exact List.mem_cons_of_mem _ hitem

end Tracks

end Tracks

/-! ### File systems -/

namespace FileSystem

variable {fs fs' : FileSystem} {location : Location} {path : Path} {entry : Entry} {hidden : Location → Prop}

/-- Two file systems hold the same but at hidden places. -/
structure Alike (hidden : Location → Prop) (fs fs' : FileSystem) : Prop where
  workingDir : fs'.workingDir = fs.workingDir
  entries : ∀ place, ¬ hidden place → fs'.entry? place = fs.entry? place

namespace Alike

theorem symm (h : Alike hidden fs fs') : Alike hidden fs' fs :=
  ⟨h.workingDir.symm, fun place hplace => (h.entries place hplace).symm⟩

theorem trans {fs'' : FileSystem} (first : Alike hidden fs fs') (second : Alike hidden fs' fs'') :
    Alike hidden fs fs'' :=
  ⟨second.workingDir.trans first.workingDir, fun place hplace =>
    (second.entries place hplace).trans (first.entries place hplace)⟩

theorem mono {larger : Location → Prop} (h : Alike hidden fs fs') (hlarger : ∀ {place}, hidden place → larger place) :
    Alike larger fs fs' := ⟨h.workingDir, fun place hplace => h.entries place fun hhidden => hplace (hlarger hhidden)⟩

/-- Time tells nothing. -/
theorem later (h : Alike hidden fs fs') (now : Nat) : Alike hidden fs { fs' with now } := ⟨h.workingDir, h.entries⟩

theorem put (h : Alike hidden fs fs') (hroot : location ≠ []) :
    Alike hidden (fs.put location entry) (fs'.put location entry) where
  workingDir := by rw [workingDir_put, workingDir_put, h.workingDir]
  entries := fun place hplace => by
    rw [entry?_put _ hroot, entry?_put _ hroot]
    split
    · rfl
    · exact h.entries place hplace

theorem erase (h : Alike hidden fs fs') : Alike hidden (fs.erase location) (fs'.erase location) where
  workingDir := h.workingDir
  entries := fun place hplace => by
    rw [entry?_erase, entry?_erase]
    split
    · rfl
    · exact h.entries place hplace

/-- A path whose way avoids the hidden places leads to the same place. -/
theorem resolve (h : Alike hidden fs fs') (havoids : ∀ place ∈ fs.way path, ¬ hidden place) (follow : Bool) :
    fs'.resolve follow path = fs.resolve follow path :=
  resolve_congr h.workingDir fun place hplace => h.entries place (havoids place hplace)

end Alike

theorem Changes.alike (h : Changes hidden fs fs') : Alike hidden fs fs' := ⟨h.workingDir, h.entries⟩

theorem lookup_of_resolve (h : fs'.resolve true path = fs.resolve true path) : fs'.lookup path = fs.lookup path := by
  unfold lookup
  rw [h]

theorem holdsDirectory_of_resolve (h : fs'.resolve true path = fs.resolve true path) :
    fs'.holdsDirectory path = fs.holdsDirectory path := by
  unfold holdsDirectory lookup?
  rw [lookup_of_resolve h]

/-! ### Names in a directory -/

/-- The order of listed names: what is no directory comes first. -/
def listedBefore : String × Bool → String × Bool → Bool
  | (a, x), (b, y) => if x = y then a ≤ b else y

/-- The names in a directory with the kind of what they lead to, in the order of the entries. -/
def listed (fs : FileSystem) (location : Location) : List (String × Bool) :=
  fs.nodes.filterMap fun (place, node) =>
    match place.getLast? with
    | some name => if place.dropLast = location then some (name, node.entry.isDirectory) else none
    | none => none

theorem names_eq_listed (fs : FileSystem) (location : Location) :
    fs.names location = ((fs.listed location).mergeSort listedBefore).map (·.1) := rfl

theorem WellFormed.nodup_listed (wf : fs.WellFormed) (location : Location) : (fs.listed location).Nodup := by
  have hnames := wf.nodup_names location
  rw [names_eq_listed, ((List.mergeSort_perm _ _).map _).nodup_iff] at hnames
  exact hnames.of_map _

/-- An entry that is listed once is the one that is found. -/
theorem WellFormed.node?_of_mem (wf : fs.WellFormed) {node : FileNode} (h : (location, node) ∈ fs.nodes) :
    fs.node? location = some node := by
  obtain ⟨before, after, hnodes⟩ := List.append_of_mem h
  refine List.lookup_eq_some_iff.2 ⟨before, after, hnodes, fun other hother => ?_⟩
  have hplaces := wf.nodup
  rw [hnodes, List.map_append, List.nodup_append] at hplaces
  have hne := hplaces.2.2 _ (List.mem_map_of_mem hother) location (by simp)
  simpa using hne.symm

theorem WellFormed.mem_listed (wf : fs.WellFormed) {name : String} {kind : Bool} :
    (name, kind) ∈ fs.listed location
      ↔ ∃ entry, fs.entry? (location ++ [name]) = some entry ∧ entry.isDirectory = kind := by
  have hne : location ++ [name] ≠ [] := by simp
  simp only [listed, List.mem_filterMap, entry?_of_ne hne, Option.map_eq_some_iff]
  constructor
  · rintro ⟨⟨place, node⟩, hmem, hplace⟩
    obtain ⟨rfl, rfl⟩ := listed_iff.1 hplace
    exact ⟨_, ⟨node, wf.node?_of_mem hmem, rfl⟩, rfl⟩
  · rintro ⟨_, ⟨node, hnode, rfl⟩, rfl⟩
    exact ⟨(location ++ [name], node), mem_nodes_of_node? hnode, listed_iff.2 ⟨rfl, rfl⟩⟩

theorem listedBefore_trans {a b c : String × Bool} (hab : listedBefore a b = true) (hbc : listedBefore b c = true) :
    listedBefore a c = true := by
  obtain ⟨a, x⟩ := a
  obtain ⟨b, y⟩ := b
  obtain ⟨c, z⟩ := c
  cases x <;> cases y <;> cases z <;> simp_all [listedBefore]
  · exact String.le_trans hab hbc
  · exact String.le_trans hab hbc

theorem listedBefore_total (a b : String × Bool) : (listedBefore a b || listedBefore b a) = true := by
  obtain ⟨a, x⟩ := a
  obtain ⟨b, y⟩ := b
  cases x <;> cases y <;> simp [listedBefore, String.le_total]

theorem listedBefore_antisymm {a b : String × Bool} (hab : listedBefore a b = true)
    (hba : listedBefore b a = true) : a = b := by
  obtain ⟨a, x⟩ := a
  obtain ⟨b, y⟩ := b
  cases x <;> cases y <;> simp_all [listedBefore]
  · exact String.le_antisymm hab hba
  · exact String.le_antisymm hab hba

/-- A directory lists the same names where it holds the same entries. -/
theorem names_congr (wf : fs.WellFormed) (wf' : fs'.WellFormed)
    (h : ∀ name, ValidName name → fs'.entry? (location ++ [name]) = fs.entry? (location ++ [name])) :
    fs'.names location = fs.names location := by
  have hperm : (fs'.listed location).Perm (fs.listed location) := by
    refine (List.perm_ext_iff_of_nodup (wf'.nodup_listed _) (wf.nodup_listed _)).2 fun ⟨name, kind⟩ => ?_
    rw [wf'.mem_listed, wf.mem_listed]
    by_cases hname : ValidName name
    · rw [h name hname]
    · have hnone : ∀ {now : FileSystem}, now.WellFormed → now.entry? (location ++ [name]) = none := by
        intro now hnow
        by_contra hsome
        obtain ⟨entry, hentry⟩ := Option.ne_none_iff_exists'.1 hsome
        exact hname (hnow.validName hentry)
      rw [hnone wf, hnone wf']
  rw [names_eq_listed, names_eq_listed]
  congr 1
  have hsorted : ∀ items : List (String × Bool), (items.mergeSort listedBefore).Pairwise fun a b => listedBefore a b :=
    List.pairwise_mergeSort (fun _ _ _ => listedBefore_trans) listedBefore_total
  refine List.Perm.eq_of_pairwise (fun a b _ _ => listedBefore_antisymm) (hsorted _) (hsorted _) ?_
  exact (List.mergeSort_perm _ _).trans (hperm.trans (List.mergeSort_perm _ _).symm)

end FileSystem

/-! ### File operations -/

namespace FileAction

open FileSystem

variable {rel : FileSystem → FileSystem → Prop} {path source target : Path} {contents : ByteArray}

/-- Related file systems agree where a path leads. -/
def Follows (rel : FileSystem → FileSystem → Prop) (path : Path) : Prop :=
  ∀ s t, rel s t → ∀ follow, t.resolve follow path = s.resolve follow path

theorem Follows.lookup (h : Follows rel path) {s t : FileSystem} (hs : rel s t) : t.lookup path = s.lookup path :=
  lookup_of_resolve (h s t hs true)

theorem readBytes_tracks (h : Follows rel path) : Tracks rel (readBytes path) := by
  intro s t hs
  rw [readBytes_eq, readBytes_eq, h.lookup hs]
  rcases s.lookup path with _ | ⟨_, _ | _ | _⟩
  · exact .error hs
  · exact .ok hs
  · exact .error hs
  · exact .error hs

theorem readText_tracks (h : Follows rel path) : Tracks rel (readText path) := by
  refine (readBytes_tracks h).bind fun bytes => ?_
  split
  · exact .pure
  · exact .throw

theorem readNames_tracks (h : Follows rel path)
    (hnames : ∀ {s t dir}, rel s t → s.resolve true path = .ok (.found dir .directory) → t.names dir = s.names dir) :
    Tracks rel (readNames path) := by
  intro s t hs
  rw [readNames_eq, readNames_eq, h.lookup hs]
  rcases hlookup : s.lookup path with _ | ⟨dir, _ | _ | _⟩
  · exact .error hs
  · exact .error hs
  · dsimp only
    rw [hnames hs (lookup_eq_ok_iff.1 hlookup)]
    exact .ok hs
  · exact .error hs

theorem writeBytes_tracks (h : Follows rel path)
    (hput : ∀ {s t location}, rel s t → WritesAt s path location →
      rel (s.put location (.file contents)) (t.put location (.file contents))) :
    Tracks rel (writeBytes path contents) := by
  intro s t hs
  rw [writeBytes_eq, writeBytes_eq, h s t hs]
  rcases hresolve : s.resolve true path with _ | ⟨location, _ | _ | _⟩ | location
  · exact .error hs
  · exact .ok (hput hs (.inl ⟨_, hresolve⟩))
  · exact .error hs
  · exact .error hs
  · dsimp only
    split
    · exact .error hs
    · exact .ok (hput hs (.inr hresolve))

theorem copyFile_tracks (hsource : Follows rel source) (htarget : Follows rel target)
    (hput : ∀ {s t location contents}, rel s t → WritesAt s target location →
      rel (s.put location (.file contents)) (t.put location (.file contents))) :
    Tracks rel (copyFile source target) := by
  have hcopy : Tracks rel (writeBytes target ByteArray.empty >>= fun _ => readBytes source >>= writeBytes target) :=
    (writeBytes_tracks htarget hput).bind fun _ =>
      (readBytes_tracks hsource).bind fun _ => writeBytes_tracks htarget hput
  intro s t hs
  rw [copyFile_eq, copyFile_eq, hsource.lookup hs]
  rcases s.lookup source with _ | ⟨_, _ | _ | _⟩
  · exact .error hs
  · exact hcopy s t hs
  · exact .error hs
  · exact .error hs

theorem ensureDirectory_tracks (h : Follows rel path)
    (hput : ∀ {s t location}, rel s t → s.resolve false path = .ok (.vacant location) →
      rel (s.put location .directory) (t.put location .directory)) :
    Tracks rel (ensureDirectory path) := by
  intro s t hs
  rw [ensureDirectory_eq, ensureDirectory_eq, h s t hs, holdsDirectory_of_resolve (h s t hs true)]
  rcases hresolve : s.resolve false path with _ | ⟨_⟩ | location
  · dsimp only
    split
    · exact .ok hs
    · exact .error hs
  · dsimp only
    split
    · exact .ok hs
    · exact .error hs
  · exact .ok (hput hs hresolve)

theorem faultOf_tracks {action : FileAction Unit} (h : Tracks rel action) : Tracks rel (faultOf action) := by
  intro s t hs
  have hend := h s t hs
  unfold faultOf
  generalize action s = first, action t = other at hend
  cases hend with
  | ok hrel => exact .ok hrel
  | error hrel => exact .ok hrel

/-- Making directories looks at what is on the way of a path, and at nothing else. -/
theorem createParents_tracks (fuel : Nat)
    (h : ∀ {s t part}, rel s t → s.namesTo part <+: s.namesTo path →
      ∀ follow, t.resolve follow part = s.resolve follow part)
    (hput : ∀ {s t location}, rel s t → MakesAt s path location →
      rel (s.put location .directory) (t.put location .directory)) :
    Tracks rel (createParents fuel path) := by
  induction fuel generalizing path with
  | zero => exact .throw
  | succ fuel ih =>
      have hensure : Tracks rel (ensureDirectory path) :=
        ensureDirectory_tracks (fun _ _ hs => h hs (List.prefix_refl _))
          fun hs hresolve => hput hs ⟨path, List.prefix_refl _, id, hresolve⟩
      unfold createParents
      split
      · exact .pure
      · refine (faultOf_tracks hensure).bind fun fault? => ?_
        split
        · exact .pure
        · split
          next parent hparent =>
              refine (ih (fun hs hpart => ?_) fun hs hmakes => hput hs (hmakes.of_parent hparent)).bind
                fun _ => hensure
              exact h hs (hpart.trans (FileSystem.namesTo_parent _ hparent))
          · exact .throw

theorem createDirectories_tracks
    (h : ∀ {s t part}, rel s t → s.namesTo part <+: s.namesTo path →
      ∀ follow, t.resolve follow part = s.resolve follow part)
    (hput : ∀ {s t location}, rel s t → MakesAt s path location →
      rel (s.put location .directory) (t.put location .directory)) :
    Tracks rel (createDirectories path) := createParents_tracks _ h hput

theorem createParent_tracks
    (h : ∀ {s t part}, rel s t → s.namesTo part <+: s.namesTo path →
      ∀ follow, t.resolve follow part = s.resolve follow part)
    (hput : ∀ {s t location}, rel s t → MakesAt s path location →
      rel (s.put location .directory) (t.put location .directory)) :
    Tracks rel (createParent path) := by
  unfold createParent
  split
  next parent hparent =>
      exact createDirectories_tracks (fun hs hpart => h hs (hpart.trans (FileSystem.namesTo_parent _ hparent)))
        fun hs hmakes => hput hs (hmakes.of_parent hparent)
  · exact .pure

theorem removeFile_tracks (h : Follows rel path)
    (herase : ∀ {s t location entry}, rel s t → s.resolve false path = .ok (.found location entry) →
      entry ≠ .directory → rel (s.erase location) (t.erase location)) :
    Tracks rel (removeFile path) := by
  intro s t hs
  rw [removeFile_eq, removeFile_eq, h s t hs]
  rcases hresolve : s.resolve false path with _ | ⟨location, _ | _ | _⟩ | location
  · exact .error hs
  · exact .ok (herase hs hresolve (by simp))
  · exact .error hs
  · exact .ok (herase hs hresolve (by simp))
  · exact .error hs

end FileAction

end ModPackager
