import ModPackager.Proofs.Deploy.Twins
import ModPackager.Proofs.Glob.Expand

/-!
# Where an expansion looks

Whatever an expansion looks at fits the first components of its pattern (`Reaches`), and so does all that it finds
(`reaches_of_mem_expand`). If no such path runs through what has changed, the same fits the pattern as before
(`paths_congr`). A directory may list other names by then, but none of them that the pattern goes on with.
-/

namespace ModPackager.Glob

open FileSystem Deploy

variable {fs fs' : FileSystem} {changed : Location → Prop} {patterns rest : List Pattern} {start path : Path}
  {dir : Location} {name : String}

/-! ### Sorted names -/

theorem pairwise_mergeSort_names (names : List String) :
    (names.mergeSort fun a b => a ≤ b).Pairwise fun a b => a ≤ b := by
  refine (List.pairwise_mergeSort (fun a b c hab hbc => ?_) (fun a b => ?_) names).imp fun h => by simpa using h
  · simp only [decide_eq_true_eq] at hab hbc ⊢
    exact String.le_trans hab hbc
  · simpa using String.le_total a b

/-- Names are sorted into the same list whatever order they are in. -/
theorem mergeSort_eq_of_perm {names others : List String} (h : names.Perm others) :
    names.mergeSort (fun a b => a ≤ b) = others.mergeSort fun a b => a ≤ b := by
  refine List.Perm.eq_of_pairwise (fun a b _ _ => String.le_antisymm) (pairwise_mergeSort_names _)
    (pairwise_mergeSort_names _) ?_
  exact (List.mergeSort_perm _ _).trans (h.trans (List.mergeSort_perm _ _).symm)

/-- Sorting keeps some of the names in the order that they have without the others. -/
theorem filter_mergeSort (keep : String → Bool) (names : List String) :
    (names.mergeSort fun a b => a ≤ b).filter keep = (names.filter keep).mergeSort fun a b => a ≤ b := by
  refine List.Perm.eq_of_pairwise (fun a b _ _ => String.le_antisymm) ((pairwise_mergeSort_names _).filter _)
    (pairwise_mergeSort_names _) ?_
  exact ((List.mergeSort_perm _ _).filter _).trans (List.mergeSort_perm _ _).symm

theorem flatMap_filter {α β : Type} {keep : α → Bool} {f : α → List β} (items : List α)
    (h : ∀ item ∈ items, keep item = false → f item = []) : (items.filter keep).flatMap f = items.flatMap f := by
  induction items with
  | nil => rfl
  | cons item others ih =>
      have hothers := ih fun other hother => h other (List.mem_cons_of_mem _ hother)
      rw [List.filter_cons, List.flatMap_cons]
      split
      · rw [List.flatMap_cons, hothers]
      next hdropped => rw [h item List.mem_cons_self (by simpa using hdropped), hothers, List.nil_append]

/-! ### Names that are listed -/

/-- Directories list the same ones among the names under which they hold the same. -/
theorem perm_filter_names {keep : String → Bool} (wf : fs.WellFormed) (wf' : fs'.WellFormed)
    (h : ∀ name, ValidName name → keep name = true → fs'.entry? (dir ++ [name]) = fs.entry? (dir ++ [name])) :
    ((fs'.names dir).filter keep).Perm ((fs.names dir).filter keep) := by
  refine (List.perm_ext_iff_of_nodup ((wf'.nodup_names dir).filter _) ((wf.nodup_names dir).filter _)).2
    fun name => ?_
  simp only [List.mem_filter, mem_names]
  refine and_congr_left fun hkeep => ?_
  by_cases hname : ValidName name
  · rw [h name hname hkeep]
  · have hnone : ∀ {now : FileSystem}, now.WellFormed → (now.entry? (dir ++ [name])).isSome = false := by
      intro now hnow
      rw [Bool.eq_false_iff]
      intro hsome
      obtain ⟨entry, hentry⟩ := Option.isSome_iff_exists.1 hsome
      exact hname (hnow.validName hentry)
    rw [hnone wf, hnone wf']

/-! ### What a search may look at -/

namespace Search

/-- The paths that fit the first components of a pattern, each with the components that are left. -/
inductive Reaches (patterns : List Pattern) (start : Path) : List Pattern → Path → Prop
  | start : Reaches patterns start patterns start
  | literal {pattern rest path name} : Reaches patterns start (pattern :: rest) path →
      pattern.literal? = some name → Reaches patterns start rest (below path name)
  | dots {pattern rest path name} : Reaches patterns start (pattern :: rest) path →
      name ∈ matchingDots pattern → Reaches patterns start rest (path.child name)
  /-- Two stars go down into every directory. -/
  | deeper {passed pattern rest path name} : Reaches patterns start passed path →
      collapse passed = pattern :: rest → pattern.isRecursive = true → ValidName name →
      Reaches patterns start (pattern :: rest) (below path name)
  | behind {passed pattern next rest path name} : Reaches patterns start passed path →
      collapse passed = pattern :: next :: rest → pattern.isRecursive = true → ValidName name →
      matchesName next (below path name) = true → Reaches patterns start rest (below path name)
  | entry {passed pattern rest path name} : Reaches patterns start passed path →
      collapse passed = pattern :: rest → pattern.isRecursive = false → ValidName name →
      matchesName pattern (below path name) = true → Reaches patterns start rest (below path name)

end Search

open Search

/-- The way to an entry comes by its place, also for an entry of the start of a relative pattern. -/
theorem mem_way_below (hpath : path.text ≠ "") (hname : ValidName name) (hdir : fs.LeadsTo (fs.namesTo path) dir) :
    dir ++ [name] ∈ fs.way (below path name) := by
  unfold below
  split
  next hdot =>
      obtain ⟨hempty, -, -, hslash, -⟩ := id hname
      obtain ⟨before, hbefore⟩ := fs.exists_namesTo_eq
      have hrelative : path.isAbsolute = false := by rw [Path.isAbsolute, hdot]; decide
      rw [hbefore path hrelative, hdot] at hdir
      obtain ⟨base, (hbase : fs.LeadsTo before base)⟩ := Leads.split (by decide : namesOf "." ≠ []) hdir
      have hdots : fs.LeadsTo (before ++ namesOf ".") base := by
        obtain ⟨fewer, hfewer⟩ := LeadsTo.walk_append hbase
        exact hfewer.2 (.dot hbase.isDirectory (.arrive hbase.isDirectory (absurd · Bool.false_ne_true))) (by decide)
      obtain rfl := hdots.unique hdir
      obtain ⟨fewer, hfewer⟩ := Leads.mem_trail_append hbase
      rw [way, hbefore _ (Path.isAbsolute_name hslash), namesOf_name hempty hslash, hfewer,
        trail_name hbase.isDirectory hname.ordinary]
      exact .inr (by simp)
  · exact mem_way_child hpath hname hdir

section Congruence

variable {only : Bool} (wf : fs.WellFormed) (hchanges : Changes changed fs fs')
  (havoids : ∀ rest path, Reaches patterns start rest path → Away fs changed path)

include havoids

/-- A name under which something has changed is none that a pattern goes on with. -/
theorem visit_of_changed (fuel : Nat) {now : FileSystem} (hreaches : Reaches patterns start rest path)
    (hpath : path.text ≠ "") (hname : ValidName name) (hdir : fs.LeadsTo (fs.namesTo path) dir)
    (hchanged : changed (dir ++ [name])) : (⟨now, only⟩ : Search).visit fuel rest (below path name) = [] := by
  have hway := mem_way_below hpath hname hdir
  cases fuel with
  | zero => rfl
  | succ fuel =>
      unfold visit
      split
      · rfl
      next pattern others hcollapse =>
          split
          next hrecursive => exact absurd hchanged (havoids _ _ (.deeper hreaches hcollapse hrecursive hname) _ hway)
          next hrecursive =>
              split
              next hmatches =>
                  have hentry := Reaches.entry hreaches hcollapse (by simpa using hrecursive) hname hmatches
                  exact absurd hchanged (havoids _ _ hentry _ hway)
              · rfl

include wf hchanges

/-- So it goes on in the same way with the entries of a directory, also if others are listed. -/
theorem flatMap_children_congr (fuel : Nat) (hreaches : Reaches patterns start rest path)
    (hvisit : ∀ name, ValidName name → (⟨fs', only⟩ : Search).visit fuel rest (below path name)
      = (⟨fs, only⟩ : Search).visit fuel rest (below path name)) :
    ((⟨fs', only⟩ : Search).children path).flatMap ((⟨fs', only⟩ : Search).visit fuel rest)
      = ((⟨fs, only⟩ : Search).children path).flatMap ((⟨fs, only⟩ : Search).visit fuel rest) := by
  have hlookup : fs'.lookup? path = fs.lookup? path := by
    rw [lookup?, hchanges.lookup (havoids _ _ hreaches), lookup?]
  unfold children
  simp only [hlookup]
  rcases hfound : fs.lookup? path with _ | ⟨dir, _ | _ | _⟩
  · rfl
  · rfl
  · have hresolve := lookup?_eq_some_iff.1 hfound
    have hpath := (resolve_eq_ok_iff.1 hresolve).1.2.1
    have hleads := leadsTo_of_resolve hresolve
    have hvalid : ∀ {now : FileSystem}, now.WellFormed → ∀ name ∈ (now.names dir).mergeSort fun a b => a ≤ b,
        ValidName name := by
      intro now hnow name hmem
      obtain ⟨entry, hentry⟩ := Option.isSome_iff_exists.1 (mem_names.1 (List.mem_mergeSort.1 hmem))
      exact hnow.validName hentry
    -- Only names under which the same lies are gone on with.
    let keep (name : String) : Bool := fs'.entry? (dir ++ [name]) = fs.entry? (dir ++ [name])
    have hdropped : ∀ {now : FileSystem} {name}, ValidName name → keep name = false →
        (⟨now, only⟩ : Search).visit fuel rest (below path name) = [] := by
      intro now name hname hkeep
      refine visit_of_changed havoids fuel hreaches hpath hname hleads ?_
      by_contra hsame
      simp [keep, hchanges.entries _ hsame] at hkeep
    have hperm : ((fs'.names dir).filter keep).Perm ((fs.names dir).filter keep) :=
      perm_filter_names wf (hchanges.wellFormed wf) fun name _ hkeep => by simpa [keep] using hkeep
    rw [List.flatMap_map, List.flatMap_map,
      ← flatMap_filter _ fun name hmem => hdropped (hvalid (hchanges.wellFormed wf) name hmem),
      ← flatMap_filter _ fun name hmem => hdropped (hvalid wf name hmem),
      filter_mergeSort, filter_mergeSort, mergeSort_eq_of_perm hperm, ← filter_mergeSort]
    exact List.flatMap_congr fun name hmem => hvisit name (hvalid wf name (List.mem_of_mem_filter hmem))
  · rfl

/-- What an expansion does at a path that it reaches it does in both. -/
theorem step_congr (fuel : Nat) :
    (∀ rest path, Reaches patterns start rest path →
      (⟨fs', only⟩ : Search).expand fuel rest path = (⟨fs, only⟩ : Search).expand fuel rest path)
    ∧ (∀ rest path, Reaches patterns start rest path →
      (⟨fs', only⟩ : Search).arrive fuel rest path = (⟨fs, only⟩ : Search).arrive fuel rest path)
    ∧ ∀ rest path name, Reaches patterns start rest path → ValidName name →
      (⟨fs', only⟩ : Search).visit fuel rest (below path name) = (⟨fs, only⟩ : Search).visit fuel rest (below path name) := by
  have hresolve : ∀ {rest path}, Reaches patterns start rest path → ∀ follow,
      fs'.resolve follow path = fs.resolve follow path :=
    fun hreaches follow => hchanges.resolve (havoids _ _ hreaches)
  have hdirectory : ∀ {rest path}, Reaches patterns start rest path →
      fs'.holdsDirectory path = fs.holdsDirectory path := fun hreaches =>
    holdsDirectory_of_resolve (hresolve hreaches true)
  have hholds : ∀ {rest path}, Reaches patterns start rest path →
      (⟨fs', only⟩ : Search).holds path = (⟨fs, only⟩ : Search).holds path := fun hreaches => by
    simp only [Search.holds, FileSystem.holds, lookup?, lookup_of_resolve (hresolve hreaches true), hresolve hreaches false]
  have hresult : ∀ {rest path}, Reaches patterns start rest path →
      (⟨fs', only⟩ : Search).result path = (⟨fs, only⟩ : Search).result path := fun hreaches => by
    simp only [result, hdirectory hreaches]
  induction fuel with
  | zero =>
      refine ⟨fun _ _ _ => rfl, fun rest path hreaches => ?_, fun _ _ _ _ _ => rfl⟩
      cases rest with
      | nil => simp only [arrive, hresult hreaches]
      | cons => simp only [arrive]
  | succ fuel ih =>
      obtain ⟨hexpand, harrive, hvisit⟩ := ih
      refine ⟨fun rest path hreaches => ?_, fun rest path hreaches => ?_, fun rest path name hreaches hname => ?_⟩
      · cases rest with
        | nil => simp only [expand]
        | cons pattern rest =>
            unfold expand
            split
            next name hliteral =>
                have hnext := Reaches.literal hreaches hliteral
                simp only [hdirectory hreaches, hholds hnext, harrive _ _ hnext]
            · rw [hdirectory hreaches, flatMap_children_congr wf hchanges havoids fuel hreaches
                fun name hname => hvisit _ _ name hreaches hname]
              split
              · congr 1
                exact List.flatMap_congr fun name hmem => harrive _ _ (.dots hreaches hmem)
              · rfl
      · cases rest with
        | nil => simp only [arrive, hresult hreaches]
        | cons pattern rest => simp only [arrive, hexpand _ _ hreaches]
      · unfold visit
        rcases hcollapse : collapse rest with _ | ⟨pattern, others⟩
        · rfl
        · dsimp only
          split
          next hrecursive =>
              have hdeeper := Reaches.deeper hreaches hcollapse hrecursive hname
              rw [hdirectory hdeeper, hexpand _ _ hdeeper]
              congr 1
              cases others with
              | nil => rfl
              | cons next others =>
                  dsimp only
                  split
                  next hmatches => exact harrive _ _ (.behind hreaches hcollapse hrecursive hname hmatches)
                  · rfl
          next hrecursive =>
              split
              next hmatches =>
                  exact harrive _ _ (.entry hreaches hcollapse (by simpa using hrecursive) hname hmatches)
              · rfl

end Congruence

/-- The entries of a directory have names that entries can have. -/
theorem exists_name_of_mem_children {search : Search} (wf : search.fs.WellFormed) {child : Path}
    (h : child ∈ search.children path) : ∃ name, ValidName name ∧ child = below path name := by
  unfold children at h
  split at h
  · obtain ⟨name, hname, rfl⟩ := List.mem_map.1 h
    obtain ⟨entry, hentry⟩ := Option.isSome_iff_exists.1 (mem_names.1 (List.mem_mergeSort.1 hname))
    exact ⟨name, wf.validName hentry, rfl⟩
  · cases h

/-- Whatever an expansion finds from a path that fits, it fits as well. -/
theorem step_reaches {search : Search} (wf : search.fs.WellFormed) (fuel : Nat) :
    (∀ rest path, Reaches patterns start rest path →
      ∀ found ∈ search.expand fuel rest path, ∃ left, Reaches patterns start left found)
    ∧ (∀ rest path, Reaches patterns start rest path →
      ∀ found ∈ search.arrive fuel rest path, ∃ left, Reaches patterns start left found)
    ∧ ∀ rest path name, Reaches patterns start rest path → ValidName name →
      ∀ found ∈ search.visit fuel rest (below path name), ∃ left, Reaches patterns start left found := by
  have hresult : ∀ {rest path}, Reaches patterns start rest path → ∀ found ∈ search.result path,
      ∃ left, Reaches patterns start left found := by
    intro rest path hreaches found hfound
    unfold result at hfound
    split at hfound
    · cases hfound
    · exact ⟨rest, List.mem_singleton.1 hfound ▸ hreaches⟩
  induction fuel with
  | zero =>
      refine ⟨fun _ _ _ _ => ?_, fun rest path hreaches => ?_, fun _ _ _ _ _ _ => ?_⟩
      · simp [expand]
      · cases rest with
        | nil => simpa only [arrive] using hresult hreaches
        | cons => simp [arrive]
      · simp [visit]
  | succ fuel ih =>
      obtain ⟨hexpand, harrive, hvisit⟩ := ih
      refine ⟨fun rest path hreaches found => ?_, fun rest path hreaches => ?_,
        fun rest path name hreaches hname found => ?_⟩
      · cases rest with
        | nil => simp [expand]
        | cons pattern rest =>
            unfold expand
            split
            next name hliteral =>
                dsimp only
                intro hfound
                split at hfound
                · split at hfound
                  · exact harrive _ _ (.literal hreaches hliteral) found hfound
                  · cases hfound
                · split at hfound
                  · exact harrive _ _ (.literal hreaches hliteral) found hfound
                  · cases hfound
            · intro hfound
              split at hfound
              · rcases List.mem_append.1 hfound with hdots | hchildren
                · obtain ⟨dots, hmem, hdots⟩ := List.mem_flatMap.1 hdots
                  exact harrive _ _ (.dots hreaches hmem) found hdots
                · obtain ⟨child, hmem, hchild⟩ := List.mem_flatMap.1 hchildren
                  obtain ⟨name, hname, rfl⟩ := exists_name_of_mem_children wf hmem
                  exact hvisit _ _ name hreaches hname found hchild
              · cases hfound
      · cases rest with
        | nil => simpa only [arrive] using hresult hreaches
        | cons pattern rest => simpa only [arrive] using hexpand _ _ hreaches
      · unfold visit
        rcases hcollapse : collapse rest with _ | ⟨pattern, others⟩
        · simp
        · dsimp only
          split
          next hrecursive =>
              have hdeeper := Reaches.deeper hreaches hcollapse hrecursive hname
              intro hfound
              rcases List.mem_append.1 hfound with hhere | hbelow
              · cases others with
                | nil =>
                    dsimp only at hhere
                    split at hhere
                    · exact ⟨_, List.mem_singleton.1 hhere ▸ hdeeper⟩
                    · cases hhere
                | cons next others =>
                    dsimp only at hhere
                    split at hhere
                    next hmatches => exact harrive _ _ (.behind hreaches hcollapse hrecursive hname hmatches) found hhere
                    · cases hhere
              · split at hbelow
                · exact hexpand _ _ hdeeper found hbelow
                · cases hbelow
          next hrecursive =>
              split
              next hmatches =>
                  exact harrive _ _ (.entry hreaches hcollapse (by simpa using hrecursive) hname hmatches) found
              · simp

/-! ### Patterns -/

/-- The components of a pattern, if it is one. -/
def components (pattern : List Char) : Except PatternFault (List Pattern) := do
  let _ ← Pattern.parse pattern
  let body := if pattern.head? == some '/' then pattern.tail else pattern
  let patterns ← (componentTexts body).mapM Pattern.parse
  return if pattern = ['/'] then [[]] else patterns

/-- Where the expansion of a pattern starts. -/
def startOf (pattern : List Char) : Path := ⟨if pattern.head? == some '/' then "/" else "."⟩

theorem paths_eq (fs : FileSystem) (pattern : List Char) : paths fs pattern = (components pattern).map fun patterns =>
    (⟨fs, pattern.getLast? == some '/'⟩ : Search).expand (stepLimit patterns.length) patterns (startOf pattern) := by
  unfold paths components
  simp only [bind, Except.bind]
  cases Pattern.parse pattern with
  | error fault => rfl
  | ok _ =>
      dsimp only
      cases (componentTexts (if pattern.head? == some '/' then pattern.tail else pattern)).mapM Pattern.parse with
      | error fault => rfl
      | ok patterns => rfl

/-- No path that fits the first components of a pattern runs through what may change. -/
def Avoids (fs : FileSystem) (pattern : List Char) (changed : Location → Prop) : Prop :=
  ∀ patterns, components pattern = .ok patterns →
    ∀ rest path, Reaches patterns (startOf pattern) rest path → Away fs changed path

section Avoids

variable {pattern : List Char} (h : Avoids fs pattern changed)

include h

/-- Then the same fits the pattern as before. -/
theorem Avoids.paths_congr (wf : fs.WellFormed) (hchanges : Changes changed fs fs') :
    paths fs' pattern = paths fs pattern := by
  rw [paths_eq, paths_eq]
  cases hpatterns : components pattern with
  | error fault => rfl
  | ok patterns =>
      simp only [Except.map]
      rw [(step_congr wf hchanges (h patterns hpatterns) _).1 _ _ .start]

/-- And the ways of what fits are clear of changes. -/
theorem Avoids.away (wf : fs.WellFormed) {found : List Path} (hfound : paths fs pattern = .ok found) (hpath : path ∈ found) :
    Away fs changed path := by
  rw [paths_eq] at hfound
  cases hpatterns : components pattern with
  | error fault => simp [hpatterns, Except.map] at hfound
  | ok patterns =>
      simp only [hpatterns, Except.map, Except.ok.injEq] at hfound
      subst hfound
      obtain ⟨left, hreaches⟩ := (step_reaches (by exact wf) _).1 _ _ .start _ hpath
      exact h patterns hpatterns left path hreaches

end Avoids

end ModPackager.Glob
