import ModPackager.Proofs.FileSystem.Moved
import ModPackager.Proofs.Glob.Limit
import ModPackager.Proofs.Path.Normal

/-!
# Expansions in two places

Below two directories that hold the same tree a pattern finds the same (`expand_moved`), entry by entry: whatever the
one expansion looks at, the other one looks at below its own directory. That is so as long as nothing leads up or out of
the directories, and as long as no limit stands between a path and what the other one finds (`Spared`).
-/

namespace ModPackager.Glob

open FileSystem Search

/-- The names that fit the first components of a pattern, each with the components that are left. -/
inductive Enters (patterns : List Pattern) : List Pattern → List String → Prop
  | start : Enters patterns patterns []
  | literal {pattern rest names name} : Enters patterns (pattern :: rest) names → pattern.literal? = some name →
      Enters patterns rest (names ++ [name])
  | dots {pattern rest names name} : Enters patterns (pattern :: rest) names → name ∈ matchingDots pattern →
      Enters patterns rest (names ++ [name])
  /-- Two stars go down into every directory. -/
  | deeper {passed pattern rest names name} : Enters patterns passed names → collapse passed = pattern :: rest →
      pattern.isRecursive = true → ValidName name → Enters patterns (pattern :: rest) (names ++ [name])
  | behind {passed pattern next rest names name} : Enters patterns passed names →
      collapse passed = pattern :: next :: rest → pattern.isRecursive = true → ValidName name →
      next.matches name.toList = true → Enters patterns rest (names ++ [name])
  | entry {passed pattern rest names name} : Enters patterns passed names → collapse passed = pattern :: rest →
      pattern.isRecursive = false → ValidName name → pattern.matches name.toList = true →
      Enters patterns rest (names ++ [name])

variable {fs fs' : FileSystem} {dir dir' : Location} {base base' : Path} {patterns rest : List Pattern}
  {pattern : Pattern} {names : List String} {name : String} {only : Bool} {path path' : Path}

/-! ### What both places have -/

/-- Where one path leads to something, the other one does not come to a limit. -/
def Spared (fs fs' : FileSystem) (path path' : Path) : Prop :=
  ∀ follow place entry, fs.resolve follow path = .ok (.found place entry) → ¬ Limited (fs'.resolve follow path')

theorem Enters.suffix (h : Enters patterns rest names) : rest <:+ patterns := by
  induction h with
  | start => exact List.suffix_refl _
  | literal _ _ ih | dots _ _ ih => exact (List.suffix_cons _ _).trans ih
  | deeper _ hcollapse _ _ ih => exact hcollapse ▸ (collapse_suffix _).trans ih
  | behind _ hcollapse _ _ _ ih =>
      exact ((List.suffix_cons _ _).trans (List.suffix_cons _ _)).trans (hcollapse ▸ (collapse_suffix _).trans ih)
  | entry _ hcollapse _ _ _ ih => exact (List.suffix_cons _ _).trans (hcollapse ▸ (collapse_suffix _).trans ih)

/-- A path that leads anywhere does not come to a limit. -/
theorem spared_of_isOk (h : ∀ follow, (fs'.resolve follow path').isOk = true) : Spared fs fs' path path' := by
  intro follow place entry _ hlimit
  have hok := h follow
  rcases hlimit with hlimit | hlimit <;> rw [hlimit] at hok <;> cases hok

/-- Of the entries that a directory could have, those are to be looked at that it has. -/
theorem spared_child (hdir : fs.resolve true path = .ok (.found dir .directory))
    (h : ∀ name ∈ fs.names dir, Spared fs fs' (path.child name) (path'.child name)) (hname : ValidName name) :
    Spared fs fs' (path.child name) (path'.child name) := by
  intro follow place entry hresolve
  obtain ⟨hne, hdot, hup, hslash, -⟩ := hname
  obtain ⟨-, hleads⟩ := resolve_eq_ok_iff.1 hresolve
  rw [namesTo_child fs (resolve_eq_ok_iff.1 hdir).1.2.1 hne hslash] at hleads
  obtain ⟨fewer, hfewer⟩ := (leadsTo_of_resolve hdir).walk_append
  obtain ⟨found, hfound⟩ := (hfewer.1 hleads (by simp)).exists_first hdot hup
  exact h name (mem_names.2 (by rw [hfound, Option.isSome_some])) follow place entry hresolve

/-- Names that stay below a directory. -/
def Inner (names : List String) : Prop := ∀ name ∈ names, name ≠ ".." ∧ '/' ∉ name.toList

theorem inner_concat : Inner (names ++ [name]) ↔ Inner names ∧ name ≠ ".." ∧ '/' ∉ name.toList := by
  rw [Inner, List.forall_mem_append, List.forall_mem_singleton]
  rfl

theorem Inner.entry (h : Inner names) (hname : ValidName name) : Inner (names ++ [name]) :=
  inner_concat.2 ⟨h, hname.2.2.1, hname.2.2.2.1⟩

theorem Inner.slashless (h : Inner names) : ∀ name ∈ names, '/' ∉ name.toList := fun name hname => (h name hname).2

theorem Inner.up_not_mem (h : Inner names) : ".." ∉ names := fun hmem => (h ".." hmem).1 rfl

theorem Inner.text_ne (h : Inner names) (habsolute : base.isAbsolute = true) :
    (base.descend names).text ≠ "" ∧ (base.descend names).text ≠ "." := by
  have hbase := Path.text_ne_of_isAbsolute habsolute
  refine ⟨Path.descend_text_ne hbase h.slashless, fun hdot => ?_⟩
  rw [← Path.isAbsolute_descend hbase h.slashless, Path.isAbsolute, hdot] at habsolute
  revert habsolute
  decide

/-- A search finds something on a path if it leads to something, links at the end followed or not. -/
theorem holds_iff : (⟨fs, only⟩ : Search).holds path = true
    ↔ (∃ place entry, fs.resolve true path = .ok (.found place entry))
      ∨ ∃ place entry, fs.resolve false path = .ok (.found place entry) := by
  have hlookup : fs.holds path = true ↔ ∃ place entry, fs.resolve true path = .ok (.found place entry) := by
    simp [FileSystem.holds, Option.isSome_iff_exists, ← lookup?_eq_some_iff]
  rw [Search.holds, Bool.or_eq_true, hlookup]
  rcases fs.resolve false path with _ | ⟨_ | _⟩ <;> simp

/-- Names that fit stay below the directory, if no component leads up. -/
theorem Enters.inner (h : Enters patterns rest names) (hcut : Cut patterns)
    (hdown : ∀ pattern ∈ patterns, ".." ∉ matchingDots pattern) : Inner names := by
  induction h with
  | start => simp [Inner]
  | @literal pattern rest names name hbefore hliteral ih =>
      have hmem : pattern ∈ patterns := hbefore.suffix.subset List.mem_cons_self
      refine inner_concat.2 ⟨ih, ?_, hcut.slashless _ hmem _ hliteral⟩
      rintro rfl
      refine hdown _ hmem ?_
      rw [literal?_eq_some_iff.1 hliteral]
      decide
  | @dots pattern rest names name hbefore hname ih =>
      have hmem : pattern ∈ patterns := hbefore.suffix.subset List.mem_cons_self
      obtain rfl : name = "." := (eq_dots_of_mem hname).resolve_right fun heq => hdown _ hmem (heq ▸ hname)
      exact inner_concat.2 ⟨ih, by decide, by decide⟩
  | deeper _ _ _ hname ih => exact ih.entry hname
  | behind _ _ _ hname _ ih => exact ih.entry hname
  | entry _ _ _ hname _ ih => exact ih.entry hname

/-- A pattern is expanded below two directories that hold the same. -/
structure Moved (fs fs' : FileSystem) (dir dir' : Location) (base base' : Path) (patterns : List Pattern) : Prop where
  wf : fs.WellFormed
  wf' : fs'.WellFormed
  same : SameTree fs fs' dir dir'
  absolute : base.isAbsolute = true
  absolute' : base'.isAbsolute = true
  found : fs.resolve true base = .ok (.found dir .directory)
  found' : fs'.resolve true base' = .ok (.found dir' .directory)
  cut : Cut patterns
  down : ∀ pattern ∈ patterns, ".." ∉ matchingDots pattern
  spared : ∀ rest names, Enters patterns rest names →
    Spared fs fs' (base.descend names) (base'.descend names) ∧ Spared fs' fs (base'.descend names) (base.descend names)

/-- Two paths are those of the same names below two directories. -/
def Twin (patterns : List Pattern) (base base' path path' : Path) : Prop :=
  ∃ names rest, Enters patterns rest names ∧ path = base.descend names ∧ path' = base'.descend names

theorem Enters.twin (h : Enters patterns rest names) :
    Twin patterns base base' (base.descend names) (base'.descend names) := ⟨names, rest, h, rfl, rfl⟩

theorem forall₂_flatMap {α β γ : Type} {related : β → γ → Prop} {f : α → List β} {g : α → List γ} {items : List α}
    (h : ∀ item ∈ items, List.Forall₂ related (f item) (g item)) :
    List.Forall₂ related (items.flatMap f) (items.flatMap g) := by
  induction items with
  | nil => exact .nil
  | cons item items ih =>
      rw [List.forall_mem_cons] at h
      exact List.rel_append h.1 (ih h.2)

namespace Moved

variable (moved : Moved fs fs' dir dir' base base' patterns)

include moved

theorem inner (henters : Enters patterns rest names) : Inner names := henters.inner moved.cut moved.down

/-- What is reached leads to the same place in both directories, or to nothing in either. -/
theorem resolve_cases (henters : Enters patterns rest names) {follow : Bool} (hend : names = [] → follow = true) :
    (∃ below entry, fs.resolve follow (base.descend names) = .ok (.found (dir ++ below) entry)
        ∧ fs'.resolve follow (base'.descend names) = .ok (.found (dir' ++ below) entry))
      ∨ (∀ place entry, fs.resolve follow (base.descend names) ≠ .ok (.found place entry))
        ∧ ∀ place entry, fs'.resolve follow (base'.descend names) ≠ .ok (.found place entry) := by
  have hinner := moved.inner henters
  obtain ⟨hspared, hspared'⟩ := moved.spared rest names henters
  have halongside : Alongside dir dir' (fs.resolve follow (base.descend names)) (fs'.resolve follow (base'.descend names)) :=
    moved.same.resolve_descend moved.found moved.found' hinner.slashless hinner.up_not_mem hend
  generalize hhere : fs.resolve follow (base.descend names) = here at halongside
  generalize hthere : fs'.resolve follow (base'.descend names) = there at halongside
  cases halongside with
  | found below entry => exact .inl ⟨below, entry, rfl, rfl⟩
  | vacant below => exact .inr ⟨nofun, nofun⟩
  | fault fault => exact .inr ⟨nofun, nofun⟩
  | here other hlimit =>
      refine .inr ⟨fun place entry hfound => ?_, fun place entry hfound => ?_⟩
      · rcases hlimit with rfl | rfl <;> cases hfound
      · exact hspared' follow place entry (hthere.trans hfound) (hhere ▸ hlimit)
  | there other hlimit =>
      refine .inr ⟨fun place entry hfound => ?_, fun place entry hfound => ?_⟩
      · exact hspared follow place entry (hhere.trans hfound) (hthere ▸ hlimit)
      · rcases hlimit with rfl | rfl <;> cases hfound

theorem holdsDirectory_eq (henters : Enters patterns rest names) :
    fs'.holdsDirectory (base'.descend names) = fs.holdsDirectory (base.descend names) := by
  rw [Bool.eq_iff_iff, holdsDirectory_iff, holdsDirectory_iff]
  rcases moved.resolve_cases henters fun _ => rfl with ⟨below, entry, hhere, hthere⟩ | ⟨hhere, hthere⟩
  · rw [hhere, hthere]
    simp
  · exact iff_of_false (fun ⟨place, h⟩ => hthere _ _ h) fun ⟨place, h⟩ => hhere _ _ h

/-- A file is one in both, with the same contents. -/
theorem lookup?_file (henters : Enters patterns rest names) (contents : ByteArray) :
    (∃ place, fs.lookup? (base.descend names) = some (place, .file contents))
      ↔ ∃ place, fs'.lookup? (base'.descend names) = some (place, .file contents) := by
  simp only [lookup?_eq_some_iff]
  rcases moved.resolve_cases henters fun _ => rfl with ⟨below, entry, hhere, hthere⟩ | ⟨hhere, hthere⟩
  · rw [hhere, hthere]
    simp
  · exact iff_of_false (fun ⟨place, h⟩ => hhere _ _ h) fun ⟨place, h⟩ => hthere _ _ h

theorem holdsFile_eq (henters : Enters patterns rest names) :
    fs'.holdsFile (base'.descend names) = fs.holdsFile (base.descend names) := by
  rw [Bool.eq_iff_iff, holdsFile_iff, holdsFile_iff, exists_comm]
  refine Iff.trans (exists_congr fun contents => ?_) exists_comm
  simpa only [lookup?_eq_some_iff] using (moved.lookup?_file henters contents).symm

theorem holds_eq (henters : Enters patterns rest names) (hne : names ≠ []) :
    (⟨fs', only⟩ : Search).holds (base'.descend names) = (⟨fs, only⟩ : Search).holds (base.descend names) := by
  have hcongr : ∀ {follow}, (∃ place entry, fs'.resolve follow (base'.descend names) = .ok (.found place entry))
      ↔ ∃ place entry, fs.resolve follow (base.descend names) = .ok (.found place entry) := by
    intro follow
    rcases moved.resolve_cases henters (absurd · hne) with ⟨below, entry, hhere, hthere⟩ | ⟨hhere, hthere⟩
    · exact iff_of_true ⟨_, _, hthere⟩ ⟨_, _, hhere⟩
    · exact iff_of_false (fun ⟨_, _, h⟩ => hthere _ _ h) fun ⟨_, _, h⟩ => hhere _ _ h
  rw [Bool.eq_iff_iff, holds_iff, holds_iff]
  exact or_congr hcongr hcongr

/-- The same names are listed in both. -/
theorem children_eq (only : Bool) (henters : Enters patterns rest names) : ∃ listed : List String,
    (∀ name ∈ listed, ValidName name)
    ∧ (⟨fs, only⟩ : Search).children (base.descend names) = listed.map (below (base.descend names))
    ∧ (⟨fs', only⟩ : Search).children (base'.descend names) = listed.map (below (base'.descend names)) := by
  rcases moved.resolve_cases henters fun _ => rfl with ⟨inside, entry, hhere, hthere⟩ | ⟨hhere, hthere⟩
  · cases entry with
    | directory =>
        have hperm : (fs'.names (dir' ++ inside)).Perm (fs.names (dir ++ inside)) := by
          refine (List.perm_ext_iff_of_nodup (moved.wf'.nodup_names _) (moved.wf.nodup_names _)).2 fun name => ?_
          rw [mem_names, mem_names, List.append_assoc, List.append_assoc, moved.same.entries]
        refine ⟨(fs.names (dir ++ inside)).mergeSort fun a b => a ≤ b, fun name hname => ?_, ?_, ?_⟩
        · obtain ⟨entry, hentry⟩ := Option.isSome_iff_exists.1 (mem_names.1 (List.mem_mergeSort.1 hname))
          exact moved.wf.validName hentry
        · simp only [children, lookup?_eq_some_iff.2 hhere]
        · simp only [children, lookup?_eq_some_iff.2 hthere, mergeSort_eq_of_perm hperm]
    | file | link =>
        refine ⟨[], by simp, ?_, ?_⟩
        · simp only [children, lookup?_eq_some_iff.2 hhere, List.map_nil]
        · simp only [children, lookup?_eq_some_iff.2 hthere, List.map_nil]
  · have hnone : fs.lookup? (base.descend names) = none :=
      Option.eq_none_iff_forall_ne_some.2 fun found hfound => hhere _ _ (lookup?_eq_some_iff.1 hfound)
    have hnone' : fs'.lookup? (base'.descend names) = none :=
      Option.eq_none_iff_forall_ne_some.2 fun found hfound => hthere _ _ (lookup?_eq_some_iff.1 hfound)
    refine ⟨[], by simp, ?_, ?_⟩
    · simp only [children, hnone, List.map_nil]
    · simp only [children, hnone', List.map_nil]

/-! ### Going on -/

theorem below_eq (hinner : Inner names) (name : String) : below (base.descend names) name = base.descend (names ++ [name])
    ∧ below (base'.descend names) name = base'.descend (names ++ [name]) := by
  rw [below_of_ne (hinner.text_ne moved.absolute).2, below_of_ne (hinner.text_ne moved.absolute').2,
    Path.descend_concat, Path.descend_concat]
  exact ⟨rfl, rfl⟩

/-- A component is tried on the same name in both. -/
theorem matchesName_eq (pattern : Pattern) (hinner : Inner names) (hname : ValidName name) :
    matchesName pattern (below (base.descend names) name) = pattern.matches name.toList
      ∧ matchesName pattern (below (base'.descend names) name) = pattern.matches name.toList :=
  ⟨matchesName_below (hinner.text_ne moved.absolute).1 hname, matchesName_below (hinner.text_ne moved.absolute').1 hname⟩

theorem goesOn_eq (h : Enters patterns (pattern :: rest) names) (hliteral : pattern.literal? = some name) :
    (⟨fs', only⟩ : Search).goesOn (base'.descend names) name = (⟨fs, only⟩ : Search).goesOn (base.descend names) name := by
  unfold goesOn
  split
  · exact moved.holdsDirectory_eq h
  · rw [(moved.below_eq (moved.inner h) _).1, (moved.below_eq (moved.inner h) _).2]
    exact moved.holds_eq (h.literal hliteral) (by simp)

theorem result_moved (h : Enters patterns rest names) :
    List.Forall₂ (Twin patterns base base') ((⟨fs, only⟩ : Search).result (base.descend names))
      ((⟨fs', only⟩ : Search).result (base'.descend names)) := by
  simp only [result, moved.holdsDirectory_eq h]
  split
  · exact .nil
  · exact .cons h.twin .nil

/-- Two stars find the same at an entry, if what comes behind them does. -/
theorem behindStars_moved {fuel : Nat} {others : List Pattern} {passed : List Pattern}
    (hcollapse : collapse passed = pattern :: others) (hrecursive : pattern.isRecursive = true)
    (h : Enters patterns passed names) (hname : ValidName name)
    (harrive : ∀ rest names, Enters patterns rest names →
      List.Forall₂ (Twin patterns base base') ((⟨fs, only⟩ : Search).arrive fuel rest (base.descend names))
        ((⟨fs', only⟩ : Search).arrive fuel rest (base'.descend names))) :
    List.Forall₂ (Twin patterns base base')
      ((⟨fs, only⟩ : Search).behindStars fuel (base.descend (names ++ [name])) others)
      ((⟨fs', only⟩ : Search).behindStars fuel (base'.descend (names ++ [name])) others) := by
  have hinner := moved.inner h
  have hdeeper : Enters patterns (pattern :: others) (names ++ [name]) := .deeper h hcollapse hrecursive hname
  cases others with
  | nil =>
      simp only [behindStars, moved.holdsDirectory_eq hdeeper]
      split
      · exact .cons hdeeper.twin .nil
      · exact .nil
  | cons next deeper =>
      obtain ⟨hhere, hthere⟩ := moved.matchesName_eq next hinner hname
      obtain ⟨hbelow, hbelow'⟩ := moved.below_eq hinner name
      rw [hbelow] at hhere
      rw [hbelow'] at hthere
      simp only [behindStars, hhere, hthere]
      split
      next hmatches => exact harrive _ _ (.behind h hcollapse hrecursive hname hmatches)
      · exact .nil

/-- What an expansion does at a path that it reaches it does below both directories. -/
theorem step_moved (only : Bool) (fuel : Nat) :
    (∀ rest names, Enters patterns rest names → List.Forall₂ (Twin patterns base base')
      ((⟨fs, only⟩ : Search).expand fuel rest (base.descend names))
      ((⟨fs', only⟩ : Search).expand fuel rest (base'.descend names)))
    ∧ (∀ rest names, Enters patterns rest names → List.Forall₂ (Twin patterns base base')
      ((⟨fs, only⟩ : Search).arrive fuel rest (base.descend names))
      ((⟨fs', only⟩ : Search).arrive fuel rest (base'.descend names)))
    ∧ ∀ rest names name, Enters patterns rest names → ValidName name →
      List.Forall₂ (Twin patterns base base')
        ((⟨fs, only⟩ : Search).visit fuel rest (below (base.descend names) name))
        ((⟨fs', only⟩ : Search).visit fuel rest (below (base'.descend names) name)) := by
  induction fuel with
  | zero =>
      refine ⟨fun _ _ _ => by simp [expand], fun rest names h => ?_, fun _ _ _ _ _ => by simp [visit]⟩
      cases rest with
      | nil => simpa only [arrive] using moved.result_moved h
      | cons => simp [arrive]
  | succ fuel ih =>
      obtain ⟨hexpand, harrive, hvisit⟩ := ih
      refine ⟨fun rest names h => ?_, fun rest names h => ?_, fun rest names name h hname => ?_⟩
      · cases rest with
        | nil => simp [expand]
        | cons pattern rest =>
            cases hliteral : pattern.literal? with
            | some name =>
                rw [expand_literal hliteral, expand_literal hliteral, moved.goesOn_eq h hliteral,
                  (moved.below_eq (moved.inner h) _).1, (moved.below_eq (moved.inner h) _).2]
                split
                · exact harrive _ _ (h.literal hliteral)
                · exact .nil
            | none =>
                obtain ⟨listed, hlisted, hchildren, hchildren'⟩ := moved.children_eq only h
                rw [expand_wild hliteral, expand_wild hliteral, hchildren, hchildren', List.flatMap_map, List.flatMap_map]
                simp only [moved.holdsDirectory_eq h]
                split
                · refine List.rel_append (forall₂_flatMap fun dots hdots => ?_) (forall₂_flatMap fun name hname => ?_)
                  · rw [← Path.descend_concat, ← Path.descend_concat]
                    exact harrive _ _ (h.dots hdots)
                  · exact hvisit _ _ _ h (hlisted name hname)
                · exact .nil
      · cases rest with
        | nil => simpa only [arrive] using moved.result_moved h
        | cons pattern rest =>
            rw [arrive_cons, arrive_cons]
            exact hexpand _ _ h
      · obtain ⟨hbelow, hbelow'⟩ := moved.below_eq (moved.inner h) name
        cases hcollapse : collapse rest with
        | nil =>
            rw [visit_nil hcollapse, visit_nil hcollapse]
            exact .nil
        | cons pattern others =>
            cases hrecursive : pattern.isRecursive with
            | true =>
                have hdeeper : Enters patterns (pattern :: others) (names ++ [name]) :=
                  .deeper h hcollapse hrecursive hname
                rw [visit_recursive hcollapse hrecursive, visit_recursive hcollapse hrecursive, hbelow, hbelow']
                simp only [moved.holdsDirectory_eq hdeeper]
                refine List.rel_append (moved.behindStars_moved hcollapse hrecursive h hname harrive) ?_
                split
                · exact hexpand _ _ hdeeper
                · exact .nil
            | false =>
                obtain ⟨hhere, hthere⟩ := moved.matchesName_eq pattern (moved.inner h) hname
                rw [visit_entry hcollapse hrecursive, visit_entry hcollapse hrecursive, hhere, hthere]
                split
                next hmatches =>
                    rw [hbelow, hbelow']
                    exact harrive _ _ (.entry h hcollapse hrecursive hname hmatches)
                · exact .nil

/-- A pattern finds the same below both directories, in the same order. -/
theorem expand_moved (only : Bool) (fuel : Nat) : ∃ found : List (List String),
    (∀ names ∈ found, ∃ rest, Enters patterns rest names)
    ∧ (⟨fs, only⟩ : Search).expand fuel patterns base = found.map base.descend
    ∧ (⟨fs', only⟩ : Search).expand fuel patterns base' = found.map base'.descend := by
  have hstart : Enters patterns patterns [] := .start
  have htwins := (moved.step_moved only fuel).1 _ _ hstart
  revert htwins
  simp only [Path.descend, List.foldl_nil]
  generalize (⟨fs, only⟩ : Search).expand fuel patterns base = here
  generalize (⟨fs', only⟩ : Search).expand fuel patterns base' = there
  intro htwins
  induction htwins with
  | nil => exact ⟨[], by simp⟩
  | cons htwin _ ih =>
      obtain ⟨names, rest, henters, rfl, rfl⟩ := htwin
      obtain ⟨found, hfound, rfl, rfl⟩ := ih
      refine ⟨names :: found, ?_, rfl, rfl⟩
      rw [List.forall_mem_cons]
      exact ⟨⟨rest, henters⟩, hfound⟩

end Moved

end ModPackager.Glob
