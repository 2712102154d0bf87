import ModPackager.Proofs.Glob.Once
import ModPackager.Proofs.Glob.Reach

/-!
# The base of a pattern

A pattern begins with names, and from the first wildcard on it is tried on whatever there is. The place that the names
spell is its base. If no component leads up again, an expansion looks at the way to the base and at what lies below it,
and at nothing else (`base_of_reaches`). So it avoids every change elsewhere (`avoids_of_base`).
-/

namespace ModPackager.Glob

open FileSystem Deploy Search

variable {fs : FileSystem} {changed : Location → Prop} {patterns others rest : List Pattern} {pattern : Pattern}
  {start path : Path} {name : String} {names : List String} {base place : Location}

/-! ### The places that paths spell -/

/-- A name goes on from the place that a path spells. -/
theorem climb_namesTo_below (fs : FileSystem) (hpath : path.text ≠ "") (hne : name ≠ "") (hslash : '/' ∉ name.toList) :
    climb [] (fs.namesTo (below path name)) = climbStep (climb [] (fs.namesTo path)) name
      ∧ (".." ∉ fs.namesTo path → name ≠ ".." → ".." ∉ fs.namesTo (below path name)) := by
  by_cases hstart : path.text = "."
  · obtain ⟨before, hbefore⟩ := fs.exists_namesTo_eq
    have hrelative : path.isAbsolute = false := by rw [Path.isAbsolute, hstart]; decide
    have hdot : namesOf "." = ["."] := by decide
    rw [below_start hstart, hbefore _ (Path.isAbsolute_name hslash), namesOf_name hne hslash, hbefore _ hrelative, hstart,
      hdot]
    refine ⟨by simp [climb_append], fun hup hname => ?_⟩
    simp only [List.mem_append, List.mem_singleton, not_or] at hup ⊢
    exact ⟨hup.1, Ne.symm hname⟩
  · rw [below_of_ne hstart, namesTo_child fs hpath hne hslash]
    refine ⟨by simp [climb_append], fun hup hname => ?_⟩
    simp only [List.mem_append, List.mem_singleton, not_or]
    exact ⟨hup, Ne.symm hname⟩

/-! ### Going on from a base -/

/-- No component of a pattern leads up. -/
structure Downward (patterns : List Pattern) : Prop where
  dots : ∀ pattern ∈ patterns, ".." ∉ matchingDots pattern
  literals : ∀ pattern ∈ patterns, ∀ name, pattern.literal? = some name → name ≠ "" ∧ name ≠ ".." ∧ '/' ∉ name.toList

/-- The pattern that is nothing but a name. -/
def named (name : String) : Pattern := name.toList.map Token.char

theorem literal?_named (name : String) : (named name).literal? = some name := literal?_eq_some_iff.2 rfl

theorem isRecursive_named (name : String) : (named name).isRecursive = false := by
  simp [named, Pattern.isRecursive]

/-- A path spells the base or something below it, or some names are still ahead of it. -/
def Ahead (fs : FileSystem) (base : Location) (others rest : List Pattern) (path : Path) : Prop :=
  base <+: climb [] (fs.namesTo path)
    ∨ ∃ names, rest = names.map named ++ others ∧ climb (climb [] (fs.namesTo path)) names = base

namespace Ahead

/-- A name of the pattern goes on towards the base, and behind it any name goes on below it. -/
theorem onward (h : Ahead fs base others (pattern :: rest) path) {next : Path}
    (hnext : climb [] (fs.namesTo next) = climbStep (climb [] (fs.namesTo path)) name) (hup : name ≠ "..")
    (hname : ∀ literal, pattern.literal? = some literal → name = literal) : Ahead fs base others rest next := by
  have hbelow : climb [] (fs.namesTo path) <+: climb [] (fs.namesTo next) := by
    rw [hnext, ← climb_nil (climbStep _ name), ← climb_cons]
    exact prefix_climb (by simpa using Ne.symm hup)
  rcases h with hbase | ⟨names, hrest, hbase⟩
  · exact .inl (hbase.trans hbelow)
  · cases names with
    | nil => exact .inl (hbase ▸ hbelow)
    | cons first names =>
        obtain ⟨rfl, rfl⟩ := List.cons.inj hrest
        obtain rfl := hname first (literal?_named first)
        exact .inr ⟨names, rfl, by rw [hnext, ← climb_cons, hbase]⟩

/-- Where two stars are next, no name is ahead. -/
theorem reached {passed : List Pattern} (h : Ahead fs base others passed path)
    (hcollapse : collapse passed = pattern :: rest) (hrecursive : pattern.isRecursive = true) :
    base <+: climb [] (fs.namesTo path) := by
  rcases h with hbase | ⟨names, rfl, hbase⟩
  · exact hbase
  · cases names with
    | nil => exact hbase ▸ List.prefix_refl _
    | cons first names =>
        rw [List.map_cons, List.cons_append, collapse_plain (isRecursive_named first)] at hcollapse
        obtain ⟨rfl, -⟩ := List.cons.inj hcollapse
        rw [isRecursive_named] at hrecursive
        cases hrecursive

end Ahead

/-- What is left of a pattern are its last components. -/
theorem suffix_of_reaches (h : Reaches patterns start rest path) : rest <:+ patterns := by
  induction h with
  | start => exact List.suffix_refl _
  | literal _ _ ih => exact (List.suffix_cons _ _).trans ih
  | dots _ _ ih => exact (List.suffix_cons _ _).trans ih
  | deeper _ hcollapse _ _ ih => exact hcollapse ▸ (collapse_suffix _).trans ih
  | behind _ hcollapse _ _ _ ih =>
      exact ((List.suffix_cons _ _).trans (List.suffix_cons _ _)).trans (hcollapse ▸ (collapse_suffix _).trans ih)
  | entry _ hcollapse _ _ _ ih => exact (List.suffix_cons _ _).trans (hcollapse ▸ (collapse_suffix _).trans ih)

/-- Whatever an expansion looks at lies on the way to the base of its pattern or below the base. -/
theorem base_of_reaches (hdown : Downward (names.map named ++ others)) (hstart : start.text ≠ "")
    (hup : ".." ∉ fs.namesTo start) (h : Reaches (names.map named ++ others) start rest path) :
    path.text ≠ "" ∧ ".." ∉ fs.namesTo path
      ∧ Ahead fs (climb (climb [] (fs.namesTo start)) names) others rest path := by
  have hvalid : ∀ {path name}, path.text ≠ "" → ".." ∉ fs.namesTo path → ValidName name → (below path name).text ≠ ""
      ∧ ".." ∉ fs.namesTo (below path name)
      ∧ climb [] (fs.namesTo (below path name)) = climbStep (climb [] (fs.namesTo path)) name := by
    intro path name hpath hup hname
    obtain ⟨hne, -, hnameUp, hslash, -⟩ := hname
    obtain ⟨hplace, hnames⟩ := climb_namesTo_below fs hpath hne hslash
    exact ⟨text_below_ne path hne hslash, hnames hup hnameUp, hplace⟩
  induction h with
  | start => exact ⟨hstart, hup, .inr ⟨names, rfl, rfl⟩⟩
  | literal hreaches hliteral ih =>
      obtain ⟨hpath, hup, hahead⟩ := ih
      obtain ⟨hne, hnameUp, hslash⟩ :=
        hdown.literals _ ((suffix_of_reaches hreaches).subset List.mem_cons_self) _ hliteral
      obtain ⟨hplace, hnames⟩ := climb_namesTo_below fs hpath hne hslash
      refine ⟨text_below_ne _ hne hslash, hnames hup hnameUp, hahead.onward hplace hnameUp fun literal hother => ?_⟩
      exact Option.some.inj (hliteral.symm.trans hother)
  | @dots pattern rest path name hreaches hmem ih =>
      obtain ⟨hpath, hup, hahead⟩ := ih
      have hnameUp : name ≠ ".." := by
        rintro rfl
        exact hdown.dots _ ((suffix_of_reaches hreaches).subset List.mem_cons_self) hmem
      obtain rfl : name = "." := (eq_dots_of_mem hmem).resolve_right hnameUp
      have hnames := namesTo_child fs hpath (by decide : "." ≠ "") (by decide)
      refine ⟨Path.text_child_ne (by decide) (by decide), ?_, hahead.onward ?_ hnameUp fun literal hliteral => ?_⟩
      · rw [hnames]
        simpa using hup
      · rw [hnames, climb_append]
        rfl
      · unfold matchingDots at hmem
        split at hmem
        · have hmatches := matches_literal hliteral (List.mem_filter.1 hmem).2
          exact String.toList_inj.1 hmatches
        · cases hmem
  | deeper hreaches hcollapse hrecursive hname ih =>
      obtain ⟨hpath, hup, hahead⟩ := ih
      obtain ⟨hnext, hnextUp, hplace⟩ := hvalid hpath hup hname
      refine ⟨hnext, hnextUp, .inl ((hahead.reached hcollapse hrecursive).trans ?_)⟩
      rw [hplace, climbStep_of_ordinary hname.ordinary]
      exact List.prefix_append _ _
  | behind hreaches hcollapse hrecursive hname _ ih =>
      obtain ⟨hpath, hup, hahead⟩ := ih
      obtain ⟨hnext, hnextUp, hplace⟩ := hvalid hpath hup hname
      refine ⟨hnext, hnextUp, .inl ((hahead.reached hcollapse hrecursive).trans ?_)⟩
      rw [hplace, climbStep_of_ordinary hname.ordinary]
      exact List.prefix_append _ _
  | entry hreaches hcollapse hplain hname hmatches ih =>
      obtain ⟨hpath, hup, hahead⟩ := ih
      obtain ⟨hnext, hnextUp, hplace⟩ := hvalid hpath hup hname
      rw [eq_of_collapse hcollapse hplain] at hahead
      rw [matchesName_below hpath hname] at hmatches
      refine ⟨hnext, hnextUp, hahead.onward hplace hname.2.2.1 fun literal hliteral => ?_⟩
      exact String.toList_inj.1 (matches_literal hliteral hmatches)

/-- If there are no links on the way to its base and below it, a pattern avoids every change elsewhere. -/
theorem avoids_of_base {pattern : List Char} (hpattern : components pattern = .ok (names.map named ++ others))
    (hdown : Downward (names.map named ++ others)) (hup : ".." ∉ fs.namesTo (startOf pattern))
    (hbase : climb (climb [] (fs.namesTo (startOf pattern))) names = base)
    (hunlinked : ∀ place, place <+: base ∨ base <+: place → ∀ text, fs.entry? place ≠ some (.link text))
    (hchanged : ∀ place, changed place → ¬ (place <+: base ∨ base <+: place)) : Avoids fs pattern changed := by
  intro patterns hpatterns rest path hreaches
  obtain rfl := Except.ok.inj (hpattern.symm.trans hpatterns)
  have hstart : (startOf pattern).text ≠ "" := by
    unfold startOf
    split <;> decide
  obtain ⟨-, hpathUp, hahead⟩ := base_of_reaches hdown hstart hup hreaches
  rw [hbase] at hahead
  have hnear : ∀ place, place <+: climb [] (fs.namesTo path) → place <+: base ∨ base <+: place := by
    intro place hplace
    rcases hahead with hbelow | ⟨ahead, hrest, hclimb⟩
    · exact List.prefix_or_prefix_of_prefix hplace hbelow
    · refine .inl (hplace.trans (hclimb ▸ prefix_climb fun hmem => ?_))
      have hpattern : named ".." ∈ rest := hrest ▸ List.mem_append_left _ (List.mem_map_of_mem hmem)
      exact (hdown.literals _ ((suffix_of_reaches hreaches).subset hpattern) _ (literal?_named "..")).2.1 rfl
  have hplain : fs.Unlinked [] (fs.namesTo path) := fun front hfront =>
    hunlinked _ (hnear _ ( climb_prefix hpathUp hfront))
  exact fun place hplace hchange => hchanged place hchange (hnear place (prefix_of_mem_way hplain hpathUp hplace))

end ModPackager.Glob
