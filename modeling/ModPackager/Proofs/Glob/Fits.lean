import ModPackager.Proofs.Glob.Below
import ModPackager.Proofs.Glob.Reach

/-!
# What fits a pattern

`Fits` says which paths fit the components of a pattern, whatever a file system holds. Of the files that it holds, an
expansion finds those that fit and no other ones: what it finds fits (`fits_of_mem`), and every file whose path fits is
found, as each step makes the path longer or the pattern shorter, and longer paths lead nowhere (`Fits.mem_arrive`).
-/

namespace ModPackager.Glob

open FileSystem

namespace Search

/-- The paths that fit the components of a pattern, from where its expansion starts. Two stars stand for any number of
names and are tried on the names of entries alone, as is what comes behind them; nothing but directories fits them at
the end of a pattern. -/
inductive Fits : List Pattern → Path → Path → Prop
  | done {path} : Fits [] path path
  | literal {pattern rest path found name} : pattern.literal? = some name → (below path name).text ≠ "" →
      Fits rest (below path name) found → Fits (pattern :: rest) path found
  | dots {pattern rest path found name} : pattern.literal? = none → name ∈ matchingDots pattern →
      Fits rest (path.child name) found → Fits (pattern :: rest) path found
  | entry {pattern rest path found name} : pattern.literal? = none → pattern.isRecursive = false → ValidName name →
      pattern.matches name.toList = true → Fits rest (below path name) found → Fits (pattern :: rest) path found
  /-- Several in a row are like one. -/
  | row {pattern next rest path found} : pattern.isRecursive = true → next.isRecursive = true →
      Fits (next :: rest) path found → Fits (pattern :: next :: rest) path found
  | behind {pattern next rest path found name} : pattern.isRecursive = true → next.isRecursive = false →
      ValidName name → next.matches name.toList = true → Fits rest (below path name) found →
      Fits (pattern :: next :: rest) path found
  | deeper {pattern rest path found name} : pattern.isRecursive = true → ValidName name →
      Fits (pattern :: rest) (below path name) found → Fits (pattern :: rest) path found

/-- Components as they are cut out of a text: two stars stand alone, and no literal one has a slash in it. -/
structure Cut (patterns : List Pattern) : Prop where
  alone : ∀ pattern ∈ patterns, pattern.isRecursive = true → pattern = [.anyDepth]
  slashless : ∀ pattern ∈ patterns, ∀ name, pattern.literal? = some name → '/' ∉ name.toList

variable {search : Search} {fs : FileSystem} {patterns rest : List Pattern} {pattern next : Pattern}
  {path found child : Path} {name : String} {fuel : Nat}

theorem Cut.tail (h : Cut (pattern :: rest)) : Cut rest :=
  ⟨fun other hother => h.alone other (List.mem_cons_of_mem _ hother),
    fun other hother => h.slashless other (List.mem_cons_of_mem _ hother)⟩

/-! ### One step of an expansion -/

/-- A pattern without wildcards is spelled by its characters. -/
theorem literal?_eq_some_iff : pattern.literal? = some name ↔ pattern = name.toList.map Token.char := by
  rw [Pattern.literal?, Option.map_eq_map, Option.map_eq_some_iff]
  constructor
  · rintro ⟨chars, hchars, rfl⟩
    rw [String.toList_ofList]
    induction pattern generalizing chars with
    | nil => simp_all
    | cons token tokens ih =>
        rw [List.mapM_cons] at hchars
        cases token with
        | char c =>
            obtain ⟨others, hothers, rfl⟩ : ∃ others, tokens.mapM _ = some others ∧ c :: others = chars := by
              simpa [bind, Option.bind_eq_some_iff] using hchars
            rw [List.map_cons, ih others hothers]
        | _ => simp at hchars
  · rintro rfl
    refine ⟨name.toList, ?_, String.ofList_toList⟩
    induction name.toList with
    | nil => rfl
    | cons c rest ih => rw [List.map_cons, List.mapM_cons, ih]; rfl
theorem literal?_of_isRecursive (h : pattern.isRecursive = true) : pattern.literal? = none := by
  rw [Option.eq_none_iff_forall_ne_some]
  intro name hliteral
  rw [literal?_eq_some_iff.1 hliteral] at h
  simp [Pattern.isRecursive] at h

theorem arrive_cons (search : Search) (fuel : Nat) (pattern : Pattern) (rest : List Pattern) (path : Path) :
    search.arrive (fuel + 1) (pattern :: rest) path = search.expand fuel (pattern :: rest) path := by
  simp only [arrive]

theorem mem_expand_literal (hliteral : pattern.literal? = some name) :
    found ∈ search.expand (fuel + 1) (pattern :: rest) path ↔
      (if name = "." ∨ name = ".." then search.fs.holdsDirectory path = true else search.holds (below path name) = true)
        ∧ found ∈ search.arrive fuel rest (below path name) := by
  rw [expand, hliteral]
  by_cases hspecial : name = "." ∨ name = ".."
  · simp [hspecial]
  · simp [hspecial]

theorem mem_expand_wild (hliteral : pattern.literal? = none) :
    found ∈ search.expand (fuel + 1) (pattern :: rest) path ↔ search.fs.holdsDirectory path = true
      ∧ ((∃ dots ∈ matchingDots pattern, found ∈ search.arrive fuel rest (path.child dots))
        ∨ ∃ child ∈ search.children path, found ∈ search.visit fuel (pattern :: rest) child) := by
  rw [expand, hliteral]
  simp only
  split
  next hdirectory => simp [hdirectory]
  next hdirectory => simp [hdirectory]

theorem mem_visit_recursive (hcollapse : collapse patterns = pattern :: rest) (hrecursive : pattern.isRecursive = true) :
    found ∈ search.visit (fuel + 1) patterns path ↔
      (rest = [] ∧ search.fs.holdsDirectory path = true ∧ found = path)
      ∨ (∃ next others, rest = next :: others ∧ matchesName next path = true ∧ found ∈ search.arrive fuel others path)
      ∨ (search.fs.holdsDirectory path = true ∧ found ∈ search.expand fuel (pattern :: rest) path) := by
  rw [visit, hcollapse]
  simp only [if_pos hrecursive, List.mem_append]
  cases rest with
  | nil => by_cases hdirectory : search.fs.holdsDirectory path = true <;> simp [hdirectory]
  | cons next others =>
      by_cases hdirectory : search.fs.holdsDirectory path = true <;>
        by_cases hmatches : matchesName next path = true <;> simp [hdirectory, hmatches]

theorem mem_visit_entry (hcollapse : collapse patterns = pattern :: rest) (hrecursive : pattern.isRecursive = false) :
    found ∈ search.visit (fuel + 1) patterns path ↔
      matchesName pattern path = true ∧ found ∈ search.arrive fuel rest path := by
  rw [visit, hcollapse]
  simp only [hrecursive, Bool.false_eq_true, if_false]
  split
  next hmatches => simp [hmatches]
  next hmatches => simp [hmatches]

theorem mem_children_iff : child ∈ search.children path ↔
    ∃ dir, search.fs.resolve true path = .ok (.found dir .directory) ∧
      ∃ name ∈ search.fs.names dir, child = below path name := by
  unfold children
  constructor
  · intro h
    split at h
    next dir hlookup =>
        obtain ⟨name, hname, rfl⟩ := List.mem_map.1 h
        exact ⟨dir, lookup?_eq_some_iff.1 hlookup, name, List.mem_mergeSort.1 hname, rfl⟩
    · cases h
  · rintro ⟨dir, hdir, name, hname, rfl⟩
    rw [lookup?_eq_some_iff.2 hdir]
    exact List.mem_map_of_mem (List.mem_mergeSort.2 hname)

/-! ### Several recursive components in a row -/

theorem fits_of_collapse (h : Fits (collapse patterns) path found) : Fits patterns path found := by
  fun_induction collapse patterns with
  | case1 a b rest hboth ih =>
      rw [Bool.and_eq_true] at hboth
      exact .row hboth.1 hboth.2 (ih h)
  | case2 => exact h
  | case3 => exact h

theorem eq_of_collapse (h : collapse patterns = pattern :: rest) (hrecursive : pattern.isRecursive = false) :
    patterns = pattern :: rest := by
  fun_induction collapse patterns with
  | case1 a b rest' hboth ih =>
      rw [Bool.and_eq_true] at hboth
      obtain ⟨rfl, -⟩ := List.cons.inj (ih h)
      rw [hrecursive] at hboth
      cases hboth.2
  | case2 => exact h
  | case3 => exact h

/-- What comes behind recursive components in a row is none. -/
theorem plain_of_collapse (h : collapse patterns = pattern :: next :: rest) (hrecursive : pattern.isRecursive = true) :
    next.isRecursive = false := by
  fun_induction collapse patterns with
  | case1 a b others hboth ih => exact ih h
  | case2 a b others hboth =>
      obtain ⟨rfl, hbehind⟩ := List.cons.inj h
      obtain ⟨rfl, -⟩ := List.cons.inj hbehind
      simpa [hrecursive] using hboth
  | case3 patterns hshort => exact absurd h (hshort _ _ _)

/-- A component without wildcards goes down to the entry of its name. -/
theorem fits_literal (hliteral : pattern.literal? = some name) :
    Fits (pattern :: rest) path found ↔ (below path name).text ≠ "" ∧ Fits rest (below path name) found := by
  have hplain : ¬ pattern.isRecursive = true := by
    intro hrecursive
    rw [literal?_of_isRecursive hrecursive] at hliteral
    cases hliteral
  constructor
  · intro h
    cases h with
    | literal hname hnext hrest =>
        rw [hliteral, Option.some.injEq] at hname
        subst hname
        exact ⟨hnext, hrest⟩
    | dots hnone => simp [hliteral] at hnone
    | entry hnone => simp [hliteral] at hnone
    | row hrecursive => exact absurd hrecursive hplain
    | behind hrecursive => exact absurd hrecursive hplain
    | deeper hrecursive => exact absurd hrecursive hplain
  · rintro ⟨hnext, hrest⟩
    exact .literal hliteral hnext hrest

/-! ### What is found fits -/

theorem mem_result (h : found ∈ search.result path) : found = path := by
  unfold result at h
  split at h
  · cases h
  · exact List.mem_singleton.1 h

theorem not_holdsDirectory_of_holdsFile (h : fs.holdsFile path = true) : fs.holdsDirectory path = false := by
  unfold holdsFile at h
  unfold holdsDirectory
  split at h
  next hlookup => rw [hlookup]
  · cases h

theorem eq_dots_of_mem (h : name ∈ matchingDots pattern) : name = "." ∨ name = ".." := by
  unfold matchingDots at h
  split at h
  · have hmem := List.mem_of_mem_filter h
    simp only [List.mem_cons, List.not_mem_nil, or_false] at hmem
    exact hmem.symm
  · cases h

theorem text_ne_of_holds (h : search.holds path = true) : path.text ≠ "" := by
  intro hempty
  have hfault : ∀ follow, search.fs.resolve follow path = .error .notFound := by
    intro follow
    simp [resolve, hempty]
  simp [Search.holds, FileSystem.holds, lookup?, lookup, hfault, bind, Except.bind, Except.toOption] at h

theorem text_ne_of_mem_literal (hliteral : pattern.literal? = some name)
    (h : found ∈ search.expand (fuel + 1) (pattern :: rest) path) : (below path name).text ≠ "" := by
  obtain ⟨hthere, -⟩ := (mem_expand_literal hliteral).1 h
  split at hthere
  next hspecial => rcases hspecial with rfl | rfl <;> exact text_below_ne path (by decide) (by decide)
  · exact text_ne_of_holds hthere

/-- Every file that an expansion finds fits. -/
theorem fits_of_mem (wf : search.fs.WellFormed) (hfile : search.fs.holdsFile found = true) (fuel : Nat) :
    (∀ patterns path, path.text ≠ "" → found ∈ search.expand fuel patterns path → Fits patterns path found)
    ∧ (∀ patterns path, path.text ≠ "" → found ∈ search.arrive fuel patterns path → Fits patterns path found)
    ∧ ∀ pattern rest path name, path.text ≠ "" → pattern.literal? = none → ValidName name →
      found ∈ search.visit fuel (pattern :: rest) (below path name) → Fits (pattern :: rest) path found := by
  have hresult : ∀ {path}, found ∈ search.result path → Fits [] path found := fun h => mem_result h ▸ .done
  induction fuel with
  | zero =>
      refine ⟨fun _ _ _ => by simp [expand], fun patterns path _ h => ?_, fun _ _ _ _ _ _ _ => by simp [visit]⟩
      cases patterns with
      | nil => exact hresult (by simpa only [arrive] using h)
      | cons => simp [arrive] at h
  | succ fuel ih =>
      obtain ⟨hexpand, harrive, hvisit⟩ := ih
      refine ⟨fun patterns path hpath h => ?_, fun patterns path hpath h => ?_,
        fun pattern rest path name hpath hliteral hname h => ?_⟩
      · cases patterns with
        | nil => simp [expand] at h
        | cons pattern rest =>
            cases hliteral : pattern.literal? with
            | some name =>
                have hnext := text_ne_of_mem_literal hliteral h
                exact .literal hliteral hnext (harrive _ _ hnext ((mem_expand_literal hliteral).1 h).2)
            | none =>
                obtain ⟨-, ⟨dots, hdots, h⟩ | ⟨child, hchild, h⟩⟩ := (mem_expand_wild hliteral).1 h
                · have hnext : (path.child dots).text ≠ "" := by
                    rcases eq_dots_of_mem hdots with rfl | rfl <;> exact Path.text_child_ne (by decide) (by decide)
                  exact .dots hliteral hdots (harrive _ _ hnext h)
                · obtain ⟨name, hname, rfl⟩ := exists_name_of_mem_children wf hchild
                  exact hvisit _ _ _ _ hpath hliteral hname h
      · cases patterns with
        | nil => exact hresult (by simpa only [arrive] using h)
        | cons pattern rest => exact hexpand _ _ hpath (by simpa only [arrive] using h)
      · have hnext := text_below_ne path hname.1 hname.2.2.2.1
        cases hcollapse : collapse (pattern :: rest) with
        | nil => simp [visit, hcollapse] at h
        | cons last others =>
            cases hrecursive : last.isRecursive with
            | false =>
                obtain ⟨rfl, rfl⟩ := List.cons.inj (eq_of_collapse hcollapse hrecursive)
                obtain ⟨hmatches, h⟩ := (mem_visit_entry hcollapse hrecursive).1 h
                rw [matchesName_below hpath hname] at hmatches
                exact .entry hliteral hrecursive hname hmatches (harrive _ _ hnext h)
            | true =>
                refine fits_of_collapse (hcollapse ▸ ?_)
                rcases (mem_visit_recursive hcollapse hrecursive).1 h with
                  ⟨-, hdirectory, rfl⟩ | ⟨next, deeper, rfl, hmatches, h⟩ | ⟨-, h⟩
                · rw [not_holdsDirectory_of_holdsFile hfile] at hdirectory
                  cases hdirectory
                · rw [matchesName_below hpath hname] at hmatches
                  exact .behind hrecursive (plain_of_collapse hcollapse hrecursive) hname hmatches (harrive _ _ hnext h)
                · exact .deeper hrecursive hname (hexpand _ _ hnext h)

/-- If only directories count, nothing else is found. -/
theorem holdsDirectory_of_mem (honly : search.onlyDirectories = true) (fuel : Nat) :
    (∀ patterns path, found ∈ search.expand fuel patterns path → search.fs.holdsDirectory found = true)
    ∧ (∀ patterns path, found ∈ search.arrive fuel patterns path → search.fs.holdsDirectory found = true)
    ∧ ∀ patterns path, found ∈ search.visit fuel patterns path → search.fs.holdsDirectory found = true := by
  have hresult : ∀ {path}, found ∈ search.result path → search.fs.holdsDirectory found = true := by
    intro path h
    obtain rfl := mem_result h
    by_contra hdirectory
    simp [result, honly, hdirectory] at h
  induction fuel with
  | zero =>
      refine ⟨fun _ _ => by simp [expand], fun patterns path h => ?_, fun _ _ => by simp [visit]⟩
      cases patterns with
      | nil => exact hresult (by simpa only [arrive] using h)
      | cons => simp [arrive] at h
  | succ fuel ih =>
      obtain ⟨hexpand, harrive, hvisit⟩ := ih
      refine ⟨fun patterns path h => ?_, fun patterns path h => ?_, fun patterns path h => ?_⟩
      · cases patterns with
        | nil => simp [expand] at h
        | cons pattern rest =>
            cases hliteral : pattern.literal? with
            | some name => exact harrive _ _ ((mem_expand_literal hliteral).1 h).2
            | none =>
                obtain ⟨-, ⟨_, -, h⟩ | ⟨_, -, h⟩⟩ := (mem_expand_wild hliteral).1 h
                · exact harrive _ _ h
                · exact hvisit _ _ h
      · cases patterns with
        | nil => exact hresult (by simpa only [arrive] using h)
        | cons pattern rest => exact hexpand _ _ (by simpa only [arrive] using h)
      · cases hcollapse : collapse patterns with
        | nil => simp [visit, hcollapse] at h
        | cons last others =>
            cases hrecursive : last.isRecursive with
            | false => exact harrive _ _ ((mem_visit_entry hcollapse hrecursive).1 h).2
            | true =>
                rcases (mem_visit_recursive hcollapse hrecursive).1 h with
                  ⟨-, hdirectory, rfl⟩ | ⟨_, _, -, -, h⟩ | ⟨-, h⟩
                · exact hdirectory
                · exact harrive _ _ h
                · exact hexpand _ _ h

/-! ### What fits is found -/

/-- What is true of a path that fits, and of a path if it is of one below it, is true of the path where it starts. -/
theorem Fits.upward {motive : Path → Prop} (hfits : Fits patterns path found) (hcut : Cut patterns) (hpath : path.text ≠ "")
    (hfound : motive found)
    (hbelow : ∀ path name, path.text ≠ "" → '/' ∉ name.toList → (Search.below path name).text ≠ "" →
      motive (Search.below path name) → motive path)
    (hdots : ∀ path name, path.text ≠ "" → name = "." ∨ name = ".." → motive (path.child name) → motive path) :
    motive path := by
  have hentry : ∀ {path name}, path.text ≠ "" → ValidName name →
      ((Search.below path name).text ≠ "" → motive (Search.below path name)) → motive path := by
    intro path name hpath hname ih
    have hnext := text_below_ne path hname.1 hname.2.2.2.1
    exact hbelow path name hpath hname.2.2.2.1 hnext (ih hnext)
  induction hfits with
  | done => exact hfound
  | literal hliteral hnext _ ih =>
      exact hbelow _ _ hpath (hcut.slashless _ List.mem_cons_self _ hliteral) hnext (ih hcut.tail hnext hfound)
  | dots _ hmem _ ih =>
      have hname := eq_dots_of_mem hmem
      refine hdots _ _ hpath hname (ih hcut.tail ?_ hfound)
      rcases hname with rfl | rfl <;> exact Path.text_child_ne (by decide) (by decide)
  | entry _ _ hname _ _ ih => exact hentry hpath hname fun hnext => ih hcut.tail hnext hfound
  | row _ _ _ ih => exact ih hcut.tail hpath hfound
  | behind _ _ hname _ _ ih => exact hentry hpath hname fun hnext => ih hcut.tail.tail hnext hfound
  | deeper _ hname _ ih => exact hentry hpath hname fun hnext => ih hcut hnext hfound

/-- A path leads to something. -/
def Resolves (fs : FileSystem) (path : Path) : Prop := ∃ place entry, fs.resolve true path = .ok (.found place entry)

/-- What is below a path leads to something only if the path leads to a directory. -/
theorem holdsDirectory_of_below (hpath : path.text ≠ "") (hslash : '/' ∉ name.toList)
    (hnext : Resolves fs (below path name)) : fs.holdsDirectory path = true := by
  obtain ⟨place, entry, hresolve⟩ := hnext
  exact holdsDirectory_iff.2 (resolve_of_below hpath hslash hresolve)

theorem holdsDirectory_of_dots (hpath : path.text ≠ "") (hname : name = "." ∨ name = "..")
    (hnext : Resolves fs (path.child name)) : fs.holdsDirectory path = true := by
  obtain ⟨place, entry, hresolve⟩ := hnext
  refine holdsDirectory_iff.2 ?_
  rcases hname with rfl | rfl <;> exact resolve_of_child (by decide) (by decide) hpath hresolve

/-- A path that leads anywhere comes by paths that do. -/
theorem Fits.resolves (hfits : Fits patterns path found) (hcut : Cut patterns) (hpath : path.text ≠ "")
    (hfound : Resolves fs found) : Resolves fs path := by
  have hdirectory : ∀ {path}, fs.holdsDirectory path = true → Resolves fs path := by
    intro path hpath
    obtain ⟨dir, hdir⟩ := holdsDirectory_iff.1 hpath
    exact ⟨dir, _, hdir⟩
  exact hfits.upward (motive := Resolves fs) hcut hpath hfound
    (fun _ _ hpath hslash _ hnext => hdirectory (holdsDirectory_of_below hpath hslash hnext))
    fun _ _ hpath hname hnext => hdirectory (holdsDirectory_of_dots hpath hname hnext)

/-- And all of them but itself lead to directories. -/
theorem Fits.holdsDirectory (hfits : Fits (pattern :: rest) path found) (hcut : Cut (pattern :: rest))
    (hpath : path.text ≠ "") (hfound : Resolves fs found) : fs.holdsDirectory path = true := by
  have hentry : ∀ {left name}, ValidName name → Cut left → Fits left (Search.below path name) found →
      fs.holdsDirectory path = true := by
    intro left name hname hleft hfits
    have hnext := text_below_ne path hname.1 hname.2.2.2.1
    exact holdsDirectory_of_below hpath hname.2.2.2.1 (hfits.resolves hleft hnext hfound)
  generalize hpatterns : pattern :: rest = patterns at hfits hcut
  induction hfits generalizing pattern rest with
  | done => cases hpatterns
  | literal hliteral hnext hrest =>
      refine holdsDirectory_of_below hpath (hcut.slashless _ List.mem_cons_self _ hliteral) ?_
      exact hrest.resolves hcut.tail hnext hfound
  | dots _ hmem hrest =>
      have hname := eq_dots_of_mem hmem
      refine holdsDirectory_of_dots hpath hname (hrest.resolves hcut.tail ?_ hfound)
      rcases hname with rfl | rfl <;> exact Path.text_child_ne (by decide) (by decide)
  | entry _ _ hname _ hrest => exact hentry hname hcut.tail hrest
  | row _ _ _ ih => exact ih hpath hfound hentry rfl hcut.tail
  | behind _ _ hname _ hrest => exact hentry hname hcut.tail.tail hrest
  | deeper _ hname hrest => exact hentry hname hcut hrest

/-- A path that fits is not shorter than the one where it starts. -/
theorem Fits.room_le (hfits : Fits patterns path found) (hcut : Cut patterns) (hpath : path.text ≠ "") :
    room path ≤ room found := by
  refine hfits.upward (motive := fun path => room path ≤ room found) hcut hpath le_rfl
    (fun path name hpath hslash _ hnext => ?_) fun path name hpath hname hnext => ?_
  · exact (room_le_below hpath hslash).trans hnext
  · have hchild : room path ≤ room (path.child name) := by
      rcases hname with rfl | rfl <;> exact (Nat.le_add_right _ _).trans (room_child hpath (by decide))
    exact hchild.trans hnext

/-- Of recursive components in a row only the last one matters. -/
theorem expand_collapse (hcut : Cut patterns) (fuel : Nat) (path : Path) :
    search.expand fuel (collapse patterns) path = search.expand fuel patterns path := by
  fun_induction collapse patterns with
  | case1 a b rest hboth ih =>
      rw [ih hcut.tail]
      rw [Bool.and_eq_true] at hboth
      obtain rfl : a = b := by
        rw [hcut.alone a (by simp) hboth.1, hcut.alone b (by simp) hboth.2]
      cases fuel with
      | zero => rfl
      | succ fuel =>
          have hvisit : search.visit fuel (a :: rest) = search.visit fuel (a :: a :: rest) := by
            funext child
            cases fuel with
            | zero => rfl
            | succ fuel => simp [visit, collapse, hboth.1]
          rw [hcut.alone a (by simp) hboth.1] at hvisit ⊢
          simp only [expand, literal?_of_isRecursive (by rfl : Pattern.isRecursive [.anyDepth] = true), hvisit]
          rfl
  | case2 => rfl
  | case3 => rfl

theorem collapse_recursive (rest : List Pattern) (hrecursive : pattern.isRecursive = true) :
    ∃ last others, collapse (pattern :: rest) = last :: others ∧ last.isRecursive = true := by
  induction rest generalizing pattern with
  | nil => exact ⟨pattern, [], rfl, hrecursive⟩
  | cons next rest ih =>
      rw [collapse]
      split
      next hboth =>
          rw [Bool.and_eq_true] at hboth
          exact ih hboth.2
      · exact ⟨pattern, next :: rest, rfl, hrecursive⟩

theorem collapse_plain (hplain : pattern.isRecursive = false) : collapse (pattern :: rest) = pattern :: rest := by
  cases rest <;> simp [collapse, hplain]

theorem mem_children_of_resolves (hpath : path.text ≠ "") (hname : ValidName name)
    (hnext : Resolves search.fs (below path name)) : below path name ∈ search.children path := by
  obtain ⟨place, entry, hresolve⟩ := hnext
  obtain ⟨hne, hdot, hup, hslash, -⟩ := hname
  obtain ⟨dir, hdir, hmem⟩ := exists_entry_of_below hpath hne hslash hdot hup hresolve
  exact mem_children_iff.2 ⟨dir, hdir, name, hmem, rfl⟩

/-- Every file whose path fits is found. Two steps for each component are enough, and two for each entry on the way. -/
theorem Fits.mem_arrive (honly : search.onlyDirectories = false) (hfits : Fits patterns path found) (hcut : Cut patterns)
    (hpath : path.text ≠ "") (hfile : Resolves search.fs found)
    (hfuel : 2 * patterns.length + 2 * (room found - room path) ≤ fuel) : found ∈ search.arrive fuel patterns path := by
  induction hfits generalizing fuel with
  | done => simp [arrive, result, honly]
  | @literal pattern rest path found name hliteral hnext hrest ih =>
      have hslash := hcut.slashless _ List.mem_cons_self _ hliteral
      have hresolves := hrest.resolves hcut.tail hnext hfile
      have hlonger := room_le_below hpath hslash
      rw [List.length_cons] at hfuel
      obtain ⟨fuel, rfl⟩ : ∃ fewer, fuel = fewer + 2 := ⟨fuel - 2, by omega⟩
      rw [arrive_cons]
      refine (mem_expand_literal hliteral).2 ⟨?_, ih hcut.tail hnext hfile (by omega)⟩
      split
      · exact holdsDirectory_of_below hpath hslash hresolves
      · obtain ⟨place, entry, hresolve⟩ := hresolves
        simp [Search.holds, FileSystem.holds, lookup?_eq_some_iff.2 hresolve]
  | @dots pattern rest path found name hliteral hmem hrest ih =>
      have hdirectory := (Fits.dots hliteral hmem hrest).holdsDirectory hcut hpath hfile
      have hnext : (path.child name).text ≠ "" ∧ room path ≤ room (path.child name) := by
        have hroom : ∀ {dots : String}, '/' ∉ dots.toList → room path ≤ room (path.child dots) := fun hslash =>
          (Nat.le_add_right _ _).trans (room_child hpath hslash)
        rcases eq_dots_of_mem hmem with rfl | rfl <;>
          exact ⟨Path.text_child_ne (by decide) (by decide), hroom (by decide)⟩
      rw [List.length_cons] at hfuel
      obtain ⟨fuel, rfl⟩ : ∃ fewer, fuel = fewer + 2 := ⟨fuel - 2, by omega⟩
      rw [arrive_cons]
      exact (mem_expand_wild hliteral).2 ⟨hdirectory, .inl ⟨name, hmem, ih hcut.tail hnext.1 hfile (by omega)⟩⟩
  | @entry pattern rest path found name hliteral hplain hname hmatches hrest ih =>
      have hdirectory := (Fits.entry hliteral hplain hname hmatches hrest).holdsDirectory hcut hpath hfile
      have hnext := text_below_ne path hname.1 hname.2.2.2.1
      have hchild := mem_children_of_resolves hpath hname (hrest.resolves hcut.tail hnext hfile)
      have hlonger := room_lt_below hpath hname
      have hroom := hrest.room_le hcut.tail hnext
      rw [List.length_cons] at hfuel
      obtain ⟨fuel, rfl⟩ : ∃ fewer, fuel = fewer + 3 := ⟨fuel - 3, by omega⟩
      rw [arrive_cons]
      refine (mem_expand_wild hliteral).2 ⟨hdirectory, .inr ⟨_, hchild, ?_⟩⟩
      rw [mem_visit_entry (collapse_plain hplain) hplain, matchesName_below hpath hname]
      exact ⟨hmatches, ih hcut.tail hnext hfile (by omega)⟩
  | @row pattern next rest path found hrecursive hnext hrest ih =>
      rw [List.length_cons] at hfuel
      obtain ⟨fuel, rfl⟩ : ∃ fewer, fuel = fewer + 1 := ⟨fuel - 1, by omega⟩
      have hfound : found ∈ search.arrive (fuel + 1) (next :: rest) path := ih hcut.tail hpath hfile (by omega)
      rw [arrive_cons, ← expand_collapse hcut.tail] at hfound
      rwa [arrive_cons, ← expand_collapse hcut, collapse, hrecursive, hnext, Bool.and_self, if_pos rfl]
  | @behind pattern next rest path found name hrecursive hplain hname hmatches hrest ih =>
      have hdirectory := (Fits.behind hrecursive hplain hname hmatches hrest).holdsDirectory hcut hpath hfile
      have hnext := text_below_ne path hname.1 hname.2.2.2.1
      have hchild := mem_children_of_resolves hpath hname (hrest.resolves hcut.tail.tail hnext hfile)
      have hlonger := room_lt_below hpath hname
      have hroom := hrest.room_le hcut.tail.tail hnext
      have hcollapse : collapse (pattern :: next :: rest) = pattern :: next :: rest := by simp [collapse, hplain]
      rw [List.length_cons, List.length_cons] at hfuel
      obtain ⟨fuel, rfl⟩ : ∃ fewer, fuel = fewer + 3 := ⟨fuel - 3, by omega⟩
      rw [arrive_cons]
      refine (mem_expand_wild (literal?_of_isRecursive hrecursive)).2 ⟨hdirectory, .inr ⟨_, hchild, ?_⟩⟩
      refine (mem_visit_recursive hcollapse hrecursive).2 (.inr (.inl ⟨next, rest, rfl, ?_, ?_⟩))
      · rwa [matchesName_below hpath hname]
      · exact ih hcut.tail.tail hnext hfile (by omega)
  | @deeper pattern rest path found name hrecursive hname hrest ih =>
      have hdirectory := (Fits.deeper hrecursive hname hrest).holdsDirectory hcut hpath hfile
      have hnext := text_below_ne path hname.1 hname.2.2.2.1
      have hchild := mem_children_of_resolves hpath hname (hrest.resolves hcut hnext hfile)
      have hlonger := room_lt_below hpath hname
      have hroom := hrest.room_le hcut hnext
      obtain ⟨last, others, hcollapse, hlast⟩ := collapse_recursive rest hrecursive
      rw [List.length_cons] at hfuel ih
      obtain ⟨fuel, rfl⟩ : ∃ fewer, fuel = fewer + 3 := ⟨fuel - 3, by omega⟩
      have hfound : found ∈ search.arrive (fuel + 1) (pattern :: rest) (Search.below path name) :=
        ih hcut hnext hfile (by omega)
      rw [arrive_cons, ← expand_collapse hcut, hcollapse] at hfound
      rw [arrive_cons]
      refine (mem_expand_wild (literal?_of_isRecursive hrecursive)).2 ⟨hdirectory, .inr ⟨_, hchild, ?_⟩⟩
      exact (mem_visit_recursive hcollapse hlast).2 (.inr (.inr ⟨hrest.holdsDirectory hcut hnext hfile, hfound⟩))

end Search

end ModPackager.Glob
