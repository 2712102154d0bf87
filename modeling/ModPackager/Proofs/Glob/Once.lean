import ModPackager.Proofs.Glob.Fits

/-!
# Patterns that find every file once

A path is found as often as it fits, and it may fit in several ways: behind two rows of two stars, or where a dot is an
entry as well. It fits in one way only if the pattern is `Definite`. Two files then differ in their components
(`pairwise_differ`): below different entries the components part there, and what is found behind two stars has fewer
components than what is found deeper (`Fits.length_onward`).
-/

namespace ModPackager.Glob

open FileSystem

namespace Search

variable {search : Search} {fs : FileSystem} {patterns rest : List Pattern} {pattern next : Pattern}
  {path found child : Path} {name : String} {fuel : Nat}

/-! ### Definite patterns -/

/-- The recursive components of a pattern stand in one row. -/
def OneRow (patterns : List Pattern) : Prop :=
  ∀ other ∈ (patterns.dropWhile fun pattern => !pattern.isRecursive).dropWhile (·.isRecursive), other.isRecursive = false

instance : DecidablePred OneRow := fun patterns => inferInstanceAs
  (Decidable (∀ other ∈ (patterns.dropWhile fun pattern => !pattern.isRecursive).dropWhile (·.isRecursive),
    other.isRecursive = false))

theorem oneRow_cons : OneRow (pattern :: rest) ↔ if pattern.isRecursive = true
    then ∀ other ∈ rest.dropWhile (·.isRecursive), other.isRecursive = false else OneRow rest := by
  cases hrecursive : pattern.isRecursive <;> simp [OneRow, hrecursive]

/-- At most one row of recursive components, and only the last component may be read as a dot. -/
structure Definite (patterns : List Pattern) : Prop where
  oneRow : OneRow patterns
  dotsLast : ∀ pattern ∈ patterns.dropLast, pattern.literal? = none → matchingDots pattern = []

theorem oneRow_of_plain (h : ∀ pattern ∈ patterns, pattern.isRecursive = false) : OneRow patterns := by
  induction patterns with
  | nil => simp [OneRow]
  | cons pattern rest ih =>
      rw [oneRow_cons, h pattern List.mem_cons_self, if_neg Bool.false_ne_true]
      exact ih fun other hother => h other (List.mem_cons_of_mem _ hother)

/-- What comes behind a row of recursive components has none. -/
theorem OneRow.plain_behind (h : OneRow (pattern :: rest)) (hrecursive : pattern.isRecursive = true)
    (hnext : ∀ next ∈ rest.head?, next.isRecursive = false) : ∀ other ∈ rest, other.isRecursive = false := by
  rw [oneRow_cons, if_pos hrecursive] at h
  cases rest with
  | nil => simp
  | cons next rest =>
      have hplain := hnext next (by simp)
      rwa [List.dropWhile_cons_of_neg (by simp [hplain])] at h

theorem OneRow.tail (h : OneRow (pattern :: rest)) : OneRow rest := by
  cases hrecursive : pattern.isRecursive with
  | false => rwa [oneRow_cons, hrecursive, if_neg Bool.false_ne_true] at h
  | true =>
      rw [oneRow_cons, if_pos hrecursive] at h
      cases rest with
      | nil => simp [OneRow]
      | cons next rest =>
          cases hnext : next.isRecursive with
          | true =>
              rw [oneRow_cons, if_pos hnext]
              rwa [List.dropWhile_cons_of_pos (by exact hnext)] at h
          | false =>
              rw [List.dropWhile_cons_of_neg (by simp [hnext])] at h
              exact oneRow_of_plain h

theorem Definite.tail (h : Definite (pattern :: rest)) : Definite rest := by
  refine ⟨h.oneRow.tail, fun other hother => h.dotsLast other ?_⟩
  cases rest with
  | nil => cases hother
  | cons next rest => exact List.mem_cons_of_mem _ hother

theorem Definite.of_suffix (h : Definite patterns) (hsuffix : rest <:+ patterns) : Definite rest := by
  obtain ⟨front, rfl⟩ := hsuffix
  induction front with
  | nil => exact h
  | cons pattern front ih => exact ih h.tail

theorem Cut.of_suffix (h : Cut patterns) (hsuffix : rest <:+ patterns) : Cut rest :=
  ⟨fun other hother => h.alone other (hsuffix.subset hother),
    fun other hother => h.slashless other (hsuffix.subset hother)⟩

theorem collapse_suffix (patterns : List Pattern) : collapse patterns <:+ patterns := by
  fun_induction collapse patterns with
  | case1 a b rest hboth ih => exact ih.trans (List.suffix_cons _ _)
  | case2 => exact List.suffix_rfl
  | case3 => exact List.suffix_rfl

/-! ### How many components a path has -/

/-- Whether a component of a pattern takes one of a path: two stars take none or many, and a dot takes none. -/
def counts (pattern : Pattern) : Bool :=
  !pattern.isRecursive && pattern.literal?.all fun name => (Path.component? name.toList).isSome

/-- How many components of a path those of a pattern take at least. -/
def weight (patterns : List Pattern) : Nat := patterns.countP counts

theorem weight_cons (pattern : Pattern) (rest : List Pattern) :
    weight (pattern :: rest) = weight rest + if counts pattern = true then 1 else 0 := List.countP_cons

/-- A path that ends in a dot leads to no file. -/
theorem holdsFile_of_dots (wf : fs.WellFormed) {names : List String} (hname : name = "." ∨ name = "..")
    (hnames : fs.namesTo path = names ++ [name]) : fs.holdsFile path = false := by
  rw [Bool.eq_false_iff]
  intro hfile
  obtain ⟨place, contents, hresolve⟩ := holdsFile_iff.1 hfile
  obtain ⟨-, hleads⟩ := resolve_eq_ok_iff.1 hresolve
  rw [hnames] at hleads
  obtain ⟨dir, (hdir : fs.LeadsTo names dir)⟩ := hleads.split (by simp)
  obtain ⟨fewer, hfewer⟩ := hdir.walk_append
  have hwalk := (hfewer.1 hleads (by simp)).walk_eq_ok
  rcases hname with rfl | rfl
  · rw [walk_dot hdir.isDirectory, walk_nil, hdir.isDirectory] at hwalk
    simp [Entry.isDirectory] at hwalk
  · have hup : fs.entry? dir.dropLast = some .directory := by
      rcases List.eq_nil_or_concat dir with rfl | ⟨front, last, rfl⟩
      · rfl
      · rw [List.concat_eq_append, List.dropLast_concat]
        exact wf.isDirectory_of_child (List.concat_eq_append ▸ hdir.isDirectory)
    rw [walk_up hdir.isDirectory, walk_nil, hup] at hwalk
    simp [Entry.isDirectory] at hwalk

theorem holdsFile_dots (wf : fs.WellFormed) (hname : name = "." ∨ name = "..") (hpath : path.text ≠ "") :
    fs.holdsFile (path.child name) = false := by
  have hslash : name ≠ "" ∧ '/' ∉ name.toList := by rcases hname with rfl | rfl <;> decide
  exact holdsFile_of_dots wf hname (namesTo_child fs hpath hslash.1 hslash.2)

/-- The start of a relative pattern is no file. -/
theorem text_ne_dot_of_holdsFile (wf : fs.WellFormed) (hfile : fs.holdsFile path = true) : path.text ≠ "." := by
  intro hdot
  obtain ⟨before, hbefore⟩ := fs.exists_namesTo_eq
  have hrelative : path.isAbsolute = false := by rw [Path.isAbsolute, hdot]; decide
  have hnames : fs.namesTo path = before ++ ["."] := by
    rw [hbefore path hrelative, hdot]
    rfl
  rw [holdsFile_of_dots wf (.inl rfl) hnames] at hfile
  cases hfile

/-- A file that fits a definite pattern has no fewer components than the pattern takes, and no more if the pattern is
not recursive. -/
theorem Fits.length_onward (wf : fs.WellFormed) (hfits : Fits patterns path found) (hdefinite : Definite patterns)
    (hcut : Cut patterns) (hpath : path.text ≠ "") (hfile : fs.holdsFile found = true) :
    (onward path).length + weight patterns ≤ (onward found).length
      ∧ ((∀ pattern ∈ patterns, pattern.isRecursive = false) →
        (onward found).length = (onward path).length + weight patterns) := by
  have hentry : ∀ {path : Path} {name}, path.text ≠ "" → ValidName name →
      (onward (Search.below path name)).length = (onward path).length + 1 := by
    intro path name hpath hname
    rw [onward_below_validName hpath hname, List.length_append, List.length_singleton]
  induction hfits with
  | done => simp [weight]
  | @literal pattern rest path found name hliteral hnext _ ih =>
      obtain ⟨hleast, hplain⟩ := ih hdefinite.tail hcut.tail hnext hfile
      have hslash := hcut.slashless _ List.mem_cons_self _ hliteral
      have hlength : (onward (Search.below path name)).length
          = (onward path).length + if counts pattern = true then 1 else 0 := by
        have hrecursive : pattern.isRecursive = false := by
          rw [Bool.eq_false_iff]
          intro hrecursive
          rw [literal?_of_isRecursive hrecursive] at hliteral
          cases hliteral
        rw [onward_below hpath hslash hnext, List.length_append]
        cases hcomponent : Path.component? name.toList <;> simp [counts, hrecursive, hliteral, hcomponent]
      rw [weight_cons]
      refine ⟨by omega, fun hall => ?_⟩
      rw [hplain fun other hother => hall other (List.mem_cons_of_mem _ hother), hlength]
      omega
  | @dots pattern rest path found name hliteral hmem hrest _ =>
      cases rest with
      | nil =>
          cases hrest
          rw [holdsFile_dots wf (eq_dots_of_mem hmem) hpath] at hfile
          cases hfile
      | cons next rest =>
          rw [hdefinite.dotsLast pattern (by simp) hliteral] at hmem
          cases hmem
  | @entry pattern rest path found name hliteral hrecursive hname _ _ ih =>
      have hlength := hentry hpath hname
      obtain ⟨hleast, hplain⟩ := ih hdefinite.tail hcut.tail (text_below_ne _ hname.1 hname.2.2.2.1) hfile
      have hcounts : counts pattern = true := by simp [counts, hliteral, hrecursive]
      rw [weight_cons, if_pos hcounts]
      refine ⟨by omega, fun hall => ?_⟩
      rw [hplain fun other hother => hall other (List.mem_cons_of_mem _ hother), hlength]
      omega
  | @row pattern next rest path found hrecursive _ _ ih =>
      obtain ⟨hleast, -⟩ := ih hdefinite.tail hcut.tail hpath hfile
      have hcounts : counts pattern = false := by simp [counts, hrecursive]
      rw [weight_cons, hcounts, if_neg Bool.false_ne_true]
      refine ⟨hleast, fun hall => ?_⟩
      rw [hall pattern List.mem_cons_self] at hrecursive
      cases hrecursive
  | @behind pattern next rest path found name hrecursive _ hname _ _ ih =>
      have hlength := hentry hpath hname
      obtain ⟨hleast, -⟩ := ih hdefinite.tail.tail hcut.tail.tail (text_below_ne _ hname.1 hname.2.2.2.1) hfile
      have hcounts : counts pattern = false := by simp [counts, hrecursive]
      rw [weight_cons, weight_cons, hcounts, if_neg Bool.false_ne_true]
      refine ⟨by split <;> omega, fun hall => ?_⟩
      rw [hall pattern List.mem_cons_self] at hrecursive
      cases hrecursive
  | @deeper pattern rest path found name hrecursive hname _ ih =>
      have hlength := hentry hpath hname
      obtain ⟨hleast, -⟩ := ih hdefinite hcut (text_below_ne _ hname.1 hname.2.2.2.1) hfile
      refine ⟨by omega, fun hall => ?_⟩
      rw [hall pattern List.mem_cons_self] at hrecursive
      cases hrecursive

/-- Nothing that fits parts from the components of the path where it starts. -/
theorem Fits.prefix_onward (hfits : Fits patterns path found) (hcut : Cut patterns) (hpath : path.text ≠ "") :
    onward path <+: onward found := by
  refine hfits.upward (motive := fun path => onward path <+: onward found) hcut hpath List.prefix_rfl
    (fun path name hpath hslash hnext h => ?_) fun path name hpath hname h => ?_
  · rw [onward_below hpath hslash hnext] at h
    exact (List.prefix_append _ _).trans h
  · by_cases hstart : path.text = "."
    · have hnil : onward path = [] := if_pos hstart
      rw [hnil]
      exact List.nil_prefix
    · have hslash : '/' ∉ name.toList := by rcases hname with rfl | rfl <;> decide
      rw [onward_of_ne (text_child_ne_dot hpath hslash), Path.components_child hpath hslash, ← onward_of_ne hstart] at h
      exact (List.prefix_append _ _).trans h

/-! ### What is found differs -/

/-- Two paths lead through different components, if both lead to files. -/
def Differ (fs : FileSystem) (a b : Path) : Prop :=
  fs.holdsFile a = true → fs.holdsFile b = true → onward a ≠ onward b

theorem matches_literal {text : List Char} (hliteral : pattern.literal? = some name)
    (hmatches : pattern.matches text = true) : text = name.toList := by
  rw [literal?_eq_some_iff.1 hliteral] at hmatches
  generalize name.toList = chars at hmatches
  induction chars generalizing text with
  | nil => simpa [Pattern.matches] using hmatches
  | cons c chars ih =>
      cases text with
      | nil => simp [Pattern.matches] at hmatches
      | cons d text =>
          obtain ⟨hfirst, hrest⟩ : d = c ∧ Pattern.matches (chars.map Token.char) text = true := by
            simpa [Pattern.matches, Token.accepts] using hmatches
          rw [hfirst, ih hrest]

/-- A component that the name of an entry matches takes a component of a path. -/
theorem counts_of_matches (hplain : pattern.isRecursive = false) (hname : ValidName name)
    (hmatches : pattern.matches name.toList = true) : counts pattern = true := by
  cases hliteral : pattern.literal? with
  | none => simp [counts, hplain, hliteral]
  | some text =>
      have htext := matches_literal hliteral hmatches
      simp [counts, hplain, hliteral, ← htext, component?_validName hname]

/-- What an expansion finds at or below an entry has the name of the entry among its components. -/
theorem prefix_of_mem_visit (wf : search.fs.WellFormed) (hcut : Cut (pattern :: rest)) (hpath : path.text ≠ "")
    (hname : ValidName name) (hfile : search.fs.holdsFile found = true)
    (h : found ∈ search.visit fuel (pattern :: rest) (below path name)) :
    onward path ++ [.normal name] <+: onward found := by
  have hnext := text_below_ne path hname.1 hname.2.2.2.1
  have hleft : ∀ {left}, Fits left (below path name) found → Cut left → onward path ++ [.normal name] <+: onward found := by
    intro left hfits hleft
    rw [← onward_below_validName hpath hname]
    exact hfits.prefix_onward hleft hnext
  cases fuel with
  | zero => simp [visit] at h
  | succ fuel =>
      obtain ⟨hexpand, harrive, -⟩ := fits_of_mem wf hfile fuel
      cases hcollapse : collapse (pattern :: rest) with
      | nil => simp [visit, hcollapse] at h
      | cons last others =>
          have hlast : Cut (last :: others) := hcollapse ▸ hcut.of_suffix (collapse_suffix _)
          cases hrecursive : last.isRecursive with
          | false =>
              obtain ⟨-, h⟩ := (mem_visit_entry hcollapse hrecursive).1 h
              exact hleft (harrive _ _ hnext h) hlast.tail
          | true =>
              rcases (mem_visit_recursive hcollapse hrecursive).1 h with
                ⟨-, -, rfl⟩ | ⟨next, deeper, rfl, -, h⟩ | ⟨-, h⟩
              · exact hleft .done ⟨by simp, by simp⟩
              · exact hleft (harrive _ _ hnext h) hlast.tail.tail
              · exact hleft (hexpand _ _ hnext h) hlast

/-- Below the entries of a directory what is found differs, if it does below each. -/
theorem pairwise_children (wf : search.fs.WellFormed) (hcut : Cut (pattern :: rest)) (hpath : path.text ≠ "")
    (hvisit : ∀ name, ValidName name →
      (search.visit fuel (pattern :: rest) (below path name)).Pairwise (Differ search.fs)) :
    ((search.children path).flatMap (search.visit fuel (pattern :: rest))).Pairwise (Differ search.fs) := by
  refine List.pairwise_flatMap.2 ⟨fun child hchild => ?_, ?_⟩
  · obtain ⟨name, hname, rfl⟩ := exists_name_of_mem_children wf hchild
    exact hvisit name hname
  · unfold children
    split
    next dir _ =>
        have hnodup : ((search.fs.names dir).mergeSort fun a b => a ≤ b).Nodup :=
          (List.mergeSort_perm _ _).nodup_iff.2 (wf.nodup_names dir)
        refine List.pairwise_map.2 (hnodup.imp_of_mem fun {first second} hfirst hsecond hne => ?_)
        intro a ha b hb hfileA hfileB heq
        have hvalid : ∀ name ∈ (search.fs.names dir).mergeSort fun a b => a ≤ b, ValidName name := by
          intro name hmem
          obtain ⟨entry, hentry⟩ := Option.isSome_iff_exists.1 (mem_names.1 (List.mem_mergeSort.1 hmem))
          exact wf.validName hentry
        have hprefixA := prefix_of_mem_visit wf hcut hpath (hvalid first hfirst) hfileA ha
        have hprefixB := prefix_of_mem_visit wf hcut hpath (hvalid second hsecond) hfileB hb
        rw [heq] at hprefixA
        have hsame := (List.prefix_of_prefix_length_le hprefixA hprefixB (by simp)).eq_of_length (by simp)
        simp only [List.append_cancel_left_eq, List.cons.injEq, Path.Component.normal.injEq, and_true] at hsame
        exact hne hsame
    · exact .nil

theorem differ_of_directory {other : Path} (h : fs.holdsDirectory path = true) : Differ fs path other := by
  intro hfile
  rw [not_holdsDirectory_of_holdsFile hfile] at h
  cases h

/-- What is found right behind two stars has fewer components than what is found deeper. -/
theorem differ_of_deeper {other : Path} (wf : search.fs.WellFormed) (hrecursive : pattern.isRecursive = true)
    (hplain : next.isRecursive = false) (hdefinite : Definite (pattern :: next :: rest))
    (hcut : Cut (pattern :: next :: rest)) (hpath : path.text ≠ "") (hname : ValidName name)
    (hmatches : next.matches name.toList = true) (hfound : found ∈ search.arrive fuel rest path)
    (hother : other ∈ search.expand fuel (pattern :: next :: rest) path) : Differ search.fs found other := by
  intro hfile hfile' heq
  have hplain' := hdefinite.oneRow.plain_behind hrecursive (by simpa using hplain)
  have hfits := (fits_of_mem wf hfile fuel).2.1 _ _ hpath hfound
  have hfits' := (fits_of_mem wf hfile' fuel).1 _ _ hpath hother
  obtain ⟨-, hlength⟩ := hfits.length_onward wf hdefinite.tail.tail hcut.tail.tail hpath hfile
  obtain ⟨hlength', -⟩ := hfits'.length_onward wf hdefinite hcut hpath hfile'
  have hexact := hlength fun next hnext => hplain' next (List.mem_cons_of_mem _ hnext)
  rw [weight_cons, weight_cons, if_pos (counts_of_matches hplain hname hmatches), ← heq] at hlength'
  omega

/-- No two files that an expansion finds have the same components, if the pattern is definite. -/
theorem pairwise_differ (wf : search.fs.WellFormed) (fuel : Nat) :
    (∀ patterns path, Definite patterns → Cut patterns → path.text ≠ "" →
      (search.expand fuel patterns path).Pairwise (Differ search.fs))
    ∧ (∀ patterns path, Definite patterns → Cut patterns → path.text ≠ "" →
      (search.arrive fuel patterns path).Pairwise (Differ search.fs))
    ∧ ∀ pattern rest path name, Definite (pattern :: rest) → Cut (pattern :: rest) → path.text ≠ "" → ValidName name →
      (search.visit fuel (pattern :: rest) (below path name)).Pairwise (Differ search.fs) := by
  have hresult : ∀ path, (search.result path).Pairwise (Differ search.fs) := by
    intro path
    unfold result
    split <;> simp
  induction fuel with
  | zero =>
      refine ⟨fun _ _ _ _ _ => by simp [expand], fun patterns path _ _ _ => ?_, fun _ _ _ _ _ _ _ _ => by simp [visit]⟩
      cases patterns with
      | nil => simpa only [arrive] using hresult path
      | cons => simp [arrive]
  | succ fuel ih =>
      obtain ⟨hexpand, harrive, hvisit⟩ := ih
      refine ⟨fun patterns path hdefinite hcut hpath => ?_, fun patterns path hdefinite hcut hpath => ?_,
        fun pattern rest path name hdefinite hcut hpath hname => ?_⟩
      · cases patterns with
        | nil => simp [expand]
        | cons pattern rest =>
            cases hliteral : pattern.literal? with
            | some name =>
                have hslash := hcut.slashless _ List.mem_cons_self _ hliteral
                by_cases hnext : (below path name).text = ""
                · refine List.pairwise_of_forall_mem_list fun a ha b hb => ?_
                  exact absurd hnext (text_ne_of_mem_literal hliteral ha)
                · rw [expand, hliteral]
                  simp only
                  split
                  · split
                    · exact harrive _ _ hdefinite.tail hcut.tail hnext
                    · exact .nil
                  · split
                    · exact harrive _ _ hdefinite.tail hcut.tail hnext
                    · exact .nil
            | none =>
                have hdots : ∀ a ∈ (matchingDots pattern).flatMap fun dots => search.arrive fuel rest (path.child dots),
                    search.fs.holdsFile a = false := by
                  intro a ha
                  obtain ⟨dots, hmem, ha⟩ := List.mem_flatMap.1 ha
                  cases rest with
                  | nil =>
                      obtain rfl : a = path.child dots := mem_result (by simpa only [arrive] using ha)
                      exact holdsFile_dots wf (eq_dots_of_mem hmem) hpath
                  | cons next rest =>
                      rw [hdefinite.dotsLast pattern (by simp) hliteral] at hmem
                      cases hmem
                rw [expand, hliteral]
                simp only
                split
                · refine List.pairwise_append.2 ⟨List.pairwise_of_forall_mem_list fun a ha b _ hfile => ?_, ?_,
                    fun a ha b _ hfile => ?_⟩
                  · rw [hdots a ha] at hfile
                    cases hfile
                  · exact pairwise_children wf hcut hpath fun name hname => hvisit _ _ _ _ hdefinite hcut hpath hname
                  · rw [hdots a ha] at hfile
                    cases hfile
                · exact .nil
      · cases patterns with
        | nil => simpa only [arrive] using hresult path
        | cons pattern rest => exact arrive_cons search fuel pattern rest path ▸ hexpand _ _ hdefinite hcut hpath
      · have hnext := text_below_ne path hname.1 hname.2.2.2.1
        cases hcollapse : collapse (pattern :: rest) with
        | nil => simp [visit, hcollapse]
        | cons last others =>
            have hlast : Cut (last :: others) := hcollapse ▸ hcut.of_suffix (collapse_suffix _)
            have hdefinite' : Definite (last :: others) := hcollapse ▸ hdefinite.of_suffix (collapse_suffix _)
            rw [visit, hcollapse]
            simp only
            split
            next hrecursive =>
                refine List.pairwise_append.2 ⟨?_, ?_, fun a ha b hb => ?_⟩
                · cases others with
                  | nil => simp only; split <;> simp
                  | cons next deeper =>
                      simp only
                      split
                      · exact harrive _ _ hdefinite'.tail.tail hlast.tail.tail hnext
                      · exact .nil
                · split
                  · exact hexpand _ _ hdefinite' hlast hnext
                  · exact .nil
                · have hdeeper : b ∈ search.expand fuel (last :: others) (below path name) := by
                    split at hb
                    · exact hb
                    · cases hb
                  cases others with
                  | nil =>
                      simp only at ha
                      split at ha
                      next hdirectory =>
                          obtain rfl := List.mem_singleton.1 ha
                          exact differ_of_directory hdirectory
                      · cases ha
                  | cons next deeper =>
                      simp only at ha
                      split at ha
                      next hmatches =>
                          rw [matchesName_below hpath hname] at hmatches
                          exact differ_of_deeper wf hrecursive (plain_of_collapse hcollapse hrecursive) hdefinite' hlast
                            hnext hname hmatches ha hdeeper
                      · cases ha
            · split
              · exact harrive _ _ hdefinite'.tail hlast.tail hnext
              · exact .nil

end Search

end ModPackager.Glob
