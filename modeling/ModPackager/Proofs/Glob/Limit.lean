import ModPackager.Proofs.Glob.Cut
import ModPackager.Proofs.Path.Descend

/-!
# The steps of an expansion

An expansion takes so many steps at most (`need`), and more of them find no more (`expand_eq_of_need`). So the names of
a directory can be taken off the front of its pattern, whatever is special about them (`expand_names`).
-/

namespace ModPackager.Glob.Search

open FileSystem

variable {search : Search} {patterns rest others : List Pattern} {pattern : Pattern} {path : Path} {name : String}
  {names : List String} {fuel more : Nat}

/-! ### One step -/

/-- Whether a component that is a name goes on. -/
def goesOn (search : Search) (path : Path) (name : String) : Bool :=
  if name = "." || name = ".." then search.fs.holdsDirectory path else search.holds (below path name)

/-- What two stars find at an entry itself. -/
def behindStars (search : Search) (fuel : Nat) (path : Path) : List Pattern → List Path
  | [] => if search.fs.holdsDirectory path then [path] else []
  | next :: deeper => if matchesName next path then search.arrive fuel deeper path else []

theorem expand_literal (hliteral : pattern.literal? = some name) : search.expand (fuel + 1) (pattern :: rest) path
    = if search.goesOn path name then search.arrive fuel rest (below path name) else [] := by
  rw [expand, hliteral]
  rfl

theorem expand_wild (hliteral : pattern.literal? = none) : search.expand (fuel + 1) (pattern :: rest) path
    = if search.fs.holdsDirectory path then
        ((matchingDots pattern).flatMap fun dots => search.arrive fuel rest (path.child dots))
          ++ (search.children path).flatMap (search.visit fuel (pattern :: rest))
      else [] := by
  rw [expand, hliteral]

theorem visit_recursive (hcollapse : collapse patterns = pattern :: others) (hrecursive : pattern.isRecursive = true) :
    search.visit (fuel + 1) patterns path = search.behindStars fuel path others
      ++ if search.fs.holdsDirectory path then search.expand fuel (pattern :: others) path else [] := by
  rw [visit, hcollapse]
  simp only [hrecursive, if_true]
  cases others <;> rfl

theorem visit_entry (hcollapse : collapse patterns = pattern :: others) (hrecursive : pattern.isRecursive = false) :
    search.visit (fuel + 1) patterns path = if matchesName pattern path then search.arrive fuel others path else [] := by
  rw [visit, hcollapse]
  simp only [hrecursive, Bool.false_eq_true, if_false]

theorem visit_nil (hcollapse : collapse patterns = []) : search.visit fuel patterns path = [] := by
  cases fuel with
  | zero => simp only [visit]
  | succ fuel => rw [visit, hcollapse]

theorem text_ne_of_goesOn (h : search.goesOn path name = true) : (below path name).text ≠ "" := by
  unfold goesOn at h
  split at h
  next hdots =>
      have hname : name ≠ "" ∧ '/' ∉ name.toList := by
        rcases (by simpa using hdots : name = "." ∨ name = "..") with rfl | rfl <;> decide
      exact text_below_ne path hname.1 hname.2
  · exact text_ne_of_holds h

/-! ### How many steps there are -/

/-- How many steps an expansion takes: two for each component, and two for each character that a path can still get. -/
def need (patterns : List Pattern) (path : Path) : Nat := 2 * patterns.length + 2 * (tooLong - room path)

theorem room_lt_of_holdsDirectory (h : search.fs.holdsDirectory path = true) : room path < tooLong := by
  obtain ⟨dir, hdir⟩ := holdsDirectory_iff.1 h
  obtain ⟨⟨-, -, hsize⟩, -⟩ := resolve_eq_ok_iff.1 hdir
  unfold room
  split
  · decide
  · exact hsize

theorem need_below (hpath : path.text ≠ "") (hslash : '/' ∉ name.toList) :
    need rest (below path name) + 2 ≤ need (pattern :: rest) path := by
  have hroom := room_le_below hpath hslash
  simp only [need, List.length_cons]
  omega

theorem need_child (hpath : path.text ≠ "") (hslash : '/' ∉ name.toList) :
    need rest (path.child name) + 2 ≤ need (pattern :: rest) path := by
  have hroom := room_child hpath hslash
  simp only [need, List.length_cons]
  omega

theorem need_entry (hpath : path.text ≠ "") (hname : ValidName name) (hdir : search.fs.holdsDirectory path = true) :
    need patterns (below path name) + 2 ≤ need patterns path := by
  have hroom := room_lt_below hpath hname
  have hlong := room_lt_of_holdsDirectory hdir
  simp only [need]
  omega

theorem need_of_suffix (h : rest <:+ patterns) : need rest path ≤ need patterns path := by
  have hlength := h.length_le
  simp only [need]
  omega

/-- One step more finds no more. -/
theorem step_stable (wf : search.fs.WellFormed) (fuel : Nat) :
    (∀ patterns path, Cut patterns → path.text ≠ "" → need patterns path ≤ fuel →
      search.expand (fuel + 1) patterns path = search.expand fuel patterns path)
    ∧ (∀ patterns path, Cut patterns → path.text ≠ "" → need patterns path < fuel →
      search.arrive (fuel + 1) patterns path = search.arrive fuel patterns path)
    ∧ ∀ patterns path name, Cut patterns → path.text ≠ "" → ValidName name → need patterns (below path name) < fuel →
      search.visit (fuel + 1) patterns (below path name) = search.visit fuel patterns (below path name) := by
  induction fuel with
  | zero =>
      refine ⟨fun patterns path _ _ hneed => ?_, fun _ _ _ _ hneed => absurd hneed (Nat.not_lt_zero _),
        fun _ _ _ _ _ _ hneed => absurd hneed (Nat.not_lt_zero _)⟩
      cases patterns with
      | nil => simp [expand]
      | cons pattern rest => simp [need] at hneed
  | succ fuel ih =>
      obtain ⟨hexpand, harrive, hvisit⟩ := ih
      refine ⟨fun patterns path hcut hpath hneed => ?_, fun patterns path hcut hpath hneed => ?_,
        fun patterns path name hcut hpath hname hneed => ?_⟩
      · cases patterns with
        | nil => simp only [expand]
        | cons pattern rest =>
            cases hliteral : pattern.literal? with
            | some name =>
                rw [expand_literal hliteral, expand_literal hliteral]
                split
                next hnext =>
                    have hslash := hcut.slashless _ List.mem_cons_self _ hliteral
                    have hless : need rest (below path name) + 2 ≤ need (pattern :: rest) path := need_below hpath hslash
                    exact harrive _ _ hcut.tail (text_ne_of_goesOn hnext) (by omega)
                · rfl
            | none =>
                rw [expand_wild hliteral, expand_wild hliteral]
                split
                next hdir =>
                    congr 1
                    · refine List.flatMap_congr fun dots hdots => ?_
                      have hslash : dots ≠ "" ∧ '/' ∉ dots.toList := by
                        rcases eq_dots_of_mem hdots with rfl | rfl <;> decide
                      have hless : need rest (path.child dots) + 2 ≤ need (pattern :: rest) path :=
                        need_child hpath hslash.2
                      exact harrive _ _ hcut.tail (Path.text_child_ne hslash.1 hslash.2) (by omega)
                    · refine List.flatMap_congr fun child hchild => ?_
                      obtain ⟨name, hname, rfl⟩ := exists_name_of_mem_children wf hchild
                      have hless : need (pattern :: rest) (below path name) + 2 ≤ need (pattern :: rest) path :=
                        need_entry hpath hname hdir
                      exact hvisit _ _ _ hcut hpath hname (by omega)
                · rfl
      · cases patterns with
        | nil => simp only [arrive]
        | cons pattern rest =>
            rw [arrive_cons, arrive_cons]
            exact hexpand _ _ hcut hpath (by omega)
      · have hnext := text_below_ne path hname.1 hname.2.2.2.1
        cases hcollapse : collapse patterns with
        | nil => rw [visit_nil hcollapse, visit_nil hcollapse]
        | cons pattern others =>
            have hsuffix : pattern :: others <:+ patterns := hcollapse ▸ collapse_suffix _
            have hothers := hcut.of_suffix hsuffix
            have hneed' : need (pattern :: others) (below path name) ≤ need patterns (below path name) :=
              need_of_suffix hsuffix
            cases hrecursive : pattern.isRecursive with
            | true =>
                rw [visit_recursive hcollapse hrecursive, visit_recursive hcollapse hrecursive]
                congr 1
                · cases others with
                  | nil => rfl
                  | cons next deeper =>
                      simp only [behindStars]
                      rw [harrive _ _ hothers.tail.tail hnext (by simp only [need, List.length_cons] at *; omega)]
                · rw [hexpand _ _ hothers hnext (by omega)]
            | false =>
                rw [visit_entry hcollapse hrecursive, visit_entry hcollapse hrecursive,
                  harrive _ _ hothers.tail hnext (by simp only [need, List.length_cons] at *; omega)]

/-- More steps than needed find no more. -/
theorem expand_eq_of_need (wf : search.fs.WellFormed) (hcut : Cut patterns) (hpath : path.text ≠ "")
    (hfuel : need patterns path ≤ fuel) (hmore : need patterns path ≤ more) :
    search.expand more patterns path = search.expand fuel patterns path := by
  have hleast : ∀ count, search.expand (need patterns path + count) patterns path
      = search.expand (need patterns path) patterns path := by
    intro count
    induction count with
    | zero => rfl
    | succ count ih => exact ((step_stable wf _).1 _ _ hcut hpath (Nat.le_add_right _ _)).trans ih
  obtain ⟨count, rfl⟩ := Nat.exists_eq_add_of_le hfuel
  obtain ⟨count', rfl⟩ := Nat.exists_eq_add_of_le hmore
  rw [hleast, hleast]

/-! ### The names of a directory -/

/-- Among the entries of a directory an escaped text goes on with the one of that name. -/
theorem flatMap_children_exactly (wf : search.fs.WellFormed) (hpath : path.text ≠ "") (hname : ValidName name)
    (hdir : search.fs.holdsDirectory (below path name) = true) :
    (search.children path).flatMap (search.visit (fuel + 1) (exactly name.toList :: rest))
      = search.arrive fuel rest (below path name) := by
  have hvisit : ∀ {other}, ValidName other → search.visit (fuel + 1) (exactly name.toList :: rest) (below path other)
      = if other = name then search.arrive fuel rest (below path other) else [] := by
    intro other hother
    rw [visit_entry (collapse_plain (isRecursive_exactly _)) (isRecursive_exactly _), matchesName_below hpath hother]
    by_cases heq : other = name
    · rw [if_pos (matches_exactly.2 (by rw [heq])), if_pos heq]
    · rw [if_neg fun hmatches => heq (String.toList_inj.1 (matches_exactly.1 hmatches)), if_neg heq]
  obtain ⟨place, hplace⟩ := holdsDirectory_iff.1 hdir
  obtain ⟨dir, hresolve, hmem⟩ := exists_entry_of_below hpath hname.1 hname.2.2.2.1 hname.2.1 hname.2.2.1 hplace
  have hvalid : ∀ other ∈ (search.fs.names dir).mergeSort fun a b => a ≤ b, ValidName other := by
    intro other hother
    obtain ⟨entry, hentry⟩ := Option.isSome_iff_exists.1 (mem_names.1 (List.mem_mergeSort.1 hother))
    exact wf.validName hentry
  have hnodup : ((search.fs.names dir).mergeSort fun a b => a ≤ b).Nodup :=
    (List.mergeSort_perm _ _).nodup_iff.2 (wf.nodup_names dir)
  have hone : ((search.fs.names dir).mergeSort fun a b => a ≤ b).filter (· == name) = [name] := by
    rw [List.filter_beq, List.count_eq_one_of_mem hnodup (List.mem_mergeSort.2 hmem), List.replicate_one]
  have hothers : ∀ other ∈ (search.fs.names dir).mergeSort fun a b => a ≤ b, (other == name) = false →
      search.visit (fuel + 1) (exactly name.toList :: rest) (below path other) = [] := by
    intro other hother hne
    rw [hvisit (hvalid other hother), if_neg (by simpa using hne)]
  unfold children
  rw [lookup?_eq_some_iff.2 hresolve]
  simp only
  rw [List.flatMap_map, ← flatMap_filter _ hothers, hone, List.flatMap_singleton, hvisit hname, if_pos rfl]

/-- An escaped text goes on with the entry of that name, if it is a directory. -/
theorem expand_exactly (wf : search.fs.WellFormed) (hcut : Cut rest) (hrest : rest ≠ []) (hpath : path.text ≠ "")
    (hslash : '/' ∉ name.toList) (hdir : search.fs.holdsDirectory (below path name) = true)
    (hfuel : need (exactly name.toList :: rest) path ≤ fuel) :
    search.expand fuel (exactly name.toList :: rest) path = search.expand fuel rest (below path name) := by
  obtain ⟨next, others, rfl⟩ := List.exists_cons_of_ne_nil hrest
  obtain ⟨place, hplace⟩ := holdsDirectory_iff.1 hdir
  have hnext : (below path name).text ≠ "" := (resolve_eq_ok_iff.1 hplace).1.2.1
  have hpathDir : search.fs.holdsDirectory path = true := holdsDirectory_of_below hpath hslash ⟨place, _, hplace⟩
  have hbelow : need (next :: others) (below path name) + 2 ≤ need (exactly name.toList :: next :: others) path :=
    need_below hpath hslash
  have hsmall : 2 ≤ need (next :: others) (below path name) := by
    simp only [need, List.length_cons]
    omega
  cases hliteral : (exactly name.toList).literal? with
  | some other =>
      obtain rfl : other = name := String.toList_inj.1 (literal?_exactly hliteral)
      obtain ⟨less, rfl⟩ : ∃ less, fuel = less + 2 := ⟨fuel - 2, by omega⟩
      have hgoes : search.goesOn path other = true := by
        unfold goesOn
        split
        · exact hpathDir
        · simp [holds, FileSystem.holds, lookup?_eq_some_iff.2 hplace]
      rw [expand_literal hliteral, if_pos hgoes, arrive_cons]
      exact expand_eq_of_need wf hcut hnext (by omega) (by omega)
  | none =>
      -- A name with something to escape is no dot, so it is that of an entry.
      have hne : name ≠ "" := by rintro rfl; simp [exactly, Pattern.literal?] at hliteral
      have hdot : name ≠ "." := by rintro rfl; simp [exactly, isSpecial, Pattern.literal?] at hliteral
      have hup : name ≠ ".." := by rintro rfl; simp [exactly, isSpecial, Pattern.literal?] at hliteral
      obtain ⟨dir, -, hmem⟩ := exists_entry_of_below hpath hne hslash hdot hup hplace
      obtain ⟨entry, hentry⟩ := Option.isSome_iff_exists.1 (mem_names.1 hmem)
      have hname : ValidName name := wf.validName hentry
      have hlength : need (next :: others) (below path name) + 4 ≤ need (exactly name.toList :: next :: others) path := by
        have hentry : need (exactly name.toList :: next :: others) (below path name) + 2
          ≤ need (exactly name.toList :: next :: others) path := need_entry hpath hname hpathDir
        simp only [need, List.length_cons] at hentry ⊢
        omega
      obtain ⟨less, rfl⟩ : ∃ less, fuel = less + 3 := ⟨fuel - 3, by omega⟩
      rw [expand_wild hliteral, if_pos hpathDir, matchingDots_exactly hliteral, List.flatMap_nil, List.nil_append,
        flatMap_children_exactly wf hpath hname hdir, arrive_cons]
      exact expand_eq_of_need wf hcut hnext (by omega) (by omega)

/-- Above a directory there are directories. -/
theorem holdsDirectory_of_descend (hpath : path.text ≠ "") (hdot : path.text ≠ ".")
    (hslash : ∀ name ∈ names, '/' ∉ name.toList) (h : search.fs.holdsDirectory (path.descend names) = true) :
    search.fs.holdsDirectory path = true := by
  induction names generalizing path with
  | nil => exact h
  | cons name names ih =>
      rw [List.forall_mem_cons] at hslash
      have hchild := ih (Path.text_child_ne_of_ne hpath hslash.1) (text_child_ne_dot hpath hslash.1) hslash.2 h
      obtain ⟨place, hplace⟩ := holdsDirectory_iff.1 hchild
      rw [← below_of_ne hdot] at hplace
      exact holdsDirectory_of_below hpath hslash.1 ⟨place, _, hplace⟩

/-- The names of a directory lead an expansion to it, whatever is special about them. -/
theorem expand_names (wf : search.fs.WellFormed) (hcut : Cut patterns) (hne : patterns ≠ []) (hpath : path.text ≠ "")
    (hdot : path.text ≠ ".") (hslash : ∀ name ∈ names, '/' ∉ name.toList)
    (hdir : search.fs.holdsDirectory (path.descend names) = true)
    (hfuel : need (names.map (fun name => exactly name.toList) ++ patterns) path ≤ fuel) :
    search.expand fuel (names.map (fun name => exactly name.toList) ++ patterns) path
      = search.expand fuel patterns (path.descend names) := by
  induction names generalizing path with
  | nil => rfl
  | cons name names ih =>
      rw [List.forall_mem_cons] at hslash
      have hnext := Path.text_child_ne_of_ne hpath hslash.1
      have hnextDot := text_child_ne_dot hpath hslash.1
      have hthere := holdsDirectory_of_descend hnext hnextDot hslash.2 hdir
      have hothers : Cut (names.map (fun name => exactly name.toList) ++ patterns) := by
        have hnames : ∀ text ∈ names.map String.toList, '/' ∉ text := by simpa using hslash.2
        have hexactly := cut_exactly hnames hcut
        rwa [List.map_map] at hexactly
      rw [← below_of_ne hdot] at hthere
      rw [List.map_cons, List.cons_append] at hfuel ⊢
      have hless : need (names.map (fun name => exactly name.toList) ++ patterns) (below path name) + 2
          ≤ need (exactly name.toList :: (names.map (fun name => exactly name.toList) ++ patterns)) path :=
        need_below hpath hslash.1
      rw [expand_exactly wf hothers (List.append_ne_nil_of_right_ne_nil _ hne) hpath hslash.1 hthere hfuel]
      rw [below_of_ne hdot] at hless ⊢
      exact ih hnext hnextDot hslash.2 hdir (by omega)

end ModPackager.Glob.Search
