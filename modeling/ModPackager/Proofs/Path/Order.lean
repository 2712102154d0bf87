import Mathlib.Data.List.Lex
import ModPackager.Proofs.Path.Names

/-!
# The order of paths

Paths are ordered by their components, as lists are by their elements (`stepsBefore_iff`). Of two paths that lead
through different components one comes first (`before_of_ne`), so a list that is sorted and leads through no
components twice ascends strictly (`pairwise_before_of_sorted`).

Going down to an entry puts its name behind the components of the directory (`components_child`).
-/

namespace ModPackager

namespace Path

variable {a b c : Component} {as bs cs : List Component} {path : Path} {name other : String}

/-! ### Components -/

/-- Components are ordered by their kinds, and by their texts among those of a kind. -/
theorem Component.before_iff :
    a.before b = true ↔ a.rank < b.rank ∨ a.rank = b.rank ∧ a.text < b.text := by
  cases a <;> cases b <;> simp [Component.before, Component.rank, Component.text, String.lt_irrefl]

theorem Component.eq_of_rank (hrank : a.rank = b.rank) (htext : a.text = b.text) : a = b := by
  cases a <;> cases b <;> simp_all [Component.rank, Component.text]

instance : Std.Asymm fun a b : Component => a.before b = true where
  asymm a b hab hba := by
    rw [Component.before_iff] at hab hba
    rcases hab with hab | ⟨hrank, htext⟩
    · omega
    · have hback : b.text < a.text := by
        rcases hba with hba | hba
        · omega
        · exact hba.2
      exact String.lt_asymm htext hback

instance : Std.Irrefl fun a b : Component => a.before b = true where
  irrefl a ha := Std.Asymm.asymm (r := fun a b : Component => a.before b = true) a a ha ha

instance : Std.Trichotomous fun a b : Component => a.before b = true where
  trichotomous a b hab hba := by
    rw [Component.before_iff] at hab hba
    have hrank : a.rank = b.rank := by omega
    refine Component.eq_of_rank hrank (String.le_antisymm ?_ ?_)
    · exact String.not_lt.1 fun hlt => hba (.inr ⟨hrank.symm, hlt⟩)
    · exact String.not_lt.1 fun hlt => hab (.inr ⟨hrank, hlt⟩)

/-- Of two components in order, any other one is behind the first or before the second. -/
instance : IsOrderConnected Component fun a b => a.before b = true where
  conn a b c hac := by
    simp only [Component.before_iff] at hac ⊢
    rcases lt_trichotomy a.rank b.rank with hab | hab | hab
    · exact .inl (.inl hab)
    · rcases hac with hac | ⟨hrank, htext⟩
      · exact .inr (.inl (hab ▸ hac))
      · by_cases hlt : a.text < b.text
        · exact .inl (.inr ⟨hab, hlt⟩)
        · have hbc : b.text < c.text := Std.lt_of_le_of_lt (String.not_lt.1 hlt) htext
          exact .inr (.inr ⟨hab.symm.trans hrank, hbc⟩)
    · exact .inr (.inl (by omega))

/-! ### Lists of components -/

/-- Lists of components are ordered as texts are by their letters. -/
theorem stepsBefore_iff : stepsBefore as bs = true ↔ List.Lex (fun a b => a.before b = true) as bs := by
  induction as generalizing bs with
  | nil => cases bs <;> simp [stepsBefore]
  | cons a as ih =>
      cases bs with
      | nil => simp [stepsBefore]
      | cons b bs =>
          rw [stepsBefore, List.cons_lex_cons_iff]
          split
          next heq =>
              subst heq
              simp [ih, Std.Irrefl.irrefl (r := fun a b : Component => a.before b = true) a]
          next hne => simp [hne]

/-- Of two paths that lead through different components one comes first. -/
theorem before_of_ne {first second : Path} (hne : first.components ≠ second.components)
    (h : second.before first = false) : first.before second = true := by
  rw [before, stepsBefore_iff]
  by_contra hnot
  refine hne (Std.Trichotomous.trichotomous (r := List.Lex fun a b : Component => a.before b = true) _ _ hnot ?_)
  rw [← stepsBefore_iff]
  simpa [before] using h

/-- Sorting brings paths into order. -/
theorem pairwise_mergeSort (paths : List Path) :
    (paths.mergeSort fun a b => !b.before a).Pairwise fun a b => b.before a = false := by
  refine (List.pairwise_mergeSort (fun a b c hab hbc => ?_) (fun a b => ?_) paths).imp fun h => by simpa using h
  · simp only [before, Bool.not_eq_true', Bool.eq_false_iff, ne_eq, stepsBefore_iff] at hab hbc ⊢
    intro hca
    rcases IsOrderConnected.conn _ b.components _ hca with hcb | hba
    · exact hbc hcb
    · exact hab hba
  · simp only [before, Bool.or_eq_true, Bool.not_eq_true', Bool.eq_false_iff, ne_eq, stepsBefore_iff]
    by_cases hba : List.Lex (fun a b : Component => a.before b = true) b.components a.components
    · exact .inr fun hab => Std.Asymm.asymm (r := List.Lex fun a b : Component => a.before b = true) _ _ hab hba
    · exact .inl hba

/-- In order, paths that lead through different components ascend strictly. -/
theorem pairwise_before_of_sorted {paths : List Path} (hsorted : paths.Pairwise fun a b => b.before a = false)
    (hdistinct : paths.Pairwise fun a b => a.components ≠ b.components) :
    paths.Pairwise fun a b => a.before b = true :=
  (hsorted.and hdistinct).imp fun h => before_of_ne h.2 h.1

/-! ### Going down -/

/-- The components of a path are those of its pieces. -/
theorem components_eq {first : List Char} {rest : List (List Char)} (h : pieces path.text.toList = first :: rest) :
    path.components = (firstComponent? path.isAbsolute first).toList ++ rest.filterMap component? := by
  unfold components steps
  rw [h]
  cases hfirst : firstComponent? path.isAbsolute first <;> simp [hfirst, List.filterMap_map]

/-- The name of an entry comes behind the components of the directory. -/
theorem components_child (hpath : path.text ≠ "") (hslash : '/' ∉ name.toList) :
    (path.child name).components = path.components ++ (component? name.toList).toList := by
  have habsolute := isAbsolute_join hpath (isAbsolute_name hslash)
  obtain ⟨first, rest, hpieces⟩ := List.exists_cons_of_ne_nil (pieces_ne_nil path.text.toList)
  have hlast : ∀ (known : List (List Char)) (piece : List Char), (known ++ [piece]).filterMap component?
      = known.filterMap component? ++ (component? piece).toList := by
    intro known piece
    cases hpiece : component? piece <;> simp [hpiece]
  -- A slash at the end of the directory has an empty piece behind it, which the name takes the place of.
  have hchild : ∃ more, pieces (path.child name).text.toList = first :: more
      ∧ more.filterMap component? = rest.filterMap component? ++ (component? name.toList).toList := by
    rw [child, join, isAbsolute_name hslash]
    simp only [Bool.false_or, String.isEmpty_iff, hpath, if_false]
    split
    next hends =>
        obtain ⟨front, hfront⟩ := List.getLast?_eq_some_iff.1 (by simpa using hends)
        obtain ⟨first', known, hknown⟩ := List.exists_cons_of_ne_nil (pieces_ne_nil front)
        rw [hfront, pieces_append_slash, pieces_nil, hknown, List.cons_append, List.cons.injEq] at hpieces
        obtain ⟨rfl, rfl⟩ := hpieces
        refine ⟨known ++ [name.toList], ?_, ?_⟩
        · rw [String.toList_append, hfront, List.append_assoc, List.singleton_append, pieces_append_slash, hknown,
            pieces_of_not_mem hslash, List.cons_append]
        · have hempty : component? [] = none := rfl
          rw [hlast, hlast, hempty, Option.toList_none, List.append_nil]
    · refine ⟨rest ++ [name.toList], ?_, ?_⟩
      · have htext : (path.text ++ "/" ++ name).toList = path.text.toList ++ '/' :: name.toList := by simp
        rw [htext, pieces_append_slash, hpieces, pieces_of_not_mem hslash, List.cons_append]
      · rw [hlast]
  obtain ⟨more, hmore, hcomponents⟩ := hchild
  rw [components_eq hmore, components_eq hpieces, hcomponents, child, habsolute, List.append_assoc]

/-- A name other than a dot or a parent is a component by itself. -/
theorem component?_name (hne : name ≠ "") (hdot : name ≠ ".") (hup : name ≠ "..") :
    component? name.toList = some (.normal name) := by
  have hempty : name.toList.isEmpty = false := by simpa using hne
  have hcurrent : (name.toList == ['.']) = false := by
    rw [beq_eq_false_iff_ne]
    exact fun heq => hdot (String.toList_inj.1 heq)
  have hparent : (name.toList == ['.', '.']) = false := by
    rw [beq_eq_false_iff_ne]
    exact fun heq => hup (String.toList_inj.1 heq)
  rw [component?, hempty, hcurrent, hparent, String.ofList_toList]
  rfl

/-- Going down to an entry adds its name to the components, also from an empty path. -/
theorem components_child_name (path : Path) (hne : name ≠ "") (hdot : name ≠ ".") (hup : name ≠ "..")
    (hslash : '/' ∉ name.toList) : (path.child name).components = path.components ++ [.normal name] := by
  by_cases hpath : path.text = ""
  · have hcurrent : (name.toList == ['.']) = false := by
      rw [beq_eq_false_iff_ne]
      exact fun heq => hdot (String.toList_inj.1 heq)
    have hpieces : pieces path.text.toList = [[]] := by
      rw [hpath]
      rfl
    have hstart : path.components = [] := by
      rw [components_eq hpieces]
      simp [firstComponent?, isAbsolute, hpath, component?]
    rw [child, join_of_empty hpath, hstart, components_eq (pieces_of_not_mem hslash), isAbsolute_name hslash,
      firstComponent?, hcurrent, component?_name hne hdot hup]
    rfl
  · rw [components_child hpath hslash, component?_name hne hdot hup, Option.toList_some]

/-- The paths of different names are different. -/
theorem components_child_ne (path : Path) (hname : name ≠ "" ∧ name ≠ "." ∧ name ≠ ".." ∧ '/' ∉ name.toList)
    (hother : other ≠ "" ∧ other ≠ "." ∧ other ≠ ".." ∧ '/' ∉ other.toList) (hne : name ≠ other) :
    (path.child name).components ≠ (path.child other).components := by
  obtain ⟨hname, hdot, hup, hslash⟩ := hname
  obtain ⟨hother, hdot', hup', hslash'⟩ := hother
  rw [components_child_name path hname hdot hup hslash, components_child_name path hother hdot' hup' hslash']
  simpa using hne

end Path

end ModPackager
