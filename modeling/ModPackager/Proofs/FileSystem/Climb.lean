import ModPackager.FileSystem.Tree

/-!
# Locations that names spell

`climb` reads names as a location: a dot goes nowhere, a parent drops a name, every other name is added.
Names without parents only go down (`climb_prefix`), and names that never go up further than they went down
spell a location below the one they start at, the same below every start (`climb_of_staysInside`).
-/

namespace ModPackager.FileSystem

variable {here dir : Location} {name : String} {names front more : List String}

/-- The location of a name, where a dot goes nowhere and a parent goes up. -/
def climbStep (here : Location) (name : String) : Location :=
  if name = "." then here else if name = ".." then here.dropLast else here ++ [name]

/-- The location that names spell from another one. -/
def climb (here : Location) (names : List String) : Location := names.foldl climbStep here

@[simp] theorem climb_nil (here : Location) : climb here [] = here := rfl

@[simp] theorem climb_cons (here : Location) (name : String) (names : List String) :
    climb here (name :: names) = climb (climbStep here name) names := rfl

@[simp] theorem climb_append (here : Location) (names more : List String) :
    climb here (names ++ more) = climb (climb here names) more := List.foldl_append ..

@[simp] theorem climbStep_dot (here : Location) : climbStep here "." = here := rfl

@[simp] theorem climbStep_up (here : Location) : climbStep here ".." = here.dropLast := rfl

theorem climbStep_of_ne (hdot : name ≠ ".") (hup : name ≠ "..") (here : Location) :
    climbStep here name = here ++ [name] := by
  simp [climbStep, hdot, hup]

/-- Names other than dots and parents spell themselves. -/
theorem climb_of_plain (h : ∀ name ∈ names, name ≠ "." ∧ name ≠ "..") : climb here names = here ++ names := by
  induction names generalizing here with
  | nil => simp
  | cons name rest ih =>
      obtain ⟨hdot, hup⟩ := h name (by simp)
      rw [climb_cons, climbStep_of_ne hdot hup, ih fun other hother => h other (by simp [hother])]
      simp

/-- Names without parents only go down. -/
theorem prefix_climb (h : ".." ∉ names) : here <+: climb here names := by
  induction names generalizing here with
  | nil => exact List.prefix_refl _
  | cons name rest ih =>
      obtain ⟨hup, hrest⟩ := List.ne_and_not_mem_of_not_mem_cons h
      refine List.IsPrefix.trans ?_ (ih hrest)
      by_cases hdot : name = "."
      · simp [hdot]
      · rw [climbStep_of_ne hdot (Ne.symm hup)]
        exact List.prefix_append _ _

theorem climb_prefix (h : ".." ∉ names) (hfront : front <+: names) : climb here front <+: climb here names := by
  obtain ⟨more, rfl⟩ := hfront
  rw [climb_append]
  exact prefix_climb fun hmem => h (List.mem_append_right _ hmem)

/-- A beginning of two lists in a row ends in the first one, or goes on into the second one. -/
theorem prefix_append_cases {α : Type} {front first second : List α} (h : front <+: first ++ second) :
    front <+: first ∨ ∃ more, more ≠ [] ∧ front = first ++ more ∧ more <+: second := by
  rcases List.prefix_or_prefix_of_prefix h (List.prefix_append first second) with hfirst | ⟨more, rfl⟩
  · exact .inl hfirst
  · rw [List.prefix_append_right_inj] at h
    by_cases hmore : more = []
    · exact .inl (by simp [hmore])
    · exact .inr ⟨more, hmore, rfl, h⟩

/-- A place lies strictly below a directory. -/
def Beneath (dir place : Location) : Prop := dir <+: place ∧ place ≠ dir

instance : Decidable (Beneath dir here) := inferInstanceAs (Decidable (_ ∧ _))

theorem beneath_iff {place : Location} : Beneath dir place ↔ ∃ below, below ≠ [] ∧ place = dir ++ below := by
  constructor
  · rintro ⟨⟨below, rfl⟩, hne⟩
    exact ⟨below, by rintro rfl; simp at hne, rfl⟩
  · rintro ⟨below, hbelow, rfl⟩
    exact ⟨List.prefix_append _ _, by simpa using hbelow⟩

/-! ### Staying inside -/

/-- Whether names never go up further than they went down, from so many levels down. -/
def staysInside : Nat → List String → Bool
  | _, [] => true
  | depth, name :: rest =>
    if name = "." then staysInside depth rest
    else if name = ".." then 0 < depth && staysInside (depth - 1) rest
    else staysInside (depth + 1) rest

theorem staysInside_of_append {depth : Nat} (h : staysInside depth (front ++ more) = true) :
    staysInside depth front = true := by
  induction front generalizing depth with
  | nil => rfl
  | cons name rest ih =>
      simp only [List.cons_append, staysInside] at h ⊢
      split
      next hdot => exact ih (by simpa [hdot] using h)
      next hdot =>
          split
          next hup =>
              rw [if_neg hdot, if_pos hup] at h
              simp only [Bool.and_eq_true] at h ⊢
              exact ⟨h.1, ih h.2⟩
          next hup => exact ih (by simpa [hdot, hup] using h)

theorem staysInside_of_plain {depth : Nat} (h : ∀ name ∈ names, name ≠ "." ∧ name ≠ "..") :
    staysInside depth names = true := by
  induction names generalizing depth with
  | nil => rfl
  | cons name rest ih =>
      obtain ⟨hdot, hup⟩ := h name (by simp)
      simp only [staysInside, hdot, hup, if_false]
      exact ih fun other hother => h other (by simp [hother])

/-- Names that stay inside spell a location below a directory that does not depend on the directory. -/
theorem climb_of_staysInside (h : staysInside here.length names = true) :
    climb (dir ++ here) names = dir ++ climb here names := by
  induction names generalizing here with
  | nil => rfl
  | cons name rest ih =>
      simp only [staysInside] at h
      split at h
      next hdot =>
          subst hdot
          exact ih h
      next hdot =>
          split at h
          next hup =>
              subst hup
              simp only [Bool.and_eq_true, decide_eq_true_eq] at h
              have hne : here ≠ [] := List.length_pos_iff.1 h.1
              rw [climb_cons, climb_cons, climbStep_up, climbStep_up, List.dropLast_append_of_ne_nil hne]
              exact ih (by simpa using h.2)
          next hup =>
              rw [climb_cons, climb_cons, climbStep_of_ne hdot hup, climbStep_of_ne hdot hup,
                List.append_assoc]
              exact ih (by simpa using h)

theorem climb_of_staysInside_zero (h : staysInside 0 names = true) :
    climb dir names = dir ++ climb [] names := by
  have hclimb : climb (dir ++ []) names = dir ++ climb [] names := climb_of_staysInside h
  rwa [List.append_nil] at hclimb

end ModPackager.FileSystem
