import ModPackager.Proofs.FileSystem.Resolve

/-!
# The way of a path

Following a path looks at some locations and at no others. They are its way (`way`), and they decide
where it leads: a path leads to the same place in every file system that holds the same on its way
(`resolve_congr`), so a change elsewhere does not touch it.

The way is computed by the recursion of the walk itself, always following a link at the end. A proof
about it is the same induction each time, on the links that may still be followed and then on the
names, with the equations of one step below.
-/

namespace ModPackager.FileSystem

variable {fs fs' : FileSystem} {follow : Bool} {links : Nat} {here dir place : Location} {name : String}
  {names more rest : List String} {slash : Bool} {target : Target} {path : Path}

/-- The locations that following names looks at, with `onward` for those behind a link. -/
def trailWith (fs : FileSystem) (onward : Location → List String → List Location) :
    Location → List String → List Location
  | here, [] => [here]
  | here, name :: rest =>
    here ::
      if fs.entry? here != some .directory then []
      else if name = "." then trailWith fs onward here rest
      else if name = ".." then trailWith fs onward here.dropLast rest
      else if maxName < name.utf8ByteSize then []
      else
        (here ++ [name]) ::
          match fs.entry? (here ++ [name]) with
          | none => []
          | some (.link target) => onward (linkStart target here) (namesOf target ++ rest)
          | some _ => trailWith fs onward (here ++ [name]) rest

/-- The locations that following names looks at, through at most the given number of links. -/
def trail (fs : FileSystem) : Nat → Location → List String → List Location
  | 0 => trailWith fs fun _ _ => []
  | links + 1 => trailWith fs (trail fs links)

/-- The locations that following a path looks at. -/
def way (fs : FileSystem) (path : Path) : List Location := fs.trail maxLinks [] (fs.namesTo path)

/-! ### The steps of a trail -/

/-- The locations behind a link when so many links may still be followed. -/
def trailBehind (fs : FileSystem) : Nat → Location → List String → List Location
  | 0 => fun _ _ => []
  | links + 1 => fs.trail links

theorem trail_eq (fs : FileSystem) (links : Nat) :
    fs.trail links = fs.trailWith (fs.trailBehind links) := by
  cases links <;> rfl

theorem trail_nil : fs.trail links here [] = [here] := by
  rw [trail_eq]
  rfl

/-- One name further; what is said of its kinds follows. -/
theorem trail_cons : fs.trail links here (name :: rest)
    = here ::
      if fs.entry? here != some .directory then []
      else if name = "." then fs.trail links here rest
      else if name = ".." then fs.trail links here.dropLast rest
      else if maxName < name.utf8ByteSize then []
      else
        (here ++ [name]) ::
          match fs.entry? (here ++ [name]) with
          | none => []
          | some (.link text) => fs.trailBehind links (linkStart text here) (namesOf text ++ rest)
          | some _ => fs.trail links (here ++ [name]) rest := by
  simp only [trail_eq]
  rfl

theorem trail_cons_of_not_directory (h : fs.entry? here ≠ some .directory) :
    fs.trail links here (name :: rest) = [here] := by
  simp [trail_cons, h]

theorem trail_dot (h : fs.entry? here = some .directory) :
    fs.trail links here ("." :: rest) = here :: fs.trail links here rest := by
  simp [trail_cons, h]

theorem trail_up (h : fs.entry? here = some .directory) :
    fs.trail links here (".." :: rest) = here :: fs.trail links here.dropLast rest := by
  simp [trail_cons, h]

theorem trail_long (h : fs.entry? here = some .directory) (hdot : name ≠ ".") (hup : name ≠ "..")
    (hlong : maxName < name.utf8ByteSize) : fs.trail links here (name :: rest) = [here] := by
  simp [trail_cons, h, hdot, hup, hlong]

theorem trail_name (h : fs.entry? here = some .directory) (hname : Ordinary name) :
    fs.trail links here (name :: rest)
      = here :: (here ++ [name]) ::
        match fs.entry? (here ++ [name]) with
        | none => []
        | some (.link text) => fs.trailBehind links (linkStart text here) (namesOf text ++ rest)
        | some _ => fs.trail links (here ++ [name]) rest := by
  obtain ⟨hdot, hup, hsize⟩ := hname
  simp only [trail_cons, h, hdot, hup, Nat.not_lt.2 hsize, bne_self_eq_false, Bool.false_eq_true, if_false]

theorem here_mem_trail : here ∈ fs.trail links here names := by
  cases names with
  | nil => simp [trail_nil]
  | cons name rest =>
      rw [trail_cons]
      exact List.mem_cons_self

/-! ### What a walk looks at decides where it leads -/

/-- Two file systems hold the same at some locations. -/
def Agree (fs fs' : FileSystem) (places : List Location) : Prop :=
  ∀ place ∈ places, fs'.entry? place = fs.entry? place

theorem walkStep_congr
    (honward : ∀ {start rest slash}, Agree fs fs' (fs.trailBehind links start rest) →
      fs'.onwardFor follow links start rest slash = fs.onwardFor follow links start rest slash) :
    Agree fs fs' (fs.trail links here names) →
      fs'.walk follow links here names slash = fs.walk follow links here names slash := by
  induction names generalizing here slash with
  | nil =>
      intro h
      rw [walk_nil, walk_nil, h here here_mem_trail]
  | cons name rest ih =>
      intro h
      have hhere : fs'.entry? here = fs.entry? here := h here here_mem_trail
      by_cases hdir : fs.entry? here = some .directory
      · have hdir' := hhere.trans hdir
        rcases name_cases name with rfl | rfl | ⟨hdot, hup, hlong⟩ | hname
        · rw [trail_dot hdir] at h
          rw [walk_dot hdir', walk_dot hdir, ih fun place hplace => h place (by simp [hplace])]
        · rw [trail_up hdir] at h
          rw [walk_up hdir', walk_up hdir, ih fun place hplace => h place (by simp [hplace])]
        · rw [walk_long hdir' hdot hup hlong, walk_long hdir hdot hup hlong]
        · rw [trail_name hdir hname] at h
          rw [walk_name hdir' hname, walk_name hdir hname, h (here ++ [name]) (by simp)]
          rcases hentry : fs.entry? (here ++ [name]) with _ | _ | _ | text
          · rfl
          · exact ih fun place hplace => h place (by simp [hentry, hplace])
          · exact ih fun place hplace => h place (by simp [hentry, hplace])
          · simp only
            rw [honward fun place hplace => h place (by simp [hentry, hplace])]
      · rw [walk_cons_of_not_directory hdir, walk_cons_of_not_directory (hhere ▸ hdir)]

theorem walk_congr : Agree fs fs' (fs.trail links here names) →
    fs'.walk follow links here names slash = fs.walk follow links here names slash := by
  induction links generalizing here names slash with
  | zero => exact walkStep_congr fun _ => rfl
  | succ links ih => exact walkStep_congr fun h => ih h

theorem trailStep_congr
    (honward : ∀ {start rest}, Agree fs fs' (fs.trailBehind links start rest) →
      fs'.trailBehind links start rest = fs.trailBehind links start rest) :
    Agree fs fs' (fs.trail links here names) → fs'.trail links here names = fs.trail links here names := by
  induction names generalizing here with
  | nil => intro _; rw [trail_nil, trail_nil]
  | cons name rest ih =>
      intro h
      have hhere : fs'.entry? here = fs.entry? here := h here here_mem_trail
      by_cases hdir : fs.entry? here = some .directory
      · have hdir' := hhere.trans hdir
        rcases name_cases name with rfl | rfl | ⟨hdot, hup, hlong⟩ | hname
        · rw [trail_dot hdir] at h
          rw [trail_dot hdir', trail_dot hdir, ih fun place hplace => h place (by simp [hplace])]
        · rw [trail_up hdir] at h
          rw [trail_up hdir', trail_up hdir, ih fun place hplace => h place (by simp [hplace])]
        · rw [trail_long hdir' hdot hup hlong, trail_long hdir hdot hup hlong]
        · rw [trail_name hdir hname] at h
          rw [trail_name hdir' hname, trail_name hdir hname, h (here ++ [name]) (by simp)]
          rcases hentry : fs.entry? (here ++ [name]) with _ | _ | _ | text
          · rfl
          · simp only
            rw [ih fun place hplace => h place (by simp [hentry, hplace])]
          · simp only
            rw [ih fun place hplace => h place (by simp [hentry, hplace])]
          · simp only
            rw [honward fun place hplace => h place (by simp [hentry, hplace])]
      · rw [trail_cons_of_not_directory hdir, trail_cons_of_not_directory (hhere ▸ hdir)]

theorem trail_congr : Agree fs fs' (fs.trail links here names) →
    fs'.trail links here names = fs.trail links here names := by
  induction links generalizing here names with
  | zero => exact trailStep_congr fun _ => rfl
  | succ links ih => exact trailStep_congr fun h => ih h

/-- A path leads to the same place in every file system that holds the same on its way. -/
theorem resolve_congr (hdir : fs'.workingDir = fs.workingDir) (h : Agree fs fs' (fs.way path)) :
    fs'.resolve follow path = fs.resolve follow path := by
  have hwalk : fs'.walk follow maxLinks [] (fs.namesTo path) (fs.slashOf path)
      = fs.walk follow maxLinks [] (fs.namesTo path) (fs.slashOf path) := walk_congr h
  simp only [resolve, hdir]
  simp only [namesTo, slashOf] at hwalk
  rw [hwalk]

theorem way_congr (hdir : fs'.workingDir = fs.workingDir) (h : Agree fs fs' (fs.way path)) :
    fs'.way path = fs.way path := by
  rw [way, namesTo, hdir, ← namesTo, trail_congr h, way]

theorem lookup_congr (hdir : fs'.workingDir = fs.workingDir) (h : Agree fs fs' (fs.way path)) :
    fs'.lookup path = fs.lookup path := by
  simp only [lookup, resolve_congr hdir h]

/-! ### What lies on a way -/

theorem trailStep_append
    (honward : ∀ {start rest place}, place ∈ fs.trailBehind links start rest →
      place ∈ fs.trailBehind links start (rest ++ more)) :
    place ∈ fs.trail links here names → place ∈ fs.trail links here (names ++ more) := by
  induction names generalizing here with
  | nil =>
      intro h
      rw [trail_nil, List.mem_singleton] at h
      exact h ▸ here_mem_trail
  | cons name rest ih =>
      rw [List.cons_append]
      by_cases hdir : fs.entry? here = some .directory
      · rcases name_cases name with rfl | rfl | ⟨hdot, hup, hlong⟩ | hname
        · rw [trail_dot hdir, trail_dot hdir]
          simp only [List.mem_cons]
          exact Or.imp_right ih
        · rw [trail_up hdir, trail_up hdir]
          simp only [List.mem_cons]
          exact Or.imp_right ih
        · rw [trail_long hdir hdot hup hlong, trail_long hdir hdot hup hlong]
          exact id
        · rw [trail_name hdir hname, trail_name hdir hname]
          simp only [List.mem_cons]
          refine Or.imp_right (Or.imp_right ?_)
          rcases fs.entry? (here ++ [name]) with _ | _ | _ | text
          · exact id
          · exact ih
          · exact ih
          · simp only [← List.append_assoc]
            exact honward
      · rw [trail_cons_of_not_directory hdir, trail_cons_of_not_directory hdir]
        exact id

/-- The way of names is the beginning of the way of more names. -/
theorem trail_append : place ∈ fs.trail links here names → place ∈ fs.trail links here (names ++ more) := by
  induction links generalizing here names place with
  | zero => exact trailStep_append fun h => by cases h
  | succ links ih => exact trailStep_append fun h => ih h

theorem trailStep_stops
    (honward : ∀ {fewer start rest}, links = fewer + 1 → (∀ dir, ¬ Leads fs true fewer start rest false (.found dir .directory)) →
      place ∈ fs.trail fewer start (rest ++ more) → place ∈ fs.trail fewer start rest)
    (hstops : ∀ dir, ¬ Leads fs true links here names false (.found dir .directory)) :
    place ∈ fs.trail links here (names ++ more) → place ∈ fs.trail links here names := by
  induction names generalizing here with
  | nil =>
      have hdir : fs.entry? here ≠ some .directory := fun hdir => hstops here (.arrive hdir nofun)
      cases more with
      | nil => exact id
      | cons name rest =>
          rw [List.nil_append, trail_cons_of_not_directory hdir, trail_nil]
          exact id
  | cons name rest ih =>
      rw [List.cons_append]
      by_cases hdir : fs.entry? here = some .directory
      · rcases name_cases name with rfl | rfl | ⟨hdot, hup, hlong⟩ | hname
        · rw [trail_dot hdir, trail_dot hdir, List.mem_cons, List.mem_cons]
          exact Or.imp_right (ih fun dir hleads => hstops dir (.dot hdir hleads))
        · rw [trail_up hdir, trail_up hdir, List.mem_cons, List.mem_cons]
          exact Or.imp_right (ih fun dir hleads => hstops dir (.up hdir hleads))
        · rw [trail_long hdir hdot hup hlong, trail_long hdir hdot hup hlong]
          exact id
        · rw [trail_name hdir hname, trail_name hdir hname]
          simp only [List.mem_cons]
          refine Or.imp_right (Or.imp_right ?_)
          rcases hentry : fs.entry? (here ++ [name]) with _ | contents | _ | text
          · exact id
          · exact ih fun dir hleads => hstops dir (.enter hdir hname hentry nofun hleads)
          · exact ih fun dir hleads => hstops dir (.enter hdir hname hentry nofun hleads)
          · cases links with
            | zero => exact id
            | succ fewer =>
                simp only [← List.append_assoc]
                exact honward rfl fun dir hleads => hstops dir (.link hdir hname hentry (fun _ => .inl rfl) hleads.of_slash)
      · rw [trail_cons_of_not_directory hdir, trail_cons_of_not_directory hdir]
        exact id

/-- Behind names that lead to no directory, a way does not go on. -/
theorem trail_stops (hstops : ∀ dir, ¬ Leads fs true links here names false (.found dir .directory)) :
    place ∈ fs.trail links here (names ++ more) → place ∈ fs.trail links here names := by
  induction links generalizing here names with
  | zero => exact trailStep_stops (fun hlinks => absurd hlinks (Nat.succ_ne_zero _).symm) hstops
  | succ links ih =>
      refine trailStep_stops (fun hlinks => ?_) hstops
      cases hlinks
      exact ih

/-- Behind names that lead to a directory, a way goes on from there. -/
theorem Leads.mem_trail_append (h : Leads fs true links here names slash (.found dir .directory)) :
    ∃ fewer, ∀ more place, place ∈ fs.trail links here (names ++ more) ↔
      place ∈ fs.trail links here names ∨ place ∈ fs.trail fewer dir more := by
  generalize htarget : Target.found dir .directory = target at h
  induction h with
  | @arrive links _ _ _ _ _ =>
      cases htarget
      refine ⟨links, fun more place => ⟨.inr, fun hplace => hplace.elim (fun hhere => ?_) id⟩⟩
      rw [trail_nil, List.mem_singleton] at hhere
      exact hhere ▸ here_mem_trail
  | dot hdir _ ih =>
      obtain ⟨fewer, hfewer⟩ := ih htarget
      refine ⟨fewer, fun more place => ?_⟩
      rw [List.cons_append, trail_dot hdir, trail_dot hdir, List.mem_cons, List.mem_cons, or_assoc]
      exact or_congr_right (hfewer more place)
  | up hdir _ ih =>
      obtain ⟨fewer, hfewer⟩ := ih htarget
      refine ⟨fewer, fun more place => ?_⟩
      rw [List.cons_append, trail_up hdir, trail_up hdir, List.mem_cons, List.mem_cons, or_assoc]
      exact or_congr_right (hfewer more place)
  | vacant => cases htarget
  | stop _ _ _ hfollow => cases hfollow
  | link hdir hname hentry _ _ ih =>
      obtain ⟨fewer, hfewer⟩ := ih htarget
      refine ⟨fewer, fun more place => ?_⟩
      rw [List.cons_append, trail_name hdir hname, trail_name hdir hname, hentry]
      simp only [List.mem_cons, or_assoc, ← List.append_assoc]
      exact or_congr_right (or_congr_right (hfewer more place))
  | @enter _ _ _ _ _ entry _ hdir hname hentry hlink _ ih =>
      obtain ⟨fewer, hfewer⟩ := ih htarget
      refine ⟨fewer, fun more place => ?_⟩
      rw [List.cons_append, trail_name hdir hname, trail_name hdir hname, hentry]
      cases entry with
      | link text => exact absurd rfl (hlink text)
      | _ =>
          simp only [List.mem_cons, or_assoc]
          exact or_congr_right (or_congr_right (hfewer more place))

/-- Without links and parents a way stays where it starts. -/
theorem prefix_of_mem_trail (hunlinked : ∀ place text, here <+: place → fs.entry? place ≠ some (.link text))
    (hup : ".." ∉ names) : place ∈ fs.trail links here names → here <+: place := by
  induction names generalizing here with
  | nil =>
      rw [trail_nil, List.mem_singleton]
      exact fun heq => heq ▸ List.prefix_refl _
  | cons name rest ih =>
      have hrest : ".." ∉ rest := fun hmem => hup (List.mem_cons_of_mem _ hmem)
      by_cases hdir : fs.entry? here = some .directory
      · rcases name_cases name with rfl | rfl | ⟨hdot, hparent, hlong⟩ | hname
        · rw [trail_dot hdir, List.mem_cons]
          exact fun hplace => hplace.elim (fun heq => heq ▸ List.prefix_refl _) (ih hunlinked hrest)
        · exact absurd List.mem_cons_self hup
        · rw [trail_long hdir hdot hparent hlong, List.mem_singleton]
          exact fun heq => heq ▸ List.prefix_refl _
        · have hbelow : here <+: here ++ [name] := List.prefix_append _ _
          have hgo : place ∈ fs.trail links (here ++ [name]) rest → here <+: place := fun hplace =>
            hbelow.trans (ih (fun other text hother => hunlinked other text (hbelow.trans hother)) hrest hplace)
          rw [trail_name hdir hname, List.mem_cons, List.mem_cons]
          rintro (rfl | rfl | hplace)
          · exact List.prefix_refl _
          · exact hbelow
          · rcases hentry : fs.entry? (here ++ [name]) with _ | _ | _ | text
            · simp [hentry] at hplace
            · exact hgo (by simpa [hentry] using hplace)
            · exact hgo (by simpa [hentry] using hplace)
            · exact absurd hentry (hunlinked _ text hbelow)
      · rw [trail_cons_of_not_directory hdir, List.mem_singleton]
        exact fun heq => heq ▸ List.prefix_refl _

/-- What is found lies at the end of the way to it. -/
theorem Leads.found_mem_trail {location : Location} {entry : Entry}
    (h : Leads fs true links here names slash (.found location entry)) : location ∈ fs.trail links here names := by
  generalize htarget : Target.found location entry = target at h
  induction h with
  | arrive =>
      cases htarget
      exact here_mem_trail
  | dot hdir _ ih =>
      rw [trail_dot hdir]
      exact List.mem_cons_of_mem _ (ih htarget)
  | up hdir _ ih =>
      rw [trail_up hdir]
      exact List.mem_cons_of_mem _ (ih htarget)
  | vacant => cases htarget
  | stop _ _ _ hfollow => cases hfollow
  | link hdir hname hentry _ _ ih =>
      rw [trail_name hdir hname, hentry]
      exact List.mem_cons_of_mem _ (List.mem_cons_of_mem _ (ih htarget))
  | @enter _ _ _ _ _ entry _ hdir hname hentry hlink _ ih =>
      rw [trail_name hdir hname, hentry]
      refine List.mem_cons_of_mem _ (List.mem_cons_of_mem _ ?_)
      cases entry with
      | link text => exact absurd rfl (hlink text)
      | _ => exact ih htarget

/-- On the way to something that is found, everything is there. -/
theorem Leads.exists_of_mem_trail {location : Location} {entry : Entry}
    (h : Leads fs true links here names slash (.found location entry))
    (hplace : place ∈ fs.trail links here names) : ∃ found, fs.entry? place = some found := by
  generalize htarget : Target.found location entry = target at h
  induction h with
  | arrive hentry _ =>
      rw [trail_nil, List.mem_singleton] at hplace
      exact ⟨_, hplace ▸ hentry⟩
  | dot hdir _ ih =>
      rw [trail_dot hdir, List.mem_cons] at hplace
      rcases hplace with rfl | hplace
      · exact ⟨_, hdir⟩
      · exact ih hplace htarget
  | up hdir _ ih =>
      rw [trail_up hdir, List.mem_cons] at hplace
      rcases hplace with rfl | hplace
      · exact ⟨_, hdir⟩
      · exact ih hplace htarget
  | vacant => cases htarget
  | stop _ _ _ hfollow => cases hfollow
  | link hdir hname hentry _ _ ih =>
      rw [trail_name hdir hname, hentry, List.mem_cons, List.mem_cons] at hplace
      rcases hplace with rfl | rfl | hplace
      · exact ⟨_, hdir⟩
      · exact ⟨_, hentry⟩
      · exact ih hplace htarget
  | @enter _ _ _ _ _ entry _ hdir hname hentry hlink _ ih =>
      rw [trail_name hdir hname, hentry, List.mem_cons, List.mem_cons] at hplace
      rcases hplace with rfl | rfl | hplace
      · exact ⟨_, hdir⟩
      · exact ⟨_, hentry⟩
      · cases entry with
        | link text => exact absurd rfl (hlink text)
        | _ => exact ih hplace htarget

end ModPackager.FileSystem
