import ModPackager.Proofs.FileSystem.Tree

/-!
# Following names

`Leads` says by rules where names lead from a location, and `walk_eq_ok_iff` that the walk finds exactly
what the rules allow. Facts on walks that arrive somewhere are then inductions over the rules, one case
for each kind of step:

* a walk arrives at the same place in every file system that holds the same directories and links
  (`Leads.persists`), and so in every one that holds more (`Leads.mono`);
* a walk through names that lead to a directory goes on from there, whatever names follow
  (`walk_append`), and a walk that gets past some names has been in a directory behind them
  (`Leads.split`);
* an invariant of the steps holds where the walk ends (`Leads.invariant`).
-/

namespace ModPackager.FileSystem

/-- A name that is looked up in the directory it is met in. -/
def Ordinary (name : String) : Prop := name ≠ "." ∧ name ≠ ".." ∧ name.utf8ByteSize ≤ maxName

theorem ValidName.ordinary {name : String} (h : ValidName name) : Ordinary name :=
  ⟨h.2.1, h.2.2.1, h.2.2.2.2⟩

/-- Where a link starts from. -/
def linkStart (target : String) (here : Location) : Location :=
  if (⟨target⟩ : Path).isAbsolute then [] else here

/-- Where names lead from a location through at most so many links, by the kinds of steps. -/
inductive Leads (fs : FileSystem) (follow : Bool) :
    Nat → Location → List String → Bool → Target → Prop
  | arrive {links here slash entry} :
      fs.entry? here = some entry → (slash = true → entry.isDirectory = true) →
      Leads fs follow links here [] slash (.found here entry)
  | dot {links here rest slash target} :
      fs.entry? here = some .directory → Leads fs follow links here rest slash target →
      Leads fs follow links here ("." :: rest) slash target
  | up {links here rest slash target} :
      fs.entry? here = some .directory → Leads fs follow links here.dropLast rest slash target →
      Leads fs follow links here (".." :: rest) slash target
  | vacant {links here name slash} :
      fs.entry? here = some .directory → Ordinary name → fs.entry? (here ++ [name]) = none →
      Leads fs follow links here [name] slash (.vacant (here ++ [name]))
  | stop {links here name text} :
      fs.entry? here = some .directory → Ordinary name →
      fs.entry? (here ++ [name]) = some (.link text) → follow = false →
      Leads fs follow links here [name] false (.found (here ++ [name]) (.link text))
  | link {links here name rest slash text target} :
      fs.entry? here = some .directory → Ordinary name →
      fs.entry? (here ++ [name]) = some (.link text) →
      (rest = [] → follow = true ∨ slash = true) →
      Leads fs follow links (linkStart text here) (namesOf text ++ rest)
        (if rest.isEmpty then slash || endsInSlash text else slash) target →
      Leads fs follow (links + 1) here (name :: rest) slash target
  | enter {links here name rest slash entry target} :
      fs.entry? here = some .directory → Ordinary name →
      fs.entry? (here ++ [name]) = some entry → (∀ text, entry ≠ .link text) →
      Leads fs follow links (here ++ [name]) rest slash target →
      Leads fs follow links here (name :: rest) slash target

variable {fs fs' : FileSystem} {follow : Bool} {links : Nat} {here : Location} {name : String}
  {names rest : List String} {slash : Bool} {target : Target}

/-! ### The steps of a walk -/

/-- What comes behind a link when so many links may still be followed. -/
def onwardFor (fs : FileSystem) (follow : Bool) : Nat → Onward
  | 0 => fun _ _ _ => .error .tooManyLinks
  | links + 1 => fs.walk follow links

theorem walk_eq (fs : FileSystem) (follow : Bool) (links : Nat) :
    fs.walk follow links = fs.walkWith follow (fs.onwardFor follow links) := by
  cases links <;> rfl

theorem walk_nil : fs.walk follow links here [] slash
    = match fs.entry? here with
      | none => .error .notFound
      | some entry =>
        if slash && !entry.isDirectory then .error .notDirectory else .ok (.found here entry) := by
  cases links <;> rfl

/-- One name further; what is said of its kinds follows. -/
theorem walk_cons : fs.walk follow links here (name :: rest) slash
    = if fs.entry? here != some .directory then .error .notDirectory
      else if name = "." then fs.walk follow links here rest slash
      else if name = ".." then fs.walk follow links here.dropLast rest slash
      else if maxName < name.utf8ByteSize then .error .nameTooLong
      else
        match fs.entry? (here ++ [name]) with
        | none => if rest.isEmpty then .ok (.vacant (here ++ [name])) else .error .notFound
        | some (.link text) =>
          if rest.isEmpty && !follow && !slash then .ok (.found (here ++ [name]) (.link text))
          else
            fs.onwardFor follow links (linkStart text here) (namesOf text ++ rest)
              (if rest.isEmpty then slash || endsInSlash text else slash)
        | some _ => fs.walk follow links (here ++ [name]) rest slash := by
  simp only [walk_eq]
  rfl

theorem walk_cons_of_not_directory (h : fs.entry? here ≠ some .directory) :
    fs.walk follow links here (name :: rest) slash = .error .notDirectory := by
  simp [walk_cons, h]

theorem walk_dot (h : fs.entry? here = some .directory) :
    fs.walk follow links here ("." :: rest) slash = fs.walk follow links here rest slash := by
  simp [walk_cons, h]

theorem walk_up (h : fs.entry? here = some .directory) :
    fs.walk follow links here (".." :: rest) slash = fs.walk follow links here.dropLast rest slash := by
  simp [walk_cons, h]

theorem walk_long (h : fs.entry? here = some .directory) (hdot : name ≠ ".") (hup : name ≠ "..")
    (hlong : maxName < name.utf8ByteSize) :
    fs.walk follow links here (name :: rest) slash = .error .nameTooLong := by
  simp [walk_cons, h, hdot, hup, hlong]

theorem walk_name (h : fs.entry? here = some .directory) (hname : Ordinary name) :
    fs.walk follow links here (name :: rest) slash
      = match fs.entry? (here ++ [name]) with
        | none => if rest.isEmpty then .ok (.vacant (here ++ [name])) else .error .notFound
        | some (.link text) =>
          if rest.isEmpty && !follow && !slash then .ok (.found (here ++ [name]) (.link text))
          else
            fs.onwardFor follow links (linkStart text here) (namesOf text ++ rest)
              (if rest.isEmpty then slash || endsInSlash text else slash)
        | some _ => fs.walk follow links (here ++ [name]) rest slash := by
  obtain ⟨hdot, hup, hsize⟩ := hname
  simp only [walk_cons, h, hdot, hup, Nat.not_lt.2 hsize, bne_self_eq_false, Bool.false_eq_true, if_false]

/-- A name that is met in a directory goes nowhere, goes up, is too long, or is looked up. -/
theorem name_cases (name : String) :
    name = "." ∨ name = ".." ∨ (name ≠ "." ∧ name ≠ ".." ∧ maxName < name.utf8ByteSize)
      ∨ Ordinary name := by
  unfold Ordinary
  by_cases hdot : name = "."
  · exact .inl hdot
  · by_cases hup : name = ".."
    · exact .inr (.inl hup)
    · rcases Nat.lt_or_ge maxName name.utf8ByteSize with hlong | hsize
      · exact .inr (.inr (.inl ⟨hdot, hup, hlong⟩))
      · exact .inr (.inr (.inr ⟨hdot, hup, hsize⟩))

/-! ### Walks and rules -/

theorem Leads.walk_eq_ok (h : Leads fs follow links here names slash target) :
    fs.walk follow links here names slash = .ok target := by
  induction h with
  | arrive hentry hslash =>
      rw [walk_nil, hentry]
      by_cases hs : slash = true <;> simp_all
  | dot hdir _ ih => rw [walk_dot hdir, ih]
  | up hdir _ ih => rw [walk_up hdir, ih]
  | vacant hdir hname hnone => simp [walk_name hdir hname, hnone]
  | stop hdir hname hentry hfollow => simp [walk_name hdir hname, hentry, hfollow]
  | @link _ _ _ rest slash _ _ hdir hname hentry hfollow _ ih =>
      have hgo : ¬ (rest.isEmpty && !follow && !slash) = true := by
        intro hstop
        simp only [Bool.and_eq_true, List.isEmpty_iff, Bool.not_eq_true'] at hstop
        rcases hfollow hstop.1.1 with h | h <;> simp_all
      rw [walk_name hdir hname, hentry]
      simp only [if_neg hgo]
      exact ih
  | @enter _ _ _ _ _ entry _ hdir hname hentry hlink _ ih =>
      rw [walk_name hdir hname, hentry]
      cases entry with
      | link text => exact absurd rfl (hlink text)
      | _ => exact ih

/-- One more link may be followed: what holds behind links holds in front of them, by induction on the
names. -/
theorem leads_of_walkStep
    (honward : ∀ {start rest' slash' target'},
      fs.onwardFor follow links start rest' slash' = .ok target' →
      ∃ fewer, links = fewer + 1 ∧ Leads fs follow fewer start rest' slash' target') :
    fs.walk follow links here names slash = .ok target → Leads fs follow links here names slash target := by
  induction names generalizing here slash with
  | nil =>
      intro h
      rw [walk_nil] at h
      split at h
      · cases h
      next entry hentry =>
          split at h
          · cases h
          next hslash =>
              obtain rfl := Except.ok.inj h
              exact .arrive hentry (by simpa using hslash)
  | cons name rest ih =>
      intro h
      by_cases hdir : fs.entry? here = some .directory
      · rcases name_cases name with rfl | rfl | ⟨hdot, hup, hlong⟩ | hname
        · exact .dot hdir (ih (walk_dot hdir ▸ h))
        · exact .up hdir (ih (walk_up hdir ▸ h))
        · rw [walk_long hdir hdot hup hlong] at h
          cases h
        · rw [walk_name hdir hname] at h
          split at h
          next hnone =>
              split at h
              next hrest =>
                  obtain rfl := Except.ok.inj h
                  obtain rfl := List.isEmpty_iff.1 hrest
                  exact .vacant hdir hname hnone
              · cases h
          next text hentry =>
              split at h
              next hstop =>
                  simp only [Bool.and_eq_true, List.isEmpty_iff, Bool.not_eq_true'] at hstop
                  obtain ⟨⟨rfl, hfollow⟩, rfl⟩ := hstop
                  obtain rfl := Except.ok.inj h
                  exact .stop hdir hname hentry hfollow
              next hgo =>
                  obtain ⟨fewer, rfl, hleads⟩ := honward h
                  refine .link hdir hname hentry (fun hrest => ?_) hleads
                  by_contra hnot
                  simp_all
          next entry hlink hentry =>
              exact .enter hdir hname hentry (fun text heq => hlink text heq) (ih h)
      · rw [walk_cons_of_not_directory hdir] at h
        cases h

theorem leads_of_walk : fs.walk follow links here names slash = .ok target →
    Leads fs follow links here names slash target := by
  induction links generalizing here names slash target with
  | zero => exact leads_of_walkStep fun h => by cases h
  | succ links ih => exact leads_of_walkStep fun h => ⟨links, rfl, ih h⟩

/-- The walk finds exactly what the rules allow. -/
theorem walk_eq_ok_iff : fs.walk follow links here names slash = .ok target ↔
    Leads fs follow links here names slash target :=
  ⟨leads_of_walk, Leads.walk_eq_ok⟩

theorem Leads.unique {other : Target} (h : Leads fs follow links here names slash target)
    (h' : Leads fs follow links here names slash other) : target = other :=
  Except.ok.inj (h.walk_eq_ok.symm.trans h'.walk_eq_ok)

/-! ### What is found -/

theorem Leads.entry?_found {location : Location} {entry : Entry}
    (h : Leads fs follow links here names slash (.found location entry)) :
    fs.entry? location = some entry := by
  generalize htarget : Target.found location entry = target at h
  induction h with
  | arrive hentry _ => cases htarget; exact hentry
  | vacant => cases htarget
  | stop _ _ hentry _ => cases htarget; exact hentry
  | _ => simp_all

/-- A vacant place is a missing entry of a directory, under a name that can be looked up. -/
theorem Leads.vacant_inv {location : Location}
    (h : Leads fs follow links here names slash (.vacant location)) :
    ∃ dir name, location = dir ++ [name] ∧ fs.entry? dir = some .directory ∧ Ordinary name
      ∧ fs.entry? location = none := by
  generalize htarget : Target.vacant location = target at h
  induction h with
  | arrive => cases htarget
  | vacant hdir hname hnone => cases htarget; exact ⟨_, _, rfl, hdir, hname, hnone⟩
  | stop => cases htarget
  | _ => simp_all

/-- Names are looked up in directories only. -/
theorem Leads.directory (h : Leads fs follow links here names slash target) (hne : names ≠ []) :
    fs.entry? here = some .directory := by
  cases h with
  | arrive => exact absurd rfl hne
  | _ => assumption

/-- To a directory it does not matter whether one is asked for. -/
theorem Leads.of_slash {slash' : Bool} {location : Location}
    (h : Leads fs true links here names slash (.found location .directory)) :
    Leads fs true links here names slash' (.found location .directory) := by
  generalize htarget : Target.found location .directory = target at h
  induction h generalizing slash' with
  | arrive hentry _ => cases htarget; exact .arrive hentry fun _ => rfl
  | dot hdir _ ih => exact .dot hdir (ih htarget)
  | up hdir _ ih => exact .up hdir (ih htarget)
  | vacant => cases htarget
  | stop _ _ _ hfollow => cases hfollow
  | link hdir hname hentry _ _ ih => exact .link hdir hname hentry (fun _ => .inl rfl) (ih htarget)
  | enter hdir hname hentry hlink _ ih => exact .enter hdir hname hentry hlink (ih htarget)

/-- Where a directory is asked for, it is one that is found. -/
theorem Leads.isDirectory {location : Location} {entry : Entry}
    (h : Leads fs follow links here names slash (.found location entry)) (hslash : slash = true) :
    entry.isDirectory = true := by
  generalize htarget : Target.found location entry = target at h
  induction h with
  | arrive _ hentry => cases htarget; exact hentry hslash
  | dot _ _ ih => exact ih hslash htarget
  | up _ _ ih => exact ih hslash htarget
  | vacant => cases htarget
  | stop => cases hslash
  | link _ _ _ _ _ ih => exact ih (by simp [hslash]) htarget
  | enter _ _ _ _ _ ih => exact ih hslash htarget

/-- What is found is found in every file system that holds the same directories and links, where a file may
have other bytes at the end. -/
theorem Leads.persists {location : Location} {entry entry' : Entry}
    (hkept : ∀ {place found}, fs.entry? place = some found → (∀ contents, found ≠ .file contents) →
      fs'.entry? place = some found)
    (hend : fs'.entry? location = some entry')
    (hkind : entry' = entry ∨ ∃ old new, entry = .file old ∧ entry' = .file new)
    (h : Leads fs follow links here names slash (.found location entry)) :
    Leads fs' follow links here names slash (.found location entry') := by
  generalize htarget : Target.found location entry = target at h
  induction h with
  | arrive hentry hslash =>
      cases htarget
      rcases hkind with rfl | ⟨old, new, rfl, rfl⟩
      · exact .arrive hend hslash
      · exact .arrive hend hslash
  | dot hdir _ ih => exact .dot (hkept hdir nofun) (ih htarget)
  | up hdir _ ih => exact .up (hkept hdir nofun) (ih htarget)
  | vacant => cases htarget
  | stop hdir hname hentry hfollow =>
      cases htarget
      rcases hkind with rfl | ⟨old, new, hfile, -⟩
      · exact .stop (hkept hdir nofun) hname hend hfollow
      · cases hfile
  | link hdir hname hentry hfollow _ ih =>
      exact .link (hkept hdir nofun) hname (hkept hentry nofun) hfollow (ih htarget)
  | @enter _ here name rest _ found _ hdir hname hentry hlink hrest ih =>
      by_cases hfile : ∃ contents, found = .file contents
      · -- Behind a file there are no more names, so it is what is found.
        obtain ⟨contents, rfl⟩ := hfile
        subst htarget
        have hnil : rest = [] := by
          by_contra hne
          rw [hrest.directory hne] at hentry
          cases hentry
        subst hnil
        cases hrest with
        | arrive hthere hslash =>
            refine .enter (hkept hdir nofun) hname hend ?_ (ih rfl)
            rcases hkind with rfl | ⟨old, new, -, rfl⟩
            · exact fun text heq => hlink text (Option.some.inj (hentry.symm.trans (heq ▸ hthere)))
            · exact nofun
      · exact .enter (hkept hdir nofun) hname (hkept hentry (not_exists.1 hfile)) hlink (ih htarget)

/-- What is found is found in every file system that holds more. -/
theorem Leads.mono {location : Location} {entry : Entry}
    (hmore : ∀ {place found}, fs.entry? place = some found → fs'.entry? place = some found)
    (h : Leads fs follow links here names slash (.found location entry)) :
    Leads fs' follow links here names slash (.found location entry) :=
  h.persists (fun hfound _ => hmore hfound) (hmore h.entry?_found) (.inl rfl)

/-- Something has the first name of a walk that finds something, if that is a name. -/
theorem Leads.exists_first {location : Location} {entry : Entry}
    (h : Leads fs follow links here (name :: rest) slash (.found location entry)) (hdot : name ≠ ".")
    (hup : name ≠ "..") : ∃ found, fs.entry? (here ++ [name]) = some found := by
  cases h with
  | dot => exact absurd rfl hdot
  | up => exact absurd rfl hup
  | stop _ _ hentry _ => exact ⟨_, hentry⟩
  | link _ _ hentry _ _ => exact ⟨_, hentry⟩
  | enter _ _ hentry _ _ => exact ⟨_, hentry⟩

/-- Where a link at the end would be followed if asked for, a vacant place is the same either way. -/
theorem Leads.follow_vacant {location : Location}
    (h : Leads fs false links here names slash (.vacant location)) :
    Leads fs true links here names slash (.vacant location) := by
  generalize htarget : Target.vacant location = target at h ⊢
  induction h with
  | arrive => cases htarget
  | dot hdir _ ih => exact .dot hdir (ih htarget)
  | up hdir _ ih => exact .up hdir (ih htarget)
  | vacant hdir hname hnone => exact .vacant hdir hname hnone
  | stop => cases htarget
  | link hdir hname hentry _ _ ih => exact .link hdir hname hentry (fun _ => .inl rfl) (ih htarget)
  | enter hdir hname hentry hlink _ ih => exact .enter hdir hname hentry hlink (ih htarget)

/-- Where a link at the end is followed, it is found if it is not. -/
theorem Leads.unfollow (h : Leads fs true links here names slash target) :
    Leads fs false links here names slash target
      ∨ ∃ place text, Leads fs false links here names slash (.found place (.link text)) := by
  induction h with
  | arrive hentry hslash => exact .inl (.arrive hentry hslash)
  | dot hdir _ ih => exact ih.imp (.dot hdir) fun ⟨place, text, h⟩ => ⟨place, text, .dot hdir h⟩
  | up hdir _ ih => exact ih.imp (.up hdir) fun ⟨place, text, h⟩ => ⟨place, text, .up hdir h⟩
  | vacant hdir hname hnone => exact .inl (.vacant hdir hname hnone)
  | stop _ _ _ hfollow => cases hfollow
  | @link _ here name rest slash text _ hdir hname hentry _ _ ih =>
      by_cases hstop : rest = [] ∧ slash = false
      · obtain ⟨rfl, rfl⟩ := hstop
        exact .inr ⟨_, _, .stop hdir hname hentry rfl⟩
      · have hgo : rest = [] → false = true ∨ slash = true := fun hrest =>
          .inr (by simpa [hrest] using hstop)
        exact ih.imp (.link hdir hname hentry hgo) fun ⟨place, other, h⟩ => ⟨place, other, .link hdir hname hentry hgo h⟩
  | enter hdir hname hentry hlink _ ih =>
      exact ih.imp (.enter hdir hname hentry hlink) fun ⟨place, text, h⟩ =>
        ⟨place, text, .enter hdir hname hentry hlink h⟩

/-! ### Going on from a directory -/

/-- Names that lead to a directory can be dropped from the front of others. -/
theorem Leads.walk_append {dir : Location}
    (h : Leads fs true links here names slash (.found dir .directory)) :
    ∃ fewer, ∀ follow more slash', more ≠ [] →
      fs.walk follow links here (names ++ more) slash' = fs.walk follow fewer dir more slash' := by
  generalize htarget : Target.found dir .directory = target at h
  induction h with
  | @arrive links _ _ _ _ _ => cases htarget; exact ⟨links, fun _ _ _ _ => rfl⟩
  | dot hdir _ ih =>
      obtain ⟨fewer, hfewer⟩ := ih htarget
      exact ⟨fewer, fun follow more slash' hmore => by
        rw [List.cons_append, walk_dot hdir, hfewer follow more slash' hmore]⟩
  | up hdir _ ih =>
      obtain ⟨fewer, hfewer⟩ := ih htarget
      exact ⟨fewer, fun follow more slash' hmore => by
        rw [List.cons_append, walk_up hdir, hfewer follow more slash' hmore]⟩
  | vacant => cases htarget
  | stop _ _ _ hfollow => cases hfollow
  | link hdir hname hentry _ _ ih =>
      obtain ⟨fewer, hfewer⟩ := ih htarget
      refine ⟨fewer, fun follow more slash' hmore => ?_⟩
      rw [List.cons_append, walk_name hdir hname, hentry]
      simp only [List.isEmpty_iff, List.append_eq_nil_iff, hmore, and_false, if_false,
        ← List.append_assoc]
      simpa [hmore, onwardFor] using hfewer follow more slash' hmore
  | @enter _ _ _ _ _ entry _ hdir hname hentry hlink _ ih =>
      obtain ⟨fewer, hfewer⟩ := ih htarget
      refine ⟨fewer, fun follow more slash' hmore => ?_⟩
      rw [List.cons_append, walk_name hdir hname, hentry]
      cases entry with
      | link text => exact absurd rfl (hlink text)
      | _ => exact hfewer follow more slash' hmore

/-- A walk that gets past some names has been in a directory behind them. -/
theorem Leads.split {before more : List String} (hmore : more ≠ [])
    (h : Leads fs follow links here (before ++ more) slash target) :
    ∃ dir, Leads fs true links here before false (.found dir .directory) := by
  generalize hnames : before ++ more = names at h
  induction h generalizing before with
  | arrive => simp_all
  | @dot _ _ rest _ _ hdir _ ih =>
      rcases before with _ | ⟨first, before⟩
      · exact ⟨_, .arrive hdir nofun⟩
      · obtain ⟨rfl, hrest⟩ := List.cons.inj hnames
        obtain ⟨dir, hdir'⟩ := ih hrest
        exact ⟨dir, .dot hdir hdir'⟩
  | up hdir _ ih =>
      rcases before with _ | ⟨first, before⟩
      · exact ⟨_, .arrive hdir nofun⟩
      · obtain ⟨rfl, hrest⟩ := List.cons.inj hnames
        obtain ⟨dir, hdir'⟩ := ih hrest
        exact ⟨dir, .up hdir hdir'⟩
  | vacant hdir =>
      rcases before with _ | ⟨first, before⟩
      · exact ⟨_, .arrive hdir nofun⟩
      · simp_all
  | stop hdir =>
      rcases before with _ | ⟨first, before⟩
      · exact ⟨_, .arrive hdir nofun⟩
      · simp_all
  | @link _ _ _ rest _ text _ hdir hname hentry _ _ ih =>
      rcases before with _ | ⟨first, before⟩
      · exact ⟨_, .arrive hdir nofun⟩
      · obtain ⟨rfl, rfl⟩ := List.cons.inj hnames
        obtain ⟨dir, hdir'⟩ := ih (List.append_assoc (namesOf text) before _)
        exact ⟨dir, .link hdir hname hentry (fun _ => .inl rfl) hdir'.of_slash⟩
  | enter hdir hname hentry hlink _ ih =>
      rcases before with _ | ⟨first, before⟩
      · exact ⟨_, .arrive hdir nofun⟩
      · obtain ⟨rfl, hrest⟩ := List.cons.inj hnames
        obtain ⟨dir, hdir'⟩ := ih hrest
        exact ⟨dir, .enter hdir hname hentry hlink hdir'⟩

end ModPackager.FileSystem
