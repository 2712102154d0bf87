import ModPackager.Proofs.FileSystem.Climb
import ModPackager.Proofs.FileSystem.Walk
import ModPackager.Proofs.Path.Names

/-!
# Where paths lead

A path leads where its names lead from the root (`resolve_eq_ok_iff`). What the questions about a path
answer is read off that: `lookup`, `canonical?`, `holds`, `holdsDirectory`.

Without links on the way, names lead to the location that they spell (`Leads.place_eq`): `climb` is
that location, where a dot goes nowhere and a parent drops a name.
-/

namespace ModPackager

namespace FileSystem

variable {fs fs' : FileSystem} {follow : Bool} {links : Nat} {here dir location : Location}
  {names before more : List String} {slash : Bool} {target : Target} {path : Path} {entry : Entry}

/-! ### Ways without links -/

theorem climbStep_of_ordinary {name : String} (h : Ordinary name) (here : Location) :
    climbStep here name = here ++ [name] := climbStep_of_ne h.1 h.2.1 here

/-- No name up to here spells the location of a link. -/
def Unlinked (fs : FileSystem) (here : Location) (names : List String) : Prop :=
  ∀ front, front <+: names → ∀ text, fs.entry? (climb here front) ≠ some (.link text)

theorem Unlinked.of_prefix (h : fs.Unlinked here names) (hpre : before <+: names) :
    fs.Unlinked here before := fun front hfront => h front (hfront.trans hpre)

theorem Unlinked.tail {name : String} (h : fs.Unlinked here (name :: names)) :
    fs.Unlinked (climbStep here name) names := fun front hfront =>
  h (name :: front) (List.cons_prefix_cons.2 ⟨rfl, hfront⟩)

/-- The location that a path leads to. -/
def Target.place : Target → Location
  | .found location _ | .vacant location => location

/-- Without links names lead to the location that they spell. -/
theorem Leads.place_eq (h : Leads fs follow links here names slash target)
    (hunlinked : fs.Unlinked here names) : target.place = climb here names := by
  induction h with
  | arrive => rfl
  | dot _ _ ih => exact ih hunlinked.tail
  | up _ _ ih => exact ih hunlinked.tail
  | vacant _ hname _ => simp [climbStep_of_ordinary hname, Target.place]
  | stop _ hname _ _ => simp [climbStep_of_ordinary hname, Target.place]
  | @link _ here name _ _ text _ _ hname hentry _ _ _ =>
      refine absurd hentry ?_
      simpa [climbStep_of_ordinary hname] using hunlinked [name] (by simp) text
  | enter _ hname _ _ _ ih =>
      rw [ih (climbStep_of_ordinary hname _ ▸ hunlinked.tail), climb_cons, climbStep_of_ordinary hname]

/-- On the way there the names spell directories. -/
theorem Leads.isDirectory_climb (h : Leads fs follow links here (before ++ more) slash target)
    (hmore : more ≠ []) (hunlinked : fs.Unlinked here before) :
    fs.entry? (climb here before) = some .directory := by
  obtain ⟨dir, hdir⟩ := h.split hmore
  rw [← hdir.place_eq hunlinked]
  exact hdir.entry?_found

/-- Names lead to the location that they spell, if directories are on the way. -/
theorem WellFormed.leads_fronts (wf : fs.WellFormed)
    (hfronts : ∀ front, front <+: names → front ≠ names → fs.entry? (climb here front) = some .directory)
    (hend : fs.entry? (climb here names) = some entry) (hlink : ∀ text, entry ≠ .link text) :
    Leads fs follow links here names false (.found (climb here names) entry) := by
  induction names generalizing here with
  | nil => exact .arrive hend nofun
  | cons name rest ih =>
      have hhere : fs.entry? here = some .directory := hfronts [] List.nil_prefix (List.cons_ne_nil _ _).symm
      have hrest : ∀ front, front <+: rest → front ≠ rest →
          fs.entry? (climb (climbStep here name) front) = some .directory := fun front hfront hne =>
        hfronts (name :: front) (List.cons_prefix_cons.2 ⟨rfl, hfront⟩) fun heq => hne (List.cons.inj heq).2
      have hbehind := ih hrest hend
      by_cases hdot : name = "."
      · subst hdot
        exact .dot hhere hbehind
      · by_cases hup : name = ".."
        · subst hup
          exact .up hhere hbehind
        · have hstep := climbStep_of_ne hdot hup here
          -- The entry of the first name is a directory on the way, or the end of it.
          obtain ⟨found, hfound, hplain⟩ : ∃ found, fs.entry? (here ++ [name]) = some found
              ∧ ∀ text, found ≠ .link text := by
            by_cases hnil : rest = []
            · rw [hnil, climb_cons, climb_nil, hstep] at hend
              exact ⟨entry, hend, hlink⟩
            · have hdir := hrest [] List.nil_prefix (Ne.symm hnil)
              rw [climb_nil, hstep] at hdir
              exact ⟨.directory, hdir, nofun⟩
          rw [climb_cons]
          rw [hstep] at hbehind ⊢
          exact .enter hhere (wf.validName hfound).ordinary hfound hplain hbehind

/-- Names without parents lead to the location that they spell, if that is a directory and so is what lies
above it. -/
theorem WellFormed.leads_climb (wf : fs.WellFormed) (hup : ".." ∉ names)
    (hdir : fs.entry? (climb here names) = some .directory) :
    Leads fs true links here names false (.found (climb here names) .directory) := by
  refine wf.leads_fronts (fun front hfront _ => ?_) hdir nofun
  obtain ⟨below, hbelow⟩ : climb here front <+: climb here names := climb_prefix hup hfront
  rw [← hbelow] at hdir
  by_cases hnil : below = []
  · rwa [hnil, List.append_nil] at hdir
  · exact wf.isDirectory_of_append hnil hdir

/-! ### Names from the root -/

/-- Names lead from the root to a directory. -/
def LeadsTo (fs : FileSystem) (names : List String) (dir : Location) : Prop :=
  Leads fs true maxLinks [] names false (.found dir .directory)

theorem LeadsTo.unique {other : Location} (h : fs.LeadsTo names dir) (h' : fs.LeadsTo names other) :
    dir = other := by
  have htarget := Leads.unique h h'
  injection htarget

theorem LeadsTo.isDirectory (h : fs.LeadsTo names dir) : fs.entry? dir = some .directory := h.entry?_found

theorem leadsTo_nil (fs : FileSystem) : fs.LeadsTo [] [] := .arrive rfl nofun

/-- Behind names that lead to a directory, a walk goes on from there. -/
theorem LeadsTo.walk_append (h : fs.LeadsTo names dir) :
    ∃ fewer, ∀ {follow more slash target},
      (Leads fs follow maxLinks [] (names ++ more) slash target → more ≠ [] →
        Leads fs follow fewer dir more slash target)
      ∧ (Leads fs follow fewer dir more slash target → more ≠ [] →
        Leads fs follow maxLinks [] (names ++ more) slash target) := by
  obtain ⟨fewer, hfewer⟩ := Leads.walk_append h
  refine ⟨fewer, fun {follow more slash target} => ⟨fun hleads hmore => ?_, fun hleads hmore => ?_⟩⟩
  · rw [← walk_eq_ok_iff, ← hfewer follow more slash hmore]
    exact hleads.walk_eq_ok
  · rw [← walk_eq_ok_iff, hfewer follow more slash hmore]
    exact hleads.walk_eq_ok

/-- Names that lead to a directory below another one lead there from the other one on. -/
theorem LeadsTo.append (h : fs.LeadsTo before here)
    (hbehind : ∀ links, Leads fs true links here names false (.found dir .directory)) : fs.LeadsTo (before ++ names) dir := by
  by_cases hnil : names = []
  · subst hnil
    cases hbehind 0 with
    | arrive => rwa [List.append_nil]
  · obtain ⟨fewer, hfewer⟩ := h.walk_append
    exact hfewer.2 (hbehind fewer) hnil

/-- Names lead to a directory, or stop leading to one with one of them. -/
theorem leadsTo_or_stops (fs : FileSystem) (names : List String) : (∃ dir, fs.LeadsTo names dir) ∨
    ∃ known name rest base, names = known ++ name :: rest ∧ fs.LeadsTo known base
      ∧ ∀ dir, ¬ fs.LeadsTo (known ++ [name]) dir := by
  induction names using List.reverseRecOn with
  | nil => exact .inl ⟨[], leadsTo_nil fs⟩
  | append_singleton names name ih =>
      rcases ih with ⟨base, hbase⟩ | ⟨known, first, rest, base, rfl, hbase, hstops⟩
      · by_cases hdir : ∃ dir, fs.LeadsTo (names ++ [name]) dir
        · exact .inl hdir
        · exact .inr ⟨names, name, [], base, rfl, hbase, not_exists.1 hdir⟩
      · exact .inr ⟨known, first, rest ++ [name], base, by simp, hbase, hstops⟩

/-- A name with which names stop leading to a directory is no dot and no parent. -/
theorem LeadsTo.ne_of_stops {name : String} {base : Location} (h : fs.LeadsTo names base)
    (wf : fs.WellFormed) (hstops : ∀ dir, ¬ fs.LeadsTo (names ++ [name]) dir) : name ≠ "." ∧ name ≠ ".." := by
  obtain ⟨fewer, hfewer⟩ := h.walk_append
  constructor
  · rintro rfl
    exact hstops base (hfewer.2 (.dot h.isDirectory (.arrive h.isDirectory nofun)) (by simp))
  · rintro rfl
    refine hstops base.dropLast (hfewer.2 (.up h.isDirectory (.arrive ?_ nofun)) (by simp))
    rcases List.eq_nil_or_concat base with rfl | ⟨front, last, rfl⟩
    · rfl
    · rw [List.concat_eq_append, List.dropLast_concat]
      exact wf.isDirectory_of_child (List.concat_eq_append ▸ h.isDirectory)

/-! ### Paths -/

/-- Paths that are followed at all: not empty, not too long, without the character that ends texts. -/
def Followable (path : Path) : Prop :=
  '\x00' ∉ path.text.toList ∧ path.text ≠ "" ∧ path.text.utf8ByteSize < tooLong

/-- Whether what a path leads to must be a directory. -/
def slashOf (fs : FileSystem) (path : Path) : Bool := endsInSlash (fs.workingDir.join path).text

/-- A path leads where its names lead from the root. -/
theorem resolve_eq_ok_iff : fs.resolve follow path = .ok target ↔
    Followable path ∧ Leads fs follow maxLinks [] (fs.namesTo path) (fs.slashOf path) target := by
  rw [← walk_eq_ok_iff]
  simp only [resolve, Followable, namesTo, slashOf]
  by_cases hnul : '\x00' ∈ path.text.toList
  · simp [hnul]
  · by_cases hempty : path.text = ""
    · simp [hempty]
    · by_cases hlong : tooLong ≤ path.text.utf8ByteSize
      · simp [hnul, hempty, hlong, Nat.not_lt.2 hlong]
      · simp [hnul, hempty, hlong, Nat.lt_of_not_le hlong]

theorem lookup_eq_ok_iff :
    fs.lookup path = .ok (location, entry) ↔ fs.resolve true path = .ok (.found location entry) := by
  unfold lookup
  cases fs.resolve true path with
  | error fault => simp [bind, Except.bind]
  | ok target => cases target <;> simp [bind, Except.bind]

theorem lookup?_eq_some_iff :
    fs.lookup? path = some (location, entry) ↔ fs.resolve true path = .ok (.found location entry) := by
  rw [← lookup_eq_ok_iff, lookup?]
  cases fs.lookup path <;> simp [Except.toOption]

theorem lookup?_of_not_followable (h : ¬ Followable path) : fs.lookup? path = none := by
  by_contra hsome
  obtain ⟨⟨place, found⟩, hfound⟩ := Option.ne_none_iff_exists'.1 hsome
  exact h (resolve_eq_ok_iff.1 (lookup?_eq_some_iff.1 hfound)).1

theorem canonical?_eq_some_iff :
    fs.canonical? path = some location ↔ ∃ entry, fs.resolve true path = .ok (.found location entry) := by
  simp [canonical?, ← lookup?_eq_some_iff]

theorem holdsDirectory_iff :
    fs.holdsDirectory path = true ↔ ∃ dir, fs.resolve true path = .ok (.found dir .directory) := by
  simp only [← lookup?_eq_some_iff, holdsDirectory]
  rcases fs.lookup? path with _ | ⟨place, _ | _ | _⟩ <;> simp

theorem holdsFile_iff :
    fs.holdsFile path = true ↔
      ∃ place contents, fs.resolve true path = .ok (.found place (.file contents)) := by
  simp only [← lookup?_eq_some_iff, holdsFile]
  rcases fs.lookup? path with _ | ⟨place, _ | _ | _⟩ <;> simp

/-- A path that leads to a directory does so by its names. -/
theorem leadsTo_of_resolve (h : fs.resolve true path = .ok (.found dir .directory)) :
    fs.LeadsTo (fs.namesTo path) dir := (resolve_eq_ok_iff.1 h).2.of_slash

theorem resolve_of_canonical? (hholds : fs.holdsDirectory path = true) (hdir : fs.canonical? path = some dir) :
    fs.resolve true path = .ok (.found dir .directory) := by
  obtain ⟨other, hresolve⟩ := holdsDirectory_iff.1 hholds
  obtain ⟨entry, hfound⟩ := canonical?_eq_some_iff.1 hdir
  rw [hresolve] at hfound
  cases hfound
  exact hresolve

theorem leadsTo_of_canonical? (hholds : fs.holdsDirectory path = true)
    (hdir : fs.canonical? path = some dir) : fs.LeadsTo (fs.namesTo path) dir :=
  leadsTo_of_resolve (resolve_of_canonical? hholds hdir)

/-- What a path leads to is the same in a file system that holds the same directories and links, where a file
may have other bytes. -/
theorem resolve_persists {entry' : Entry}
    (hkept : ∀ {place found}, fs.entry? place = some found → (∀ contents, found ≠ .file contents) →
      fs'.entry? place = some found)
    (hend : fs'.entry? location = some entry')
    (hkind : entry' = entry ∨ ∃ old new, entry = .file old ∧ entry' = .file new)
    (hdir : fs'.workingDir = fs.workingDir) (h : fs.resolve follow path = .ok (.found location entry)) :
    fs'.resolve follow path = .ok (.found location entry') := by
  obtain ⟨hpath, hleads⟩ := resolve_eq_ok_iff.1 h
  refine resolve_eq_ok_iff.2 ⟨hpath, ?_⟩
  rw [namesTo, slashOf, hdir]
  exact hleads.persists hkept hend hkind

/-- What a path leads to is the same in a file system that holds more. -/
theorem resolve_mono (hmore : ∀ {place found}, fs.entry? place = some found → fs'.entry? place = some found)
    (hdir : fs'.workingDir = fs.workingDir)
    (h : fs.resolve follow path = .ok (.found location entry)) :
    fs'.resolve follow path = .ok (.found location entry) :=
  resolve_persists (fun hfound _ => hmore hfound) (hmore (resolve_eq_ok_iff.1 h).2.entry?_found) (.inl rfl) hdir h

/-- A path leads to the location that its names spell from a directory on, if there are no links from
there on. -/
theorem place_eq_climb (h : fs.resolve follow path = .ok target)
    (hnames : fs.namesTo path = names ++ more) (hdir : fs.LeadsTo names dir)
    (hunlinked : fs.Unlinked dir more) (hfollow : more = [] → follow = true) :
    target.place = climb dir more := by
  obtain ⟨-, hleads⟩ := resolve_eq_ok_iff.1 h
  rw [hnames] at hleads
  by_cases hmore : more = []
  · subst hmore
    obtain rfl := hfollow rfl
    rw [List.append_nil] at hleads
    obtain rfl := hleads.unique (Leads.of_slash hdir)
    rfl
  · obtain ⟨fewer, hfewer⟩ := hdir.walk_append
    exact (hfewer.1 hleads hmore).place_eq hunlinked

/-! ### Entries of directories -/

/-- What one name leads to, unless it is that of a link which is followed. -/
theorem Leads.name_inv {name : String} (h : Leads fs follow links here [name] false target) (hdot : name ≠ ".")
    (hup : name ≠ "..") (hlink : follow = true → ∀ text, fs.entry? (here ++ [name]) ≠ some (.link text)) :
    target.place = here ++ [name] := by
  cases h with
  | dot => exact absurd rfl hdot
  | up => exact absurd rfl hup
  | vacant => rfl
  | stop => rfl
  | link _ _ hentry hfollow =>
      exact absurd hentry (hlink ((hfollow rfl).resolve_right Bool.false_ne_true) _)
  | enter _ _ _ _ h =>
      cases h with
      | arrive => rfl

theorem endsInSlash_append {a b : String} (h : b ≠ "") : endsInSlash (a ++ b) = endsInSlash b := by
  simp [endsInSlash, h]

theorem endsInSlash_join {base : Path} (h : path.text ≠ "") :
    endsInSlash (base.join path).text = endsInSlash path.text := by
  unfold Path.join
  split
  · rfl
  · split
    · exact endsInSlash_append h
    · exact endsInSlash_append h

theorem endsInSlash_name {name : String} (h : '/' ∉ name.toList) : endsInSlash name = false := by
  simp only [endsInSlash, beq_eq_false_iff_ne, ne_eq]
  intro hlast
  exact h (List.mem_of_getLast? hlast)

theorem slashOf_of_ne (h : path.text ≠ "") : fs.slashOf path = endsInSlash path.text :=
  endsInSlash_join h

theorem endsInSlash_child {name : String} (hne : name ≠ "") (hslash : '/' ∉ name.toList) :
    endsInSlash (path.child name).text = false := by
  rw [Path.child, endsInSlash_join hne, endsInSlash_name hslash]

theorem slashOf_child {name : String} (hne : name ≠ "") (hslash : '/' ∉ name.toList) :
    fs.slashOf (path.child name) = false := by
  rw [slashOf_of_ne (Path.text_child_ne hne hslash), endsInSlash_child hne hslash]

/-- A trimmed path that is to be a directory is the root. -/
theorem namesTo_of_slash (htrimmed : path.Trimmed) (hpath : path.text ≠ "")
    (hslash : fs.slashOf path = true) : fs.namesTo path = [] := by
  have htext := htrimmed (slashOf_of_ne hpath ▸ hslash)
  rw [namesTo_of_isAbsolute fs (by simp [Path.isAbsolute, htext]), htext]
  decide

section Entries

variable {name : String} (hne : name ≠ "") (hslash : '/' ∉ name.toList)

include hne hslash

/-- The path of an entry leads to it, unless it is a link that is followed. -/
theorem place_entry (hdot : name ≠ ".") (hup : name ≠ "..") (hpath : path.text ≠ "")
    (hdir : fs.LeadsTo (fs.namesTo path) dir)
    (hlink : follow = true → ∀ text, fs.entry? (dir ++ [name]) ≠ some (.link text))
    (h : fs.resolve follow (path.child name) = .ok target) : target.place = dir ++ [name] := by
  obtain ⟨-, hleads⟩ := resolve_eq_ok_iff.1 h
  rw [slashOf_child hne hslash, namesTo_child fs hpath hne hslash] at hleads
  obtain ⟨fewer, hfewer⟩ := LeadsTo.walk_append hdir
  exact (hfewer.1 hleads (by simp)).name_inv hdot hup hlink

/-- What is in a directory is found on its path, unless it is a link. -/
theorem resolve_entry (hname : Ordinary name) (hfollow : Followable (path.child name))
    (hdir : fs.resolve true path = .ok (.found dir .directory)) (hentry : fs.entry? (dir ++ [name]) = some entry)
    (hlink : ∀ text, entry ≠ .link text) :
    fs.resolve follow (path.child name) = .ok (.found (dir ++ [name]) entry) := by
  obtain ⟨⟨-, hpath, -⟩, -⟩ := resolve_eq_ok_iff.1 hdir
  have hleads := leadsTo_of_resolve hdir
  obtain ⟨fewer, hfewer⟩ := hleads.walk_append
  refine resolve_eq_ok_iff.2 ⟨hfollow, ?_⟩
  rw [slashOf_child hne hslash, namesTo_child fs hpath hne hslash]
  exact hfewer.2 (.enter hleads.isDirectory hname hentry hlink (.arrive hentry nofun)) (by simp)

/-- The path of an entry that is not in a directory leads to its place. -/
theorem resolve_vacant (hname : Ordinary name) (hfollow : Followable (path.child name))
    (hdir : fs.resolve true path = .ok (.found dir .directory)) (hnone : fs.entry? (dir ++ [name]) = none) :
    fs.resolve follow (path.child name) = .ok (.vacant (dir ++ [name])) := by
  obtain ⟨⟨-, hpath, -⟩, -⟩ := resolve_eq_ok_iff.1 hdir
  have hleads := leadsTo_of_resolve hdir
  obtain ⟨fewer, hfewer⟩ := hleads.walk_append
  refine resolve_eq_ok_iff.2 ⟨hfollow, ?_⟩
  rw [slashOf_child hne hslash, namesTo_child fs hpath hne hslash]
  exact hfewer.2 (.vacant hleads.isDirectory hname hnone) (by simp)

/-- An entry is looked up in the directory that the path of the directory leads to. -/
theorem leadsTo_of_resolve_child (hpath : path.text ≠ "") (h : fs.resolve follow (path.child name) = .ok target) :
    ∃ dir, fs.LeadsTo (fs.namesTo path) dir := by
  obtain ⟨-, hleads⟩ := resolve_eq_ok_iff.1 h
  rw [namesTo_child fs hpath hne hslash] at hleads
  exact hleads.split (by simp)

end Entries

/-- The path of an entry leads to it in the directory that the path of the directory leads to. -/
theorem place_child {name : String} (hname : ValidName name) (hpath : path.text ≠ "")
    (h : fs.resolve false (path.child name) = .ok target) :
    ∃ dir, fs.LeadsTo (fs.namesTo path) dir ∧ target.place = dir ++ [name] := by
  obtain ⟨hne, hdot, hup, hslash, -⟩ := hname
  obtain ⟨dir, hdir⟩ := leadsTo_of_resolve_child hne hslash hpath h
  exact ⟨dir, hdir, place_entry hne hslash hdot hup hpath hdir (absurd · Bool.false_ne_true) h⟩

end FileSystem

end ModPackager
