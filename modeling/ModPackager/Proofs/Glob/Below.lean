import ModPackager.Glob.Expand
import ModPackager.Proofs.FileSystem.Shorter
import ModPackager.Proofs.Path.Order

/-!
# Going down from a path

An expansion goes down name by name (`below`), and the name of an entry of the start of a relative pattern is all of
its path. What it comes to lies in a directory (`resolve_of_below`), its components are those of the path and the
name behind them (`onward_below`), and its path is longer (`room_lt_below`).
-/

namespace ModPackager.Glob.Search

open FileSystem

variable {fs : FileSystem} {path : Path} {name : String} {place : Location} {entry : Entry} {pattern : Pattern}

theorem below_of_ne (h : path.text ≠ ".") : below path name = path.child name := if_neg h

theorem below_start (h : path.text = ".") : below path name = ⟨name⟩ := if_pos h

theorem text_below_ne (path : Path) (hne : name ≠ "") (hslash : '/' ∉ name.toList) :
    (below path name).text ≠ "" := by
  by_cases hstart : path.text = "."
  · rwa [below_start hstart]
  · rw [below_of_ne hstart]
    exact Path.text_child_ne hne hslash

/-- The path of an entry has a slash in it. -/
theorem slash_mem_child (hpath : path.text ≠ "") (hslash : '/' ∉ name.toList) :
    '/' ∈ (path.child name).text.toList := by
  rw [Path.child, Path.join, Path.isAbsolute_name hslash]
  simp only [Bool.false_or, String.isEmpty_iff, hpath, if_false]
  split
  next hends =>
      have hlast : path.text.toList.getLast? = some '/' := by simpa using hends
      rw [String.toList_append]
      exact List.mem_append_left _ (List.mem_of_getLast? hlast)
  · simp

theorem text_child_ne_dot (hpath : path.text ≠ "") (hslash : '/' ∉ name.toList) : (path.child name).text ≠ "." := by
  intro hdot
  have hmem := slash_mem_child hpath hslash
  rw [hdot] at hmem
  revert hmem
  decide

/-! ### Where it leads -/

/-- The names of an entry are those of a directory and its own. The start of a relative pattern is a dot, which goes
nowhere. -/
theorem exists_namesTo_below (fs : FileSystem) (hpath : path.text ≠ "") : ∃ before,
    (∀ name, name ≠ "" → '/' ∉ name.toList → fs.namesTo (below path name) = before ++ [name])
      ∧ ∀ dir, fs.LeadsTo before dir ↔ fs.LeadsTo (fs.namesTo path) dir := by
  by_cases hstart : path.text = "."
  · obtain ⟨before, hbefore⟩ := fs.exists_namesTo_eq
    refine ⟨before, fun name hne hslash => ?_, fun dir => ?_⟩
    · rw [below_start hstart, hbefore _ (Path.isAbsolute_name hslash), namesOf_name hne hslash]
    · have hrelative : path.isAbsolute = false := by rw [Path.isAbsolute, hstart]; decide
      have hdot : namesOf "." = ["."] := by decide
      have hthere : ∀ {base}, fs.LeadsTo before base → fs.LeadsTo (before ++ ["."]) base := by
        intro base hbase
        obtain ⟨fewer, hfewer⟩ := hbase.walk_append
        have hstay : Leads fs true fewer base ["."] false (.found base .directory) :=
          .dot hbase.isDirectory (.arrive hbase.isDirectory (absurd · Bool.false_ne_true))
        exact hfewer.2 hstay (by simp)
      rw [hbefore path hrelative, hstart, hdot]
      refine ⟨hthere, fun hdir => ?_⟩
      obtain ⟨base, (hbase : fs.LeadsTo before base)⟩ := Leads.split (by simp) hdir
      obtain rfl := (hthere hbase).unique hdir
      exact hbase
  · refine ⟨fs.namesTo path, fun name hne hslash => ?_, fun dir => Iff.rfl⟩
    rw [below_of_ne hstart, namesTo_child fs hpath hne hslash]

theorem endsInSlash_child_empty (hpath : path.text ≠ "") : endsInSlash (path.child "").text = true := by
  rw [Path.child, Path.join, Path.isAbsolute_name (by simp)]
  simp only [Bool.false_or, String.isEmpty_iff, hpath, if_false, String.append_empty]
  split
  next hends => exact hends
  · simp [endsInSlash]

/-- What an entry leads to lies in a directory, which the path leads to. -/
theorem resolve_of_below (hpath : path.text ≠ "") (hslash : '/' ∉ name.toList)
    (h : fs.resolve true (below path name) = .ok (.found place entry)) :
    ∃ dir, fs.resolve true path = .ok (.found dir .directory) := by
  by_cases hstart : path.text = "."
  · have hne : name ≠ "" := by
      rintro rfl
      rw [below_start hstart] at h
      exact (resolve_eq_ok_iff.1 h).1.2.1 rfl
    obtain ⟨before, hnames, hbefore⟩ := exists_namesTo_below fs hpath
    obtain ⟨-, hleads⟩ := resolve_eq_ok_iff.1 h
    rw [hnames name hne hslash] at hleads
    obtain ⟨dir, hdir⟩ := hleads.split (by simp)
    have hfollow : Followable path := by
      rw [Followable, hstart]
      decide
    exact ⟨dir, resolve_eq_ok_iff.2 ⟨hfollow, ((hbefore dir).1 hdir).of_slash⟩⟩
  · rw [below_of_ne hstart] at h
    by_cases hne : name = ""
    · -- An empty name only adds a slash at the end, which asks for a directory.
      subst hne
      obtain ⟨hfollow, hleads⟩ := resolve_eq_ok_iff.1 h
      obtain ⟨front, hfront, htext⟩ := path.exists_text_join
      rw [Path.child, namesTo_join fs hpath rfl, namesOf_empty, List.append_nil, ← Path.child,
        slashOf_of_ne hfollow.2.1, endsInSlash_child_empty hpath] at hleads
      obtain rfl : entry = .directory := by
        have hentry := hleads.isDirectory rfl
        cases entry <;> simp_all [Entry.isDirectory]
      refine ⟨place, resolve_eq_ok_iff.2 ⟨hfollow.of_sublist ?_ hpath, hleads.of_slash⟩⟩
      rw [Path.child, htext _ rfl, String.append_empty]
      exact hfront
    · exact resolve_of_child hne hslash hpath h

/-- An entry that a path leads through is one of the directory. -/
theorem exists_entry_of_below (hpath : path.text ≠ "") (hne : name ≠ "") (hslash : '/' ∉ name.toList) (hdot : name ≠ ".")
    (hup : name ≠ "..") (h : fs.resolve true (below path name) = .ok (.found place entry)) :
    ∃ dir, fs.resolve true path = .ok (.found dir .directory) ∧ name ∈ fs.names dir := by
  obtain ⟨dir, hdir⟩ := resolve_of_below hpath hslash h
  obtain ⟨before, hnames, hbefore⟩ := exists_namesTo_below fs hpath
  obtain ⟨-, hleads⟩ := resolve_eq_ok_iff.1 h
  rw [hnames name hne hslash] at hleads
  obtain ⟨fewer, hfewer⟩ := ((hbefore dir).2 (leadsTo_of_resolve hdir)).walk_append
  obtain ⟨found, hfound⟩ := (hfewer.1 hleads (by simp)).exists_first hdot hup
  exact ⟨dir, hdir, mem_names.2 (by rw [hfound, Option.isSome_some])⟩

/-! ### Its components -/

/-- The components that a path leads through, behind the start of a relative pattern. -/
def onward (path : Path) : List Path.Component := if path.text = "." then [] else path.components

theorem onward_of_ne (h : path.text ≠ ".") : onward path = path.components := if_neg h

/-- A name goes behind the components of the path. -/
theorem onward_below (hpath : path.text ≠ "") (hslash : '/' ∉ name.toList) (hnext : (below path name).text ≠ "") :
    onward (below path name) = onward path ++ (Path.component? name.toList).toList := by
  by_cases hstart : path.text = "."
  · rw [below_start hstart] at hnext ⊢
    have honward : onward path = [] := if_pos hstart
    rw [honward, List.nil_append]
    by_cases hdot : name = "."
    · subst hdot
      rfl
    · have hlist : name.toList ≠ ['.'] := fun hlist => hdot (String.toList_inj.1 hlist)
      rw [onward_of_ne hdot, Path.components_eq (Path.pieces_of_not_mem hslash), List.filterMap_nil, List.append_nil,
        Path.isAbsolute_name hslash, Path.firstComponent?, if_neg Bool.false_ne_true, if_neg (by simpa using hlist)]
  · rw [below_of_ne hstart, onward_of_ne (text_child_ne_dot hpath hslash), onward_of_ne hstart,
      Path.components_child hpath hslash]

theorem component?_validName (hname : ValidName name) : Path.component? name.toList = some (.normal name) := by
  obtain ⟨hne, hdot, hup, -, -⟩ := hname
  have hdot' : name.toList ≠ ['.'] := fun hlist => hdot (String.toList_inj.1 hlist)
  have hup' : name.toList ≠ ['.', '.'] := fun hlist => hup (String.toList_inj.1 hlist)
  simp [Path.component?, hne, hdot', hup']

theorem onward_below_validName (hpath : path.text ≠ "") (hname : ValidName name) :
    onward (below path name) = onward path ++ [.normal name] := by
  obtain ⟨hne, -, -, hslash, -⟩ := id hname
  rw [onward_below hpath hslash (text_below_ne path hne hslash), component?_validName hname, Option.toList_some]

theorem text_below_ne_dot (hpath : path.text ≠ "") (hname : ValidName name) : (below path name).text ≠ "." := by
  obtain ⟨-, hdot, -, hslash, -⟩ := hname
  by_cases hstart : path.text = "."
  · rwa [below_start hstart]
  · rw [below_of_ne hstart]
    exact text_child_ne_dot hpath hslash

/-- The name of an entry is what a component is tried on. -/
theorem matchesName_below (hpath : path.text ≠ "") (hname : ValidName name) :
    matchesName pattern (below path name) = pattern.matches name.toList := by
  have hcomponents : (below path name).components = onward path ++ [.normal name] := by
    rw [← onward_of_ne (text_below_ne_dot hpath hname), onward_below_validName hpath hname]
  simp [matchesName, Path.fileName?, hcomponents]

/-! ### Its length -/

/-- How long a path is, where the start of a relative pattern counts for nothing. -/
def room (path : Path) : Nat := if path.text = "." then 0 else path.text.utf8ByteSize

theorem room_of_ne (h : path.text ≠ ".") : room path = path.text.utf8ByteSize := if_neg h

theorem room_child (hpath : path.text ≠ "") (hslash : '/' ∉ name.toList) :
    room path + name.utf8ByteSize ≤ room (path.child name) := by
  rw [room_of_ne (text_child_ne_dot hpath hslash)]
  obtain ⟨front, hfront, htext⟩ := path.exists_text_join
  have hsize := utf8ByteSize_le_of_sublist hfront
  have hroom : room path ≤ path.text.utf8ByteSize := by
    unfold room
    split <;> omega
  have hchild : (path.child name).text = front ++ name := htext _ (Path.isAbsolute_name hslash)
  rw [hchild, String.utf8ByteSize_append]
  omega

/-- Going down, paths do not get shorter. -/
theorem room_le_below (hpath : path.text ≠ "") (hslash : '/' ∉ name.toList) : room path ≤ room (below path name) := by
  by_cases hstart : path.text = "."
  · have hroom : room path = 0 := if_pos hstart
    omega
  · rw [below_of_ne hstart]
    exact (Nat.le_add_right _ _).trans (room_child hpath hslash)

/-- The path of an entry is longer than that of the directory. -/
theorem room_lt_below (hpath : path.text ≠ "") (hname : ValidName name) : room path < room (below path name) := by
  obtain ⟨hne, hdot, -, hslash, -⟩ := hname
  have hsize : name.utf8ByteSize ≠ 0 := fun hzero => hne (String.utf8ByteSize_eq_zero_iff.1 hzero)
  by_cases hstart : path.text = "."
  · have hroom : room path = 0 := if_pos hstart
    have hname : room (⟨name⟩ : Path) = name.utf8ByteSize := if_neg hdot
    rw [below_start hstart, hroom, hname]
    omega
  · rw [below_of_ne hstart]
    have hchild := room_child hpath hslash
    omega

end ModPackager.Glob.Search
