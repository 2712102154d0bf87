import ModPackager.Proofs.FileSystem.Success
import ModPackager.Proofs.Path.Parent

/-!
# Where directories can be made

Names are `Clear` below a directory if nothing stands in the way of making directories there: each of them spells a
directory, or nothing. Making the directories of a path succeeds then (`Approach.createDirectories`), however many of them
are missing. The induction goes up along the parents of the path, to one that can be made at once, and comes back.
-/

namespace ModPackager

namespace FileSystem

open FileAction

variable {fs : FileSystem} {follow slash : Bool} {links : Nat} {base dir location : Location} {name last : String}
  {known more names front dots : List String} {path parent : Path} {entry : Entry}

/-! ### Names behind a directory -/

theorem resolve_of_followable (h : Followable path) :
    fs.resolve follow path = fs.walk follow maxLinks [] (fs.namesTo path) (fs.slashOf path) := by
  obtain ⟨hnul, hne, hlong⟩ := h
  simp [resolve, namesTo, slashOf, hnul, hne, Nat.not_le.2 hlong]

theorem LeadsTo.append_dots (h : fs.LeadsTo known base) (hdots : ∀ dot ∈ dots, dot = ".") : fs.LeadsTo (known ++ dots) base := by
  refine h.append fun links => ?_
  induction dots with
  | nil => exact .arrive h.isDirectory nofun
  | cons dot rest ih =>
      rw [List.forall_mem_cons] at hdots
      obtain ⟨rfl, hrest⟩ := hdots
      exact .dot h.isDirectory (ih hrest)

/-- The beginning of names that lead to a directory leads to one. -/
theorem LeadsTo.of_prefix (h : fs.LeadsTo known base) (hfront : front <+: known) : ∃ dir, fs.LeadsTo front dir := by
  obtain ⟨rest, rfl⟩ := hfront
  by_cases hnil : rest = []
  · exact ⟨base, by rwa [hnil, List.append_nil] at h⟩
  · exact Leads.split hnil h

/-- A path whose names lead to a directory leads there. -/
theorem LeadsTo.holdsDirectory (h : fs.LeadsTo (fs.namesTo path) dir) (hpath : Followable path) :
    fs.holdsDirectory path = true :=
  holdsDirectory_iff.2 ⟨dir, resolve_eq_ok_iff.2 ⟨hpath, h.of_slash⟩⟩

/-- No name that is followed is too long. -/
theorem Leads.short {target : Target} (h : Leads fs follow links base names slash target) :
    ∀ name ∈ names, name.utf8ByteSize ≤ maxName := by
  induction h with
  | arrive => exact nofun
  | dot _ _ ih => exact List.forall_mem_cons.2 ⟨by decide, ih⟩
  | up _ _ ih => exact List.forall_mem_cons.2 ⟨by decide, ih⟩
  | vacant _ hname _ => exact List.forall_mem_cons.2 ⟨hname.2.2, nofun⟩
  | stop _ hname _ _ => exact List.forall_mem_cons.2 ⟨hname.2.2, nofun⟩
  | link _ hname _ _ _ ih => exact List.forall_mem_cons.2 ⟨hname.2.2, fun name hmem => ih name (List.mem_append_right _ hmem)⟩
  | enter _ hname _ _ _ ih => exact List.forall_mem_cons.2 ⟨hname.2.2, ih⟩

/-! ### Names in whose way nothing stands -/

/-- Names without parents, none of them too long, each of which spells a directory or nothing. -/
structure Clear (fs : FileSystem) (base : Location) (names : List String) : Prop where
  noParent : ".." ∉ names
  short : ∀ name ∈ names, name.utf8ByteSize ≤ maxName
  free : ∀ front, front <+: names →
    fs.entry? (climb base front) = none ∨ fs.entry? (climb base front) = some .directory

namespace Clear

theorem of_prefix (h : fs.Clear base names) (hfront : front <+: names) : fs.Clear base front where
  noParent := fun hmem => h.noParent (hfront.subset hmem)
  short := fun name hmem => h.short name (hfront.subset hmem)
  free := fun before hbefore => h.free before (hbefore.trans hfront)

theorem tail (h : fs.Clear base (name :: names)) : fs.Clear (climbStep base name) names where
  noParent := fun hmem => h.noParent (List.mem_cons_of_mem _ hmem)
  short := fun other hmem => h.short other (List.mem_cons_of_mem _ hmem)
  free := fun front hfront => h.free (name :: front) (List.cons_prefix_cons.2 ⟨rfl, hfront⟩)

theorem unlinked (h : fs.Clear base names) : fs.Unlinked base names := by
  intro front hfront text hlink
  rcases h.free front hfront with hnone | hdir
  · simp [hnone] at hlink
  · simp [hdir] at hlink

/-- Directories in place of nothing do not stand in the way. -/
theorem makes (h : fs.Clear base names) (hwritable : fs.Writable location) : (fs.put location .directory).Clear base names where
  noParent := h.noParent
  short := h.short
  free := fun front hfront => by
    rw [entry?_put _ hwritable.ne_nil]
    split
    · exact .inr rfl
    · exact h.free front hfront

/-- Names behind one that is missing lead nowhere. -/
theorem walk_missing (h : fs.Clear base names) (hbase : fs.entry? base = some .directory)
    (hmissing : fs.entry? (climb base names.dropLast) = none) :
    fs.walk follow links base names slash = .error .notFound := by
  induction names generalizing base with
  | nil => simp [hbase] at hmissing
  | cons name rest ih =>
      have hrest : rest ≠ [] := by
        rintro rfl
        simp [hbase] at hmissing
      rw [List.dropLast_cons_of_ne_nil hrest, climb_cons] at hmissing
      rcases name_cases name with rfl | rfl | ⟨-, -, hlong⟩ | hname
      · rw [walk_dot hbase]
        exact ih h.tail hbase hmissing
      · exact absurd List.mem_cons_self h.noParent
      · exact absurd (h.short name List.mem_cons_self) (Nat.not_le.2 hlong)
      · have hstep := climbStep_of_ordinary hname base
        have htail := h.tail
        have hfirst := htail.free [] List.nil_prefix
        rw [climb_nil] at hfirst
        rw [hstep] at hmissing htail hfirst
        rw [walk_name hbase hname]
        rcases hfirst with hnone | hdir
        · simp [hnone, hrest]
        · rw [hdir]
          exact ih htail hdir hmissing

end Clear

/-! ### Ways to directories -/

/-- The working directory is where the empty path starts from. -/
theorem leadsTo_working (h : fs.holdsDirectory ⟨"."⟩ = true) : ∃ dir, fs.LeadsTo (fs.namesTo ⟨""⟩) dir := by
  obtain ⟨before, hbefore⟩ := fs.exists_namesTo_eq
  obtain ⟨dir, hresolve⟩ := holdsDirectory_iff.1 h
  refine LeadsTo.of_prefix (leadsTo_of_resolve hresolve) ?_
  rw [hbefore ⟨"."⟩ rfl, hbefore ⟨""⟩ rfl, List.prefix_append_right_inj]
  exact List.nil_prefix

/-- A way on which the directories of paths can be made that start where the root does: it leads through known names to a
directory, and further names are clear. -/
structure Approach (fs : FileSystem) (root : Path) (known : List String) (base : Location) (more : List String) : Prop where
  wellFormed : fs.WellFormed
  leads : fs.LeadsTo known base
  clear : fs.Clear base more
  /-- The working directory is there, if they start from it. -/
  working : root.isAbsolute = false → ∃ dir, fs.LeadsTo (fs.namesTo ⟨""⟩) dir

namespace Approach

theorem of_prefix (h : Approach fs root known base more) (hfront : front <+: more) : Approach fs root known base front :=
  ⟨h.wellFormed, h.leads, h.clear.of_prefix hfront, h.working⟩

theorem makes (h : Approach fs root known base more) (hvacant : fs.resolve follow path = .ok (.vacant location)) :
    Approach (fs.put location .directory) root known base more := by
  have hwritable := writable_of_vacant hvacant
  have hkept : ∀ {names dir}, fs.LeadsTo names dir → LeadsTo (fs.put location .directory) names dir := fun hleads =>
    Leads.mono (fun {place found} hfound => by
      rw [entry?_put_of_ne hwritable.ne_nil, hfound]
      rintro rfl
      rw [entry?_of_vacant hvacant] at hfound
      cases hfound) hleads
  refine ⟨hwritable.wellFormed_put h.wellFormed, hkept h.leads, h.clear.makes hwritable, fun hrelative => ?_⟩
  obtain ⟨dir, hdir⟩ := h.working hrelative
  refine ⟨dir, ?_⟩
  rw [namesTo, workingDir_put, ← namesTo]
  exact hkept hdir

/-- Names that spell a directory lead there. -/
theorem leadsTo (h : Approach fs root known base more) (hfront : front <+: more)
    (hdir : fs.entry? (climb base front) = some .directory) : fs.LeadsTo (known ++ front) (climb base front) :=
  h.leads.append fun _ => h.wellFormed.leads_climb (h.clear.of_prefix hfront).noParent hdir

/-- Names that lead to a directory spell it. -/
theorem isDirectory (h : Approach fs root known base more) (hfront : front <+: more) (hleads : fs.LeadsTo (known ++ front) dir) :
    fs.entry? (climb base front) = some .directory := by
  by_cases hnil : front = []
  · rw [hnil, climb_nil, h.leads.isDirectory]
  · obtain ⟨fewer, hfewer⟩ := h.leads.walk_append
    have hplace : dir = climb base front := (hfewer.1 hleads hnil).place_eq (h.clear.of_prefix hfront).unlinked
    exact hplace ▸ hleads.isDirectory

section Paths

variable (h : Approach fs root known base more) (hnames : fs.namesTo path = known ++ more) (hpath : Followable path)

include h hnames hpath

/-- Where only the last name is missing, nothing is there. -/
theorem resolve_vacant (hnone : fs.entry? (climb base more) = none)
    (hdir : fs.entry? (climb base more.dropLast) = some .directory) :
    fs.resolve false path = .ok (.vacant (climb base more)) := by
  have hne : more ≠ [] := by
    rintro rfl
    simp [h.leads.isDirectory] at hnone
  obtain ⟨front, last, rfl⟩ : ∃ front last, more = front ++ [last] := ⟨_, _, (List.dropLast_append_getLast hne).symm⟩
  rw [List.dropLast_concat] at hdir
  have hlast : Ordinary last := by
    refine ⟨?_, ?_, h.clear.short last (by simp)⟩
    · rintro rfl
      simp [hdir] at hnone
    · rintro rfl
      exact h.clear.noParent (by simp)
  have hleads := h.leadsTo (List.prefix_append _ _) hdir
  obtain ⟨fewer, hfewer⟩ := hleads.walk_append
  rw [climb_append, climb_cons, climb_nil, climbStep_of_ordinary hlast] at hnone ⊢
  refine resolve_eq_ok_iff.2 ⟨hpath, ?_⟩
  rw [hnames, ← List.append_assoc]
  exact hfewer.2 (.vacant hdir hlast hnone) (by simp)

/-- Where more of the names are missing, the path leads nowhere. -/
theorem resolve_missing (hnone : fs.entry? (climb base more.dropLast) = none) :
    fs.resolve follow path = .error .notFound := by
  have hne : more ≠ [] := by
    rintro rfl
    simp [h.leads.isDirectory] at hnone
  obtain ⟨fewer, hfewer⟩ := Leads.walk_append h.leads
  rw [resolve_of_followable hpath, hnames, hfewer follow more _ hne]
  exact h.clear.walk_missing h.leads.isDirectory hnone

/-- A directory is made unless more than the last name is missing. -/
theorem ensureDirectory (hdir : fs.entry? (climb base more.dropLast) = some .directory) :
    ∃ fs', ensureDirectory path fs = .ok () fs' := by
  rw [ensureDirectory_eq]
  rcases h.clear.free more (List.prefix_refl _) with hnone | hthere
  · rw [h.resolve_vacant hnames hpath hnone hdir]
    exact ⟨_, rfl⟩
  · have hleads := h.leadsTo (List.prefix_refl _) hthere
    rw [← hnames] at hleads
    rw [hleads.holdsDirectory hpath]
    rcases fs.resolve false path with _ | ⟨_⟩ | ⟨_⟩ <;> exact ⟨_, rfl⟩

end Paths

theorem ensureDirectory_missing (h : Approach fs root known base more) (hnames : fs.namesTo path = known ++ more)
    (hpath : Followable path) (hnone : fs.entry? (climb base more.dropLast) = none) :
    FileAction.ensureDirectory path fs = .error .notFound fs := by
  have hmissing : fs.holdsDirectory path = false := by
    simp [holdsDirectory, lookup?, lookup, h.resolve_missing hnames hpath hnone, bind, Except.bind, Except.toOption]
  rw [ensureDirectory_eq, h.resolve_missing hnames hpath hnone, hmissing]
  rfl

end Approach

end FileSystem

namespace FileAction

open FileSystem

variable {fs fs' : FileSystem} {path parent : Path} {known more names : List String} {base dir : Location}

/-- A directory that is there need not be made. -/
theorem ensureDirectory_of_holds (h : fs.holdsDirectory path = true) : ensureDirectory path fs = .ok () fs := by
  rw [ensureDirectory_eq, h]
  rcases hresolve : fs.resolve false path with _ | ⟨_⟩ | ⟨location⟩
  · rfl
  · rfl
  · obtain ⟨place, hfound⟩ := holdsDirectory_iff.1 h
    cases (resolve_eq_ok_iff.1 hfound).2.unique (resolve_eq_ok_iff.1 hresolve).2.follow_vacant

theorem createParents_of_ensure {fuel : Nat} (h : ensureDirectory path fs = .ok () fs') :
    createParents (fuel + 1) path fs = .ok () (if path.text = "" then fs else fs') := by
  unfold createParents
  by_cases hempty : path.text = ""
  · simp [hempty]
    rfl
  · rw [if_neg (by simpa using hempty), if_neg hempty]
    refine bind_eq_ok.2 ⟨none, fs', ?_, rfl⟩
    simp only [faultOf, h]

/-- Where a directory cannot be made because the one above it is missing, that is made first. -/
theorem createParents_of_missing {fuel : Nat} {made : FileSystem} (hpath : path.text ≠ "")
    (hmissing : ensureDirectory path fs = .error .notFound fs) (hparent : path.parent? = some parent)
    (hmade : createParents fuel parent fs = .ok () made) (hagain : ensureDirectory path made = .ok () fs') :
    createParents (fuel + 1) path fs = .ok () fs' := by
  unfold createParents
  rw [if_neg (by simpa using hpath)]
  refine bind_eq_ok.2 ⟨some .notFound, fs, ?_, ?_⟩
  · simp only [faultOf, hmissing]
  · simp only [hparent]
    exact bind_eq_ok.2 ⟨⟨⟩, made, hmade, hagain⟩

end FileAction

/-- The parent of an entry is the path of the directory, but for dots at the end. -/
theorem exists_parent_child {target : Path} {name : String} (hname : FileSystem.ValidName name) (htarget : target.text ≠ "") :
    ∃ parent dots, (target.child name).parent? = some parent
      ∧ (parent.text = "" ∨ parent.text = "/" ∨ parent.EndsInComponent) ∧ (∀ dot ∈ dots, dot = ".")
      ∧ ∀ fs : FileSystem, fs.namesTo target = fs.namesTo parent ++ dots := by
  obtain ⟨hne, hdot, hup, hslash, -⟩ := hname
  obtain ⟨parent, dots, last, hparent, hdots, htext, -, hends⟩ :=
    (Path.endsInComponent_child htarget ⟨hne, hdot, hup, hslash⟩).exists_parent
  refine ⟨parent, dots, hparent, hends, hdots, fun fs => ?_⟩
  have hbehind := fs.namesTo_eq_append hparent (htext.trans (List.append_assoc _ _ _))
  rw [FileSystem.namesTo_child fs htarget hne hslash, ← List.append_assoc] at hbehind
  exact (List.append_inj' hbehind rfl).1

/-- An invariant that is kept where the directories of a path are made is kept when the directory of an entry is made. -/
theorem FileAction.createParent_child_maintains {inv : FileSystem → Prop} {target : Path} {name : String}
    (hname : FileSystem.ValidName name) (htarget : target.text ≠ "")
    (hput : ∀ {fs location}, inv fs → MakesAt fs target location → inv (fs.put location .directory)) :
    Maintains inv (createParent (target.child name)) fun _ => True := by
  obtain ⟨parent, dots, hparent, -, -, hsplit⟩ := exists_parent_child hname htarget
  rw [createParent, hparent]
  refine createDirectories_maintains fun {fs location} hfs hmakes => hput hfs ?_
  obtain ⟨part, hpart, htrimmed, hvacant⟩ := hmakes
  exact ⟨part, hpart.trans ⟨dots, (hsplit fs).symm⟩, fun _ => htrimmed (Path.trimmed_parent hparent), hvacant⟩

namespace FileSystem.Approach

open FileAction

variable {fs fs' : FileSystem} {path parent : Path} {known more names : List String} {base dir : Location}

theorem createParents_maintains (fuel : Nat) (path : Path) :
    Maintains (fun now => Approach now root known base more ∧ now.workingDir = fs.workingDir) (createParents fuel path)
      fun _ => True :=
  FileAction.createParents_maintains fuel fun {_ _} h hmakes => by
    obtain ⟨_, -, -, hvacant⟩ := hmakes
    exact ⟨h.1.makes hvacant, workingDir_put.trans h.2⟩

/-- A path whose directories were made leads to one, and the empty path to the working directory. -/
theorem leadsTo_of_createParents {fuel : Nat}
    (hworking : path.isAbsolute = false → ∃ dir, fs'.LeadsTo (fs'.namesTo ⟨""⟩) dir)
    (h : FileAction.createParents fuel path fs = .ok () fs') : ∃ dir, fs'.LeadsTo (fs'.namesTo path) dir := by
  by_cases hempty : path.text = ""
  · obtain rfl : path = ⟨""⟩ := congrArg Path.mk hempty
    exact hworking rfl
  · obtain ⟨dir, hresolve⟩ := holdsDirectory_iff.1 (createParents_holds hempty h)
    exact ⟨dir, leadsTo_of_resolve hresolve⟩

/-- On a clear way the directories of every path are made that can be followed, as long as no more of them are missing
than there are levels to go up. -/
theorem createParents {fuel : Nat} (h : Approach fs root known base more) (hstart : path.isAbsolute = root.isAbsolute)
    (hnames : fs.namesTo path <+: known ++ more)
    (hends : path.text = "" ∨ path.text = "/" ∨ path.EndsInComponent) (hpath : path.text ≠ "" → Followable path)
    (hfuel : path.components.length < fuel) : ∃ fs', createParents fuel path fs = .ok () fs' := by
  induction fuel generalizing fs path with
  | zero => omega
  | succ fuel ih =>
      by_cases hempty : path.text = ""
      · unfold FileAction.createParents
        rw [if_pos (by simpa using hempty)]
        exact ⟨fs, rfl⟩
      have hfollow := hpath hempty
      by_cases hdirectory : ∃ dir, fs.LeadsTo (fs.namesTo path) dir
      · obtain ⟨dir, hleads⟩ := hdirectory
        exact ⟨_, createParents_of_ensure (ensureDirectory_of_holds (hleads.holdsDirectory hfollow))⟩
      -- The path goes on behind the known names, and something of it is missing.
      obtain ⟨front, hfront, hsplit⟩ : ∃ front, front <+: more ∧ fs.namesTo path = known ++ front := by
        rcases prefix_append_cases hnames with hknown | ⟨front, -, hsplit, hfront⟩
        · exact absurd (h.leads.of_prefix hknown) hdirectory
        · exact ⟨front, hfront, hsplit⟩
      have happroach := h.of_prefix hfront
      by_cases habove : fs.entry? (climb base front.dropLast) = some .directory
      · obtain ⟨fs', hensure⟩ := happroach.ensureDirectory hsplit hfollow habove
        exact ⟨_, createParents_of_ensure hensure⟩
      have hmissing := (happroach.clear.free _ (List.dropLast_prefix front)).resolve_right habove
      have hroot : path.text ≠ "/" := by
        intro htext
        refine hdirectory ⟨[], ?_⟩
        have hnil : fs.namesTo path = [] := by
          rw [namesTo_of_isAbsolute fs (by simp [Path.isAbsolute, htext]), htext]
          decide
        exact hnil ▸ leadsTo_nil fs
      obtain ⟨parent, dots, last, hparent, hdots, htext, hcomponents, hparentEnds⟩ :=
        ((hends.resolve_left hempty).resolve_left hroot).exists_parent
      have hparentFollow : parent.text ≠ "" → Followable parent := fun hne =>
        hfollow.of_sublist (Path.text_parent_prefix hparent).sublist hne
      obtain ⟨-, -, -, habsolute⟩ := Path.exists_pieces_parent hparent
      have hparentNames := (fs.namesTo_parent hparent).trans hnames
      obtain ⟨made, hmade⟩ := ih h (habsolute.trans hstart) hparentNames hparentEnds hparentFollow (by omega)
      obtain ⟨⟨hafter, hworking⟩, -⟩ := (createParents_maintains fuel parent).ok ⟨h, rfl⟩ hmade
      -- Once the parent is there, nothing but the last name is missing.
      obtain ⟨dir, hleads⟩ := leadsTo_of_createParents
        (fun hrelative => hafter.working (hstart.symm.trans (habsolute.symm.trans hrelative))) hmade
      have hnamesAfter : made.namesTo path = known ++ front := by
        rw [namesTo, hworking, ← namesTo, hsplit]
      have hbehind := made.namesTo_eq_append hparent (htext.trans (List.append_assoc _ _ _))
      have hne : front ≠ [] := fun hnil => hdirectory ⟨base, by rw [hsplit, hnil, List.append_nil]; exact h.leads⟩
      have hsame : known ++ front.dropLast = made.namesTo parent ++ dots := by
        rw [← List.dropLast_append_of_ne_nil hne, ← hnamesAfter, hbehind, ← List.append_assoc, List.dropLast_concat]
      have habove' : made.entry? (climb base front.dropLast) = some .directory :=
        (hafter.of_prefix hfront).isDirectory (List.dropLast_prefix front) (hsame ▸ hleads.append_dots hdots)
      obtain ⟨fs', hagain⟩ := (hafter.of_prefix hfront).ensureDirectory hnamesAfter hfollow habove'
      have hmisses := happroach.ensureDirectory_missing hsplit hfollow hmissing
      exact ⟨fs', createParents_of_missing hempty hmisses hparent hmade hagain⟩

theorem createDirectories (h : Approach fs root known base more) (hstart : path.isAbsolute = root.isAbsolute)
    (hnames : fs.namesTo path <+: known ++ more)
    (hends : path.text = "" ∨ path.text = "/" ∨ path.EndsInComponent) (hpath : path.text ≠ "" → Followable path) :
    ∃ fs', createDirectories path fs = .ok () fs' :=
  h.createParents hstart hnames hends hpath (by omega)

/-- The directory of an entry can be made if the names that lead to it are clear, and then it is there. -/
theorem createParent (h : Approach fs root known base more) {target : Path} {name : String} (hname : ValidName name)
    (htarget : target.text ≠ "") (hstart : target.isAbsolute = root.isAbsolute) (hnames : fs.namesTo target = known ++ more)
    (hpath : Followable (target.child name)) :
    ∃ fs', createParent (target.child name) fs = .ok () fs' ∧ fs'.LeadsTo (known ++ more) (climb base more) := by
  obtain ⟨parent, dots, hparent, hends, hdots, hsplit⟩ := exists_parent_child hname htarget
  rw [hsplit fs] at hnames
  have hparentStart : parent.isAbsolute = root.isAbsolute := by
    obtain ⟨-, -, -, habsolute⟩ := Path.exists_pieces_parent hparent
    rw [habsolute, Path.child, Path.isAbsolute_join htarget (Path.isAbsolute_name hname.2.2.2.1), hstart]
  obtain ⟨fs', hrun⟩ := h.createDirectories hparentStart ⟨dots, hnames⟩ hends fun hne =>
    hpath.of_sublist (Path.text_parent_prefix hparent).sublist hne
  obtain ⟨⟨hafter, hworking⟩, -⟩ := (createParents_maintains _ parent).ok ⟨h, rfl⟩ hrun
  refine ⟨fs', by rw [FileAction.createParent, hparent]; exact hrun, ?_⟩
  obtain ⟨dir, hleads⟩ :=
    leadsTo_of_createParents (fun hrelative => hafter.working (hparentStart.symm.trans hrelative)) hrun
  rw [namesTo, hworking, ← namesTo] at hleads
  have hthere := hnames ▸ hleads.append_dots hdots
  exact hafter.leadsTo (List.prefix_refl _) (hafter.isDirectory (List.prefix_refl _) hthere)

end FileSystem.Approach

end ModPackager
