import ModPackager.Proofs.Deploy.Clear
import ModPackager.Proofs.FileSystem.Success
import ModPackager.Proofs.Path.Descend

/-!
# Deployment steps below a root

Every step after clearing makes directories and writes files on paths that go on from the deploy root
(`Extends`). So it keeps each invariant of the files that is kept where such a path leads: these are the
`Deployable` ones. That is all that is said here of the skeleton, the files that are written, and the copy
of the build tree. Which places the paths lead to is the subject of the modules on sites.
-/

namespace ModPackager

namespace Deploy

open FileSystem FileAction

variable {root path source target : Path} {rel : List String} {name : String}
  {fits : List String → Prop} {inv : FileSystem → Prop}

/-! ### Paths that go on from the root -/

/-- A path goes on from another one through some names, and does not end in a slash. -/
structure Extends (root path : Path) (rel : List String) : Prop where
  text_ne : path.text ≠ ""
  namesTo_eq : ∀ fs : FileSystem, fs.namesTo path = fs.namesTo root ++ rel
  noSlash : rel ≠ [] → endsInSlash path.text = false

theorem extends_refl (h : root.text ≠ "") : Extends root root [] := ⟨h, by simp, by simp⟩

theorem Extends.join (h : Extends root path rel) {more : Path} (hrelative : more.isAbsolute = false)
    (hmore : more.text ≠ "") (hslash : endsInSlash more.text = false) :
    Extends root (path.join more) (rel ++ namesOf more.text) where
  text_ne := Path.text_join_ne h.text_ne hrelative
  namesTo_eq := fun fs => by
    rw [namesTo_join fs h.text_ne hrelative, h.namesTo_eq, List.append_assoc]
  noSlash := fun _ => by rw [endsInSlash_join hmore, hslash]

theorem Extends.child (h : Extends root path rel) (hne : name ≠ "") (hslash : '/' ∉ name.toList) :
    Extends root (path.child name) (rel ++ [name]) := by
  have hjoin : Extends root (path.join ⟨name⟩) (rel ++ namesOf name) :=
    h.join (Path.isAbsolute_name hslash) hne (endsInSlash_name hslash)
  rwa [namesOf_name hne hslash] at hjoin

theorem Extends.trimmed (h : Extends root path rel) (hne : rel ≠ []) : path.Trimmed := fun hslash => by
  rw [h.noSlash hne] at hslash
  cases hslash

theorem Extends.validChild (h : Extends root path rel) (hname : ValidName name) :
    Extends root (path.child name) (rel ++ [name]) := h.child hname.1 hname.2.2.2.1

theorem ValidName.plain (h : ∀ name ∈ rel, ValidName name) :
    ∀ name ∈ rel, name ≠ "." ∧ name ≠ ".." := fun name hname =>
  ⟨(h name hname).2.1, (h name hname).2.2.1⟩

theorem validName_lovelyDir : ValidName lovelyDir := by decide

theorem validName_sourceDir : ValidName sourceDir := by decide

/-! ### Single files -/

section Files

variable {fs : FileSystem} {dir other : Path} {place : Location} {contents : ByteArray}

theorem isLink_iff : isLink fs path = true ↔ ∃ place text, fs.resolve false path = .ok (.found place (.link text)) := by
  unfold isLink
  rcases fs.resolve false path with _ | ⟨_, _ | _ | _⟩ | _ <;> simp

/-- Where a file is to be written, it has the name at the end of its path, unless a link is there. -/
theorem place_or_isLink (hname : ValidName name) (hdir : dir.text ≠ "")
    (h : WritesAt fs (dir.child name) place) :
    (∃ base, place = base ++ [name]) ∨ isLink fs (dir.child name) = true := by
  obtain ⟨target, hresolve, rfl⟩ := h.place
  obtain ⟨hpath, hleads⟩ := resolve_eq_ok_iff.1 hresolve
  rcases hleads.unfollow with hsame | ⟨place, text, hstops⟩
  · obtain ⟨base, -, hplace⟩ := place_child hname hdir (resolve_eq_ok_iff.2 ⟨hpath, hsame⟩)
    exact .inl ⟨base, hplace⟩
  · exact .inr (isLink_iff.2 ⟨place, text, resolve_eq_ok_iff.2 ⟨hpath, hstops⟩⟩)

/-- What a path leads to stays when directories are made. -/
theorem createParent_persists {follow : Bool} {entry : Entry} :
    Maintains (fun now => now.resolve follow other = .ok (.found place entry)) (createParent path) fun _ => True := by
  refine createParent_maintains fun {now location} h hmakes => ?_
  obtain ⟨part, -, -, hvacant⟩ := hmakes
  refine resolve_mono (fun {found entry} hentry => ?_) workingDir_put h
  rw [entry?_put_of_ne (writable_of_vacant hvacant).ne_nil, hentry]
  rintro rfl
  rw [entry?_of_vacant hvacant] at hentry
  cases hentry

/-- A file is written once the directories on the way to it are made, or not at all. -/
theorem writeFile_cases (path : Path) (text : String) (fs : FileSystem) : ∃ between,
    (∀ {inv : FileSystem → Prop}, Maintains inv (createParent path) (fun _ => True) → inv fs → inv between)
      ∧ ((writeFile path text fs).2 = between
        ∨ writeBytes path text.toUTF8 between = .ok () (writeFile path text fs).2) := by
  unfold writeFile toStep lift
  simp only [bind, EStateM.bind, writeText]
  rcases hparent : createParent path fs with ⟨⟨⟩, between⟩ | ⟨fault, between⟩
  · refine ⟨between, fun hinv hfs => (hinv.ok hfs hparent).1, ?_⟩
    simp only
    rcases hwrite : writeBytes path text.toUTF8 between with ⟨⟨⟩, later⟩ | ⟨fault, later⟩
    · simp only
      exact .inr trivial
    · simp only
      exact .inl (writeBytes_error hwrite)
  · exact ⟨between, fun hinv hfs => hinv.error hfs hparent, .inl rfl⟩

variable {text last : String} {base : Location} (hname : ValidName name) (hdir : dir.text ≠ "")

include hname hdir

/-- A file stays when one of another name is written, unless that turns out to be a link. -/
theorem writeFile_spares (hne : last ≠ name) (h : fs.resolve true other = .ok (.found (base ++ [last]) (.file contents)))
    (hlink : isLink (writeFile (dir.child name) text fs).2 (dir.child name) = false) :
    (writeFile (dir.child name) text fs).2.resolve true other = .ok (.found (base ++ [last]) (.file contents)) := by
  obtain ⟨between, hparent, hsame | hwrite⟩ := writeFile_cases (dir.child name) text fs
  · rw [hsame]
    exact hparent createParent_persists h
  · refine writeBytes_persists hwrite (hparent createParent_persists h) fun _ _ hwrites => ?_
    rcases place_or_isLink hname hdir hwrites with ⟨front, hplace⟩ | hstops
    · exact hne (List.singleton_inj.1 (List.append_inj' hplace rfl).2)
    · obtain ⟨place, link, hfound⟩ := isLink_iff.1 hstops
      have hstays := isLink_iff.2 ⟨place, link, writeBytes_persists hwrite hfound nofun⟩
      rw [hlink] at hstays
      cases hstays

omit hname hdir in
/-- A file that was written is read back, unless that turns out to be a link. -/
theorem readBytes_writeFile (hsucceeds : (writeFile path text fs).1 = .success)
    (hlink : isLink (writeFile path text fs).2 path = false) :
    readBytes path (writeFile path text fs).2 = .ok text.toUTF8 (writeFile path text fs).2 := by
  obtain ⟨⟨⟩, between, -, hwrite⟩ := bind_eq_ok.1 (toStep_inv fun reason hfails => by
    cases hsucceeds.symm.trans hfails)
  refine readBytes_writeBytes (fun place link hfound => ?_) hwrite
  have hstays := isLink_iff.2 ⟨place, link, writeBytes_persists hwrite hfound nofun⟩
  have hfinal : isLink (writeFile path text fs).2 path = true := hstays
  rw [hlink] at hfinal
  cases hfinal

end Files

/-! ### Invariants -/

/-- An invariant that is kept where paths that go on from the root, and stay inside, make directories or
write files, if the names of the files fit. -/
structure Deployable (root : Path) (fits : List String → Prop) (inv : FileSystem → Prop) : Prop where
  text_ne : root.text ≠ ""
  wellFormed : ∀ {now}, inv now → now.WellFormed
  makes : ∀ {now path rel location}, inv now → Extends root path rel → staysInside 0 rel = true → rel ≠ [] →
    MakesAt now path location → inv (now.put location .directory)
  writes : ∀ {now path rel location contents}, inv now → Extends root path rel → staysInside 0 rel = true →
    rel ≠ [] → fits rel → WritesAt now path location → inv (now.put location (.file contents))

namespace Deployable

variable (h : Deployable root fits inv)

include h

section Paths

variable (hpath : Extends root path rel) (hinside : staysInside 0 rel = true) (hne : rel ≠ [])

include hpath hinside hne

theorem createDirectories : Maintains inv (createDirectories path) fun _ => True :=
  createDirectories_maintains fun hnow hmakes => h.makes hnow hpath hinside hne hmakes

theorem createParent : Maintains inv (createParent path) fun _ => True :=
  createParent_maintains fun hnow hmakes => h.makes hnow hpath hinside hne hmakes

theorem copyFile (hfits : fits rel) (source : Path) : Maintains inv (copyFile source path) fun _ => True :=
  copyFile_maintains fun hnow hwrites => h.writes hnow hpath hinside hne hfits hwrites

theorem writeText (hfits : fits rel) (contents : String) : Maintains inv (writeText path contents) fun _ => True :=
  writeBytes_maintains fun hnow hwrites => h.writes hnow hpath hinside hne hfits hwrites

/-- Writing a file below the root. -/
theorem writeFile (hfits : fits rel) (contents : String) {now : FileSystem} (hnow : inv now) :
    inv (Deploy.writeFile path contents now).2 :=
  toStep_keeps (lift_maintains ((h.createParent hpath hinside hne).bind fun _ _ =>
    h.writeText hpath hinside hne hfits contents)) hnow

end Paths

theorem createSkeleton {now : FileSystem} (hnow : inv now) : inv (createSkeleton root now).2 := by
  refine toStep_keeps (lift_maintains (.forM fun name hname => ?_)) hnow
  have hvalid : ValidName name := by
    simp only [List.mem_cons, List.not_mem_nil, or_false] at hname
    rcases hname with rfl | rfl
    · exact validName_lovelyDir
    · exact validName_sourceDir
  refine h.createDirectories ((extends_refl h.text_ne).validChild hvalid) ?_ (by simp)
  exact staysInside_of_plain (by simpa using ⟨hvalid.2.1, hvalid.2.2.1⟩)

omit h in
/-- An entry that is found was there while the invariant held. -/
theorem entryOf_maintains : Maintains inv (entryOf path) fun _ => ∃ now, inv now ∧ now.holds path = true := by
  refine Maintains.get.bind fun seen hseen => ?_
  split
  next found hlookup => exact .pure ⟨seen, hseen, by simp [holds, lookup?, hlookup, Except.toOption]⟩
  · exact .throw

section Copying

variable {origin : Path} (hfits : ∀ {now rel}, inv now → (∀ name ∈ rel, ValidName name) →
  now.holds (origin.descend rel) = true → fits rel)

include hfits

/-- Copying below the root, if the names fit of whatever is found below the source. -/
theorem copyBelow (fuel : Nat) (ancestors : List Ancestor) (hpath : Extends root target rel)
    (hrel : ∀ name ∈ rel, ValidName name) :
    Maintains inv (copyBelow fuel ancestors (origin.descend rel) target) fun _ => True := by
  induction fuel generalizing ancestors target rel with
  | zero => exact .throw
  | succ fuel ih =>
      refine (lift_maintains (readNames_maintains h.wellFormed)).bind
        fun names hnames => .foldlM (fun count name hname => ?_) 0
      have hvalid := hnames name hname
      have hcopy := hpath.validChild hvalid
      have hrel' : ∀ other ∈ rel ++ [name], ValidName other := by
        simp only [List.mem_append, List.mem_singleton]
        rintro other (hother | rfl)
        · exact hrel other hother
        · exact hvalid
      have hinside : staysInside 0 (rel ++ [name]) = true := staysInside_of_plain (ValidName.plain hrel')
      refine entryOf_maintains.bind fun found hthere => ?_
      rw [← Path.descend_concat] at hthere
      obtain ⟨seen, hseen, hholds⟩ := hthere
      have hfit := hfits hseen hrel' hholds
      split
      · refine Maintains.get.bind fun seen _ => ?_
        split
        · exact .throw
        · refine (lift_maintains (h.createDirectories hcopy hinside (by simp))).bind fun _ _ => ?_
          rw [← Path.descend_concat]
          exact (ih _ hcopy hrel').bind fun _ _ => .pure trivial
      · refine (lift_maintains (h.createParent hcopy hinside (by simp))).bind fun _ _ => ?_
        refine (lift_maintains (h.copyFile hcopy hinside (by simp) hfit _)).bind fun _ _ => ?_
        exact .pure trivial

theorem copyTree {now : FileSystem} (hnow : inv now) : inv (copyTree origin root now).2 := by
  have hcopy : Maintains inv (copyEntries origin root) fun _ => True :=
    entryOf_maintains.bind fun found _ => h.copyBelow hfits _ _ (extends_refl h.text_ne) (by simp)
  have hstep := hcopy now hnow
  unfold Deploy.copyTree
  split
  · split
    next heq => rw [heq] at hstep; exact hstep.1
    next heq => rw [heq] at hstep; exact hstep
  · exact hnow

end Copying

end Deployable

end Deploy

end ModPackager
