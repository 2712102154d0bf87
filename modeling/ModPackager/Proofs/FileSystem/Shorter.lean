import ModPackager.Proofs.FileSystem.Resolve

/-!
# Shorter paths

Whether a path is followed at all depends on its characters and its length, so it is if another one is that has
the same characters and more (`Followable.of_sublist`). That goes for the directory that an entry lies in
(`resolve_of_child`).
-/

namespace ModPackager

namespace Path

/-- A piece is made of characters of the text that was cut. -/
theorem sublist_of_mem_pieces {text piece : List Char} (h : piece ∈ pieces text) : piece.Sublist text := by
  induction text generalizing piece with
  | nil => simpa using h
  | cons c text ih =>
      by_cases hc : c = '/'
      · subst hc
        rw [pieces_slash] at h
        rcases List.mem_cons.1 h with rfl | hrest
        · exact List.nil_sublist _
        · exact (ih hrest).cons _
      · obtain ⟨first, more, hpieces, hcut⟩ := pieces_cons_of_ne hc text
        rw [hpieces] at ih
        rw [hcut] at h
        rcases List.mem_cons.1 h with rfl | hrest
        · exact (ih List.mem_cons_self).cons_cons c
        · exact (ih (List.mem_cons_of_mem _ hrest)).cons c

/-- The paths below a directory differ in what follows a common beginning. -/
theorem exists_text_join (dir : Path) : ∃ front : String, dir.text.toList.Sublist front.toList
    ∧ ∀ path : Path, path.isAbsolute = false → (dir.join path).text = front ++ path.text := by
  by_cases hempty : dir.text.isEmpty
  · have hnil : dir.text = "" := by simpa using hempty
    exact ⟨"", by simp [hnil], fun path hpath => by simp [join, hpath, hempty]⟩
  · by_cases hslash : dir.text.toList.getLast? == some '/'
    · exact ⟨dir.text, List.Sublist.refl _, fun path hpath => by simp [join, hpath, hempty, hslash]⟩
    · exact ⟨dir.text ++ "/", by simp, fun path hpath => by simp [join, hpath, hempty, hslash]⟩

end Path

namespace FileSystem

variable {fs : FileSystem} {path other root : Path} {name dir file : String} {target : Target}

theorem utf8ByteSize_le_of_sublist {a b : String} (h : a.toList.Sublist b.toList) :
    a.utf8ByteSize ≤ b.utf8ByteSize := by
  have hlists : ∀ {x y : List Char}, x.Sublist y → (String.ofList x).utf8ByteSize ≤ (String.ofList y).utf8ByteSize := by
    intro x y hsub
    induction hsub with
    | slnil => simp
    | cons c _ ih =>
        rw [String.ofList_cons, String.utf8ByteSize_append]
        omega
    | cons_cons c _ ih =>
        rw [String.ofList_cons, String.ofList_cons, String.utf8ByteSize_append, String.utf8ByteSize_append]
        omega
  simpa using hlists h

/-- A path whose characters are among those of one that can be followed, in their order, can be followed. -/
theorem Followable.of_sublist (h : Followable path) (hsub : other.text.toList.Sublist path.text.toList)
    (hne : other.text ≠ "") : Followable other :=
  ⟨fun hnul => h.1 (hsub.subset hnul), hne, (utf8ByteSize_le_of_sublist hsub).trans_lt h.2.2⟩

/-- Along with a path below a directory, the path of an entry can be followed that is called like one of its
names. -/
theorem Followable.child_of_mem (h : Followable (root.child file)) (hrelative : (⟨file⟩ : Path).isAbsolute = false)
    (hname : name ∈ namesOf file) : Followable (root.child name) := by
  obtain ⟨front, -, hfront⟩ := root.exists_text_join
  obtain ⟨hne, hslash⟩ := name_of_mem_namesOf hname
  refine h.of_sublist ?_ (Path.text_child_ne hne hslash)
  rw [Path.child, Path.child, hfront _ (Path.isAbsolute_name hslash), hfront _ hrelative, String.toList_append,
    String.toList_append]
  refine (List.Sublist.refl _).append ?_
  obtain ⟨piece, hpiece, rfl⟩ := List.mem_map.1 hname
  rw [String.toList_ofList]
  exact Path.sublist_of_mem_pieces (List.mem_filter.1 hpiece).1

/-- Along with a path of a file in a directory below another one, the path of an entry can be followed whose name
is not longer than both names together. -/
theorem Followable.child_of_size (h : Followable ((root.child dir).child file)) (hdir : ValidName dir)
    (hfile : ValidName file) (hname : ValidName name) (hnul : '\x00' ∉ name.toList)
    (hsize : name.utf8ByteSize ≤ dir.utf8ByteSize + file.utf8ByteSize) : Followable (root.child name) := by
  obtain ⟨front, -, hfront⟩ := root.exists_text_join
  obtain ⟨inner, hinner, hbelow⟩ := (root.child dir).exists_text_join
  have hnames : ∀ {name}, ValidName name → (root.child name).text = front ++ name := fun hvalid =>
    hfront _ (Path.isAbsolute_name hvalid.2.2.2.1)
  have htext : ((root.child dir).child file).text = inner ++ file :=
    hbelow _ (Path.isAbsolute_name hfile.2.2.2.1)
  rw [hnames hdir] at hinner
  have hlong := utf8ByteSize_le_of_sublist hinner
  obtain ⟨hfree, -, hshort⟩ := h
  rw [htext, String.toList_append, List.mem_append] at hfree
  rw [htext, String.utf8ByteSize_append] at hshort
  rw [String.utf8ByteSize_append] at hlong
  refine ⟨?_, Path.text_child_ne hname.1 hname.2.2.2.1, ?_⟩
  · rw [hnames hname, String.toList_append, List.mem_append]
    rintro (hfirst | hlast)
    · refine hfree (.inl (hinner.subset ?_))
      rw [String.toList_append]
      exact List.mem_append_left _ hfirst
    · exact hnul hlast
  · rw [hnames hname, String.utf8ByteSize_append]
    omega

/-- Along with the path of an entry, that of its directory can be followed. -/
theorem Followable.of_child (h : Followable (path.child name)) (hslash : '/' ∉ name.toList) (hpath : path.text ≠ "") :
    Followable path := by
  obtain ⟨front, hfront, htext⟩ := path.exists_text_join
  refine h.of_sublist ?_ hpath
  rw [Path.child, htext _ (Path.isAbsolute_name hslash), String.toList_append]
  exact hfront.trans (List.sublist_append_left _ _)

/-- What a path leads to lies in a directory, which the path without the last name leads to. -/
theorem resolve_of_child {follow : Bool} (hne : name ≠ "") (hslash : '/' ∉ name.toList) (hpath : path.text ≠ "")
    (h : fs.resolve follow (path.child name) = .ok target) :
    ∃ place, fs.resolve true path = .ok (.found place .directory) := by
  obtain ⟨place, hplace⟩ := leadsTo_of_resolve_child hne hslash hpath h
  obtain ⟨hfollow, -⟩ := resolve_eq_ok_iff.1 h
  exact ⟨place, resolve_eq_ok_iff.2 ⟨hfollow.of_child hslash hpath, hplace.of_slash⟩⟩

end FileSystem

end ModPackager
