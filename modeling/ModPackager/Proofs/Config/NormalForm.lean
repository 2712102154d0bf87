import ModPackager.Proofs.Config.PlainPaths
import ModPackager.Proofs.Path.Parent

/-!
# Normal forms and canonical paths

The normal form of a path is folded together on the text as well: what is to come is pushed to the end of a path, and a
parent pops the end of it again (`Path.normalForm`). On the way the path is that from the root to the location spelled so
far (`foldl_stepOn`), since popping undoes the last push (`parent?_child`) and stops at the root. So the folded path is
that to the spelled location. It is absolute, goes through names only, and is its own normal form.

Without links the location that a path spells is the one that it leads to, if it leads anywhere. The normal form is then
the canonical path, and the two halves of a comparison of such paths agree (`normalForm_canonical`).
-/

namespace ModPackager

open FileSystem

variable {path : Path} {here location place : Location} {name : String} {names : List String}
  {pieces : List (List Char)}

namespace Path

/-! ### Paths of locations -/

/-- The path from the root to a location. -/
def ofLocation (location : Location) : Path := (⟨"/"⟩ : Path).descend location

theorem ofLocation_concat (location : Location) (name : String) :
    ofLocation (location ++ [name]) = (ofLocation location).child name := descend_concat ..

/-- Names that stand for themselves in a path. -/
def Named (names : List String) : Prop :=
  ∀ name ∈ names, name ≠ "" ∧ name ≠ "." ∧ name ≠ ".." ∧ '/' ∉ name.toList

theorem Named.slashless (h : Named names) : ∀ name ∈ names, '/' ∉ name.toList := fun name hname => (h name hname).2.2.2

theorem Named.dropLast (h : Named names) : Named names.dropLast := fun name hname =>
  h name (List.dropLast_subset _ hname)

theorem named_nil : Named [] := by simp [Named]

theorem named_concat_iff : Named (names ++ [name])
    ↔ Named names ∧ name ≠ "" ∧ name ≠ "." ∧ name ≠ ".." ∧ '/' ∉ name.toList := by
  rw [Named, List.forall_mem_append, List.forall_mem_singleton]
  rfl

/-- The names that a text spells are among those that it is made of, dots and parents left out. -/
theorem Named.climb (hhere : Named here) (hnames : ∀ name ∈ names, name ≠ "" ∧ '/' ∉ name.toList) :
    Named (climb here names) := by
  induction names generalizing here with
  | nil => exact hhere
  | cons name rest ih =>
      rw [List.forall_mem_cons] at hnames
      obtain ⟨⟨hne, hslash⟩, hrest⟩ := hnames
      rw [climb_cons]
      refine ih ?_ hrest
      by_cases hdot : name = "."
      · rwa [hdot, climbStep_dot]
      by_cases hup : name = ".."
      · rw [hup, climbStep_up]
        exact hhere.dropLast
      · rw [climbStep_of_ne hdot hup, named_concat_iff]
        exact ⟨hhere, hne, hdot, hup, hslash⟩

theorem named_spelled (text : String) : Named (FileSystem.climb [] (namesOf text)) :=
  named_nil.climb fun _ => name_of_mem_namesOf

section OfLocation

variable (hnamed : Named location)

include hnamed

theorem ofLocation_text_ne : (ofLocation location).text ≠ "" := descend_text_ne (by decide) hnamed.slashless

theorem isAbsolute_ofLocation : (ofLocation location).isAbsolute = true :=
  isAbsolute_descend (by decide) hnamed.slashless

/-- The components of the path to a location are the root and its names. -/
theorem components_ofLocation : (ofLocation location).components = componentsOf location := by
  have hnames : (location.filterMap fun name => component? name.toList) = location.map Component.normal := by
    rw [← List.filterMap_eq_map]
    refine List.filterMap_congr fun name hname => ?_
    obtain ⟨hne, hdot, hup, -⟩ := hnamed name hname
    exact component?_name hne hdot hup
  have hroot : (⟨"/"⟩ : Path).components = [.root] := by decide
  rw [ofLocation, components_descend (by decide) hnamed.slashless, hnames, hroot]
  rfl

theorem namesOf_ofLocation : namesOf (ofLocation location).text = location := by
  induction location using List.reverseRecOn with
  | nil => rfl
  | append_singleton front name ih =>
      obtain ⟨hfront, hne, -, -, hslash⟩ := named_concat_iff.1 hnamed
      rw [ofLocation_concat, child, namesOf_join (ofLocation_text_ne hfront) (isAbsolute_name hslash), ih hfront,
        namesOf_name hne hslash]

/-- The path to a location is the root, or it ends in a name. -/
theorem ofLocation_ends : (ofLocation location).text = "/" ∨ (ofLocation location).EndsInComponent := by
  rcases List.eq_nil_or_concat location with rfl | ⟨front, name, rfl⟩
  · exact .inl rfl
  · rw [List.concat_eq_append] at hnamed ⊢
    obtain ⟨hfront, hname⟩ := named_concat_iff.1 hnamed
    rw [ofLocation_concat]
    exact .inr (endsInComponent_child (ofLocation_text_ne hfront) hname)

end OfLocation

/-! ### Popping -/

/-- The pieces of a path put together are the path. -/
theorem ofPieces_steps (hroot : ∀ text, path.steps ≠ [⟨text, some .root⟩]) : ofPieces path.steps = path := by
  unfold ofPieces
  split
  next text heq => exact absurd heq (hroot text)
  · have htext : ("/".intercalate (path.steps.map fun piece => String.ofList piece.text)).toList = path.text.toList := by
      rw [← intercalate_pieces path.text.toList, ← map_text_steps]
      simp [String.toList_intercalate, Function.comp_def]
    exact congrArg Path.mk (String.toList_inj.1 htext)

/-- The pieces in front of those of an entry are those of its directory. -/
theorem ofPieces_trunk (h : path.text = "/" ∨ path.EndsInComponent) :
    trimEnd path.trunk = path.trunk ∧ ofPieces path.trunk = path := by
  rcases h with hroot | ⟨front, text, component, hsteps, hcomponent⟩
  · obtain rfl : path = ⟨"/"⟩ := congrArg Path.mk hroot
    exact ⟨rfl, rfl⟩
  · -- The last piece counts, so there is no slash behind it.
    have hends : endsInSlash path.text ≠ true := by
      intro hends
      have hlast := getLast?_pieces hends
      rw [← map_text_steps, hsteps, List.map_append, List.map_singleton, List.getLast?_concat] at hlast
      have hmem : (⟨text, some component⟩ : Piece) ∈ path.steps := by simp [hsteps]
      exact text_ne_of_mem_steps hmem rfl (by simpa using hcomponent) (Option.some.inj hlast)
    rw [trunk, if_neg hends]
    refine ⟨by rw [hsteps, trimEnd_concat rfl], ofPieces_steps fun root hsingle => ?_⟩
    rw [hsteps, List.append_eq_singleton_iff] at hsingle
    rcases hsingle with ⟨-, hpiece⟩ | ⟨-, hnil⟩
    · exact hcomponent (by simpa using congrArg Piece.component (List.singleton_inj.1 hpiece))
    · cases hnil

/-- Going up from an entry comes back to its directory. -/
theorem parent?_child (h : path.text = "/" ∨ path.EndsInComponent) (hpath : path.text ≠ "")
    (hname : name ≠ "" ∧ name ≠ "." ∧ name ≠ ".." ∧ '/' ∉ name.toList) : (path.child name).parent? = some path := by
  obtain ⟨hne, hdot, hup, hslash⟩ := hname
  obtain ⟨htrim, hpieces⟩ := ofPieces_trunk h
  have hsteps := steps_child hpath hslash
  rw [component?_name hne hdot hup] at hsteps
  have htrimmed : trimEnd (path.child name).steps = path.trunk ++ [⟨name.toList, some (.normal name)⟩] := by
    rw [hsteps, trimEnd_concat rfl]
  simp only [parent?, htrimmed, List.getLast?_concat, List.dropLast_concat, htrim, hpieces]

/-! ### Folding on the text -/

/-- Takes one more step from a path: a dot goes nowhere, a parent pops the end of the path unless that is the root, and
everything else is pushed to it. -/
def stepOn (path : Path) : Component → Path
  | .current => path
  | .parent => path.parent?.getD path
  | step => path.join ⟨step.text⟩

/-- The normal form of a path, folded together as a path. -/
def normalForm (path workingDir : Path) : Path :=
  ((path.absolute? workingDir).getD path).components.foldl stepOn ⟨""⟩

example : (⟨"/a/b/./c/../d"⟩ : Path).normalForm ⟨"/w"⟩ = ⟨"/a/b/d"⟩ := by decide +kernel

theorem stepOn_parent (hnamed : Named location) : (ofLocation location).stepOn .parent = ofLocation location.dropLast := by
  rcases List.eq_nil_or_concat location with rfl | ⟨front, name, rfl⟩
  · decide
  · rw [List.concat_eq_append] at hnamed ⊢
    obtain ⟨hfront, hname⟩ := named_concat_iff.1 hnamed
    rw [List.dropLast_concat, ofLocation_concat, stepOn,
      parent?_child (ofLocation_ends hfront) (ofLocation_text_ne hfront) hname, Option.getD_some]

/-- Folding the components of pieces goes from the path of one location to that of the location that they spell. -/
theorem foldl_stepOn (hhere : Named here) (hslash : ∀ piece ∈ pieces, '/' ∉ piece) :
    (pieces.filterMap component?).foldl stepOn (ofLocation here) = ofLocation (climb here (nonEmpty pieces)) := by
  induction pieces generalizing here with
  | nil => rfl
  | cons piece rest ih =>
      rw [List.forall_mem_cons] at hslash
      obtain ⟨hpieceSlash, hrest⟩ := hslash
      -- The piece is empty, a dot, a parent or a name, and only the last two move.
      rcases piece_cases piece with ⟨rfl, hpiece⟩ | ⟨rfl, hpiece⟩ | ⟨rfl, hpiece⟩ | ⟨hne, hdot, hup, hpiece⟩
      · rw [List.filterMap_cons_none hpiece, ih hhere hrest]
        rfl
      · rw [List.filterMap_cons_none hpiece, ih hhere hrest, nonEmpty_cons_of_ne (by simp)]
        rfl
      · rw [List.filterMap_cons_some hpiece, List.foldl_cons, stepOn_parent hhere, ih hhere.dropLast hrest,
          nonEmpty_cons_of_ne (by simp)]
        rfl
      · have hthere : Named (here ++ [String.ofList piece]) :=
          named_concat_iff.2 ⟨hhere, by simpa using hne, hdot, hup, by simpa using hpieceSlash⟩
        rw [List.filterMap_cons_some hpiece, List.foldl_cons, nonEmpty_cons_of_ne hne, climb_cons,
          climbStep_of_ne hdot hup, ← ih hthere hrest, ofLocation_concat]
        rfl

/-- The normal form of a path is the path to the location that its names spell from the root. -/
theorem normalForm_eq {workingDir : Path} (hworking : workingDir.isAbsolute = true) (hpath : path.text ≠ "") :
    path.normalForm workingDir = ofLocation (climb [] (namesOf (workingDir.join path).text)) := by
  obtain ⟨absolute, habsolute, habs, hspells⟩ := absolute?_spells hworking hpath
  obtain ⟨rest, hcomponents, hnames, hslash⟩ := exists_components_of_isAbsolute habs
  have hroot : stepOn ⟨""⟩ .root = ofLocation [] := by decide
  rw [normalForm, habsolute, Option.getD_some, hcomponents, List.foldl_cons, hroot, ← hspells, hnames]
  exact foldl_stepOn named_nil hslash

/-- The path to a location is its own normal form, in every working directory. -/
theorem normalForm_ofLocation {workingDir : Path} (hworking : workingDir.isAbsolute = true) (hnamed : Named location) :
    (ofLocation location).normalForm workingDir = ofLocation location := by
  rw [normalForm_eq hworking (ofLocation_text_ne hnamed), join_of_isAbsolute (isAbsolute_ofLocation hnamed),
    namesOf_ofLocation hnamed, climb_of_plain fun name hname => ⟨(hnamed name hname).2.1, (hnamed name hname).2.2.1⟩,
    List.nil_append]

/-! ### Canonical paths -/

theorem text_ne_of_canonical? {fs : FileSystem} (h : fs.canonical? path = some location) : path.text ≠ "" := by
  obtain ⟨entry, hresolve⟩ := canonical?_eq_some_iff.1 h
  exact (resolve_eq_ok_iff.1 hresolve).1.2.1

/-- The normal form of a path is absolute, and its components are those that comparisons look at, with no dots and no
parents among them. It is its own normal form, in every working directory. Without links the normal form of a path that
leads anywhere is the canonical path. So for two such paths every test says of the normal forms what it says of the
canonical paths, and the comparison, which applies it to both, says the same. -/
theorem normalForm_canonical {workingDir : Path} (hworking : workingDir.isAbsolute = true) (hpath : path.text ≠ "") :
    (path.normalForm workingDir).isAbsolute = true
      ∧ (path.normalForm workingDir).components = path.normalize workingDir
      ∧ .current ∉ path.normalize workingDir ∧ .parent ∉ path.normalize workingDir
      ∧ (∀ other : Path, other.isAbsolute = true →
          (path.normalForm workingDir).normalForm other = path.normalForm workingDir)
      ∧ ∀ fs : FileSystem, fs.workingDir = workingDir → fs.LinkFree →
          ∀ location, fs.canonical? path = some location →
            path.normalForm workingDir = ofLocation location
              ∧ path.normalize workingDir = componentsOf location
              ∧ ∀ (other : Path) (place : Location) (test : List Component → List Component → Bool),
                  fs.canonical? other = some place →
                  test (path.normalize workingDir) (other.normalize workingDir)
                      = test (componentsOf location) (componentsOf place)
                    ∧ overlaps fs path other test = test (componentsOf location) (componentsOf place) := by
  have hform := normalForm_eq hworking hpath
  have hnormalize := normalize_eq hworking hpath
  have hnamed := named_spelled (workingDir.join path).text
  generalize hspelled : climb [] (namesOf (workingDir.join path).text) = spelled at hform hnormalize hnamed
  rw [hform, hnormalize]
  refine ⟨isAbsolute_ofLocation hnamed, components_ofLocation hnamed, by simp [componentsOf], by simp [componentsOf],
    fun other hother => normalForm_ofLocation hother hnamed, ?_⟩
  rintro fs rfl hfree location hlocation
  obtain rfl : location = spelled := (hfree.canonical?_eq hlocation).trans hspelled
  refine ⟨rfl, rfl, fun other place test hplace => ?_⟩
  have hother := text_ne_of_canonical? hplace
  have hoverlaps : overlaps fs path other test
      = test (componentsOf (fs.spelled path)) (componentsOf (fs.spelled other)) :=
    hfree.overlaps_eq hworking hpath hother
  rw [normalize_eq hworking hother]
  rw [spelled, spelled, ← hfree.canonical?_eq hlocation, ← hfree.canonical?_eq hplace] at hoverlaps
  exact ⟨by rw [hfree.canonical?_eq hplace]; rfl, hoverlaps⟩

/-- A working directory beside a project with its build directory. -/
def besideProject : FileSystem :=
  ofEntries ⟨"/w"⟩ [(["w"], .directory), (["p"], .directory), (["p", "build"], .directory)]

/-- A roundabout way to the project is folded to its canonical path, and compares with the build directory, however that
is written, as the canonical paths do. -/
theorem normalForm_canonical_besideProject :
    besideProject.workingDir.isAbsolute = true ∧ (⟨"../p//./build/.."⟩ : Path).text ≠ "" ∧ besideProject.LinkFree
      ∧ besideProject.canonical? ⟨"../p//./build/.."⟩ = some ["p"]
      ∧ (⟨"../p//./build/.."⟩ : Path).normalForm besideProject.workingDir = ⟨"/p"⟩
      ∧ overlaps besideProject ⟨"../p//./build/.."⟩ ⟨"/../p/build/"⟩ (fun r d => r.isPrefixOf d) = true := by
  have hfree : besideProject.LinkFree := fun place text => ofEntries_unlinked (by decide) place text
  have hlocation : besideProject.canonical? ⟨"../p//./build/.."⟩ = some ["p"] := by decide +kernel
  have hplace : besideProject.canonical? ⟨"/../p/build/"⟩ = some ["p", "build"] := by decide +kernel
  have hworking : besideProject.workingDir.isAbsolute = true := by decide
  have hpath : (⟨"../p//./build/.."⟩ : Path).text ≠ "" := by decide
  obtain ⟨-, -, -, -, -, hcanonical⟩ := normalForm_canonical hworking hpath
  obtain ⟨hform, -, hcompare⟩ := hcanonical besideProject rfl hfree _ hlocation
  refine ⟨hworking, hpath, hfree, hlocation, hform.trans (by decide), ?_⟩
  exact (hcompare ⟨"/../p/build/"⟩ _ (fun r d => r.isPrefixOf d) hplace).2.trans (by decide)

end Path

end ModPackager
