import ModPackager.Proofs.FileSystem.Resolve

/-!
# Normal forms of paths

The normal form of a path goes through two texts: the path is made absolute and put together again from its
components, and then its dots and parents are folded away component by component. Both agree with reading the
names of the path from the root. So the normal form is the location that the names spell, where the parent of the root
is the root (`normalize_eq`), whatever dots, repeated slashes and slashes at the end the text has.

Where there are no links, this is also the location that the path leads to, if it leads to anything
(`LinkFree.canonical?_eq`).
-/

namespace ModPackager

open FileSystem

variable {path base workingDir : Path} {here location : Location} {pieces rest : List (List Char)}
  {components : List Path.Component}

namespace Path

/-! ### Folding -/

theorem foldStep_normal (here : Location) (name : String) :
    foldStep (componentsOf here) (.normal name) = componentsOf (here ++ [name]) := by
  simp [foldStep, componentsOf]

/-- The parent of the root is the root. -/
theorem foldStep_parent (here : Location) :
    foldStep (componentsOf here) .parent = componentsOf here.dropLast := by
  rcases List.eq_nil_or_concat here with rfl | ⟨front, last, rfl⟩
  · rfl
  · rw [List.concat_eq_append]
    have hparts : componentsOf (front ++ [last]) = componentsOf front ++ [.normal last] := by
      simp [componentsOf]
    rw [List.dropLast_concat, hparts]
    simp [foldStep]

/-- A piece behind the first slash is no name, or a dot, or a parent, or a name that stands for itself. -/
theorem piece_cases (piece : List Char) :
    piece = [] ∧ component? piece = none
      ∨ piece = ['.'] ∧ component? piece = none
      ∨ piece = ['.', '.'] ∧ component? piece = some .parent
      ∨ piece ≠ [] ∧ String.ofList piece ≠ "." ∧ String.ofList piece ≠ ".."
        ∧ component? piece = some (.normal (String.ofList piece)) := by
  by_cases hempty : piece = []
  · exact .inl ⟨hempty, by simp [component?, hempty]⟩
  by_cases hdot : piece = ['.']
  · exact .inr (.inl ⟨hdot, by simp [component?, hdot]⟩)
  by_cases hup : piece = ['.', '.']
  · exact .inr (.inr (.inl ⟨hup, by simp [component?, hup]⟩))
  · refine .inr (.inr (.inr ⟨hempty, fun heq => hdot ?_, fun heq => hup ?_, ?_⟩))
    · simpa using congrArg String.toList heq
    · simpa using congrArg String.toList heq
    · simp [component?, hempty, hdot, hup]

theorem nonEmpty_cons_of_ne {piece : List Char} (h : piece ≠ []) (rest : List (List Char)) :
    nonEmpty (piece :: rest) = String.ofList piece :: nonEmpty rest := by
  simp [nonEmpty, h]

/-- Folding the components of pieces goes where their names lead. -/
theorem foldl_foldStep (pieces : List (List Char)) (here : Location) :
    (pieces.filterMap component?).foldl foldStep (componentsOf here) = componentsOf (climb here (nonEmpty pieces)) := by
  induction pieces generalizing here with
  | nil => rfl
  | cons piece rest ih =>
      rcases piece_cases piece with ⟨rfl, hpiece⟩ | ⟨rfl, hpiece⟩ | ⟨rfl, hpiece⟩ | ⟨hne, hdot, hup, hpiece⟩
      · rw [List.filterMap_cons_none hpiece, ih]
        rfl
      · rw [List.filterMap_cons_none hpiece, ih, nonEmpty_cons_of_ne (by simp)]
        rfl
      · rw [List.filterMap_cons_some hpiece, List.foldl_cons, foldStep_parent, ih, nonEmpty_cons_of_ne (by simp)]
        rfl
      · rw [List.filterMap_cons_some hpiece, List.foldl_cons, foldStep_normal, ih, nonEmpty_cons_of_ne hne, climb_cons,
          climbStep_of_ne hdot hup]

/-- The texts of components spell the same location as the names of their pieces, which may have dots between them. -/
theorem climb_texts (pieces : List (List Char)) (here : Location) :
    climb here ((pieces.filterMap component?).map (·.text)) = climb here (nonEmpty pieces) := by
  induction pieces generalizing here with
  | nil => rfl
  | cons piece rest ih =>
      rcases piece_cases piece with ⟨rfl, hpiece⟩ | ⟨rfl, hpiece⟩ | ⟨rfl, hpiece⟩ | ⟨hne, -, -, hpiece⟩
      · rw [List.filterMap_cons_none hpiece, ih]
        rfl
      · rw [List.filterMap_cons_none hpiece, ih, nonEmpty_cons_of_ne (by simp)]
        rfl
      · rw [List.filterMap_cons_some hpiece, List.map_cons, climb_cons, ih, nonEmpty_cons_of_ne (by simp)]
        rfl
      · rw [List.filterMap_cons_some hpiece, List.map_cons, climb_cons, ih, nonEmpty_cons_of_ne hne, climb_cons]
        rfl

/-! ### The components of a path -/

/-- An absolute path is the root and what the pieces behind the first slash stand for. -/
theorem exists_components_of_isAbsolute (h : path.isAbsolute = true) : ∃ rest,
    path.components = .root :: rest.filterMap component? ∧ namesOf path.text = nonEmpty rest
      ∧ ∀ piece ∈ rest, '/' ∉ piece := by
  obtain ⟨more, htext⟩ : ∃ more, path.text.toList = '/' :: more := by
    obtain ⟨text, htext⟩ := List.head?_eq_some_iff.1 (by simpa [isAbsolute] using h)
    exact ⟨text, htext⟩
  refine ⟨Path.pieces more, ?_, ?_, fun piece hpiece => not_mem_of_mem_pieces hpiece⟩
  · simp [components, steps, htext, h, firstComponent?, List.filterMap_map]
  · simp [namesOf_eq, htext, nonEmpty]

/-- A path that is not absolute is what its pieces stand for, perhaps behind a leading dot. -/
theorem exists_components_of_relative (h : path.isAbsolute = false) (hpath : path.text ≠ "") : ∃ rest,
    (path.components = rest.filterMap component? ∨ path.components = .current :: rest.filterMap component?)
      ∧ (∀ here, climb here (namesOf path.text) = climb here (nonEmpty rest)) ∧ ∀ piece ∈ rest, '/' ∉ piece := by
  obtain ⟨c, text, htext⟩ := List.exists_cons_of_ne_nil (by simpa using hpath : path.text.toList ≠ [])
  have hc : c ≠ '/' := by rintro rfl; simp [isAbsolute, htext] at h
  obtain ⟨piece, more, -, hpieces⟩ := pieces_cons_of_ne hc text
  have hslash : ∀ piece' ∈ (c :: piece) :: more, '/' ∉ piece' := fun piece' hmem =>
    not_mem_of_mem_pieces (hpieces ▸ hmem)
  have hcomponents : path.components
      = (firstComponent? false (c :: piece)).toList ++ more.filterMap component? := by
    simp only [components, steps, htext, hpieces, h, List.filterMap_cons, List.filterMap_map, Function.comp_def]
    cases firstComponent? false (c :: piece) <;> rfl
  have hnames : namesOf path.text = nonEmpty ((c :: piece) :: more) := by rw [namesOf_eq, htext, hpieces]
  by_cases hdot : c :: piece = ['.']
  · refine ⟨more, .inr ?_, fun here => ?_, fun piece' hmem => hslash piece' (List.mem_cons_of_mem _ hmem)⟩
    · rw [hcomponents, hdot]
      rfl
    · rw [hnames, nonEmpty_cons_of_ne (List.cons_ne_nil _ _), hdot]
      rfl
  · have hfirst : firstComponent? false (c :: piece) = component? (c :: piece) := by
      rw [firstComponent?, if_neg Bool.false_ne_true, if_neg (by simpa using hdot)]
    refine ⟨(c :: piece) :: more, .inl ?_, fun here => by rw [hnames], hslash⟩
    rw [hcomponents, hfirst]
    cases hpiece : component? (c :: piece) with
    | none => rw [List.filterMap_cons_none hpiece]; rfl
    | some component => rw [List.filterMap_cons_some hpiece]; rfl

/-- No piece stands for a dot. -/
theorem current_not_mem_filterMap (pieces : List (List Char)) : .current ∉ pieces.filterMap component? := by
  intro hmem
  obtain ⟨piece, -, hpiece⟩ := List.mem_filterMap.1 hmem
  rcases piece_cases piece with ⟨-, h⟩ | ⟨-, h⟩ | ⟨-, h⟩ | ⟨-, -, -, h⟩ <;> simp [hpiece] at h

/-- Folding the components of an absolute path gives the location that its names spell. -/
theorem foldl_components (h : path.isAbsolute = true) :
    path.components.foldl foldStep [] = componentsOf (climb [] (namesOf path.text)) := by
  obtain ⟨rest, hcomponents, hnames, -⟩ := exists_components_of_isAbsolute h
  rw [hcomponents, hnames, List.foldl_cons]
  exact foldl_foldStep rest []

/-! ### Going through components -/

/-- A path that goes on through the components of pieces goes on through their names. -/
theorem namesOf_through (hbase : base.text ≠ "") (hslash : ∀ piece ∈ rest, '/' ∉ piece) :
    (base.through (rest.filterMap component?)).isAbsolute = base.isAbsolute
      ∧ (base.through (rest.filterMap component?)).text ≠ ""
      ∧ namesOf (base.through (rest.filterMap component?)).text
        = namesOf base.text ++ (rest.filterMap component?).map (·.text) := by
  induction rest generalizing base with
  | nil => exact ⟨rfl, hbase, by simp [through]⟩
  | cons piece more ih =>
      have hmore : ∀ piece' ∈ more, '/' ∉ piece' := fun piece' hmem => hslash piece' (List.mem_cons_of_mem _ hmem)
      cases hpiece : component? piece with
      | none =>
          rw [List.filterMap_cons_none hpiece]
          exact ih hbase hmore
      | some component =>
          rw [List.filterMap_cons_some hpiece]
          have htext : component.text ≠ "" ∧ '/' ∉ component.text.toList := by
            rcases piece_cases piece with ⟨-, hnone⟩ | ⟨-, hnone⟩ | ⟨-, hparent⟩ | ⟨hne, -, -, hnormal⟩
            · simp [hpiece] at hnone
            · simp [hpiece] at hnone
            · obtain rfl := Option.some.inj (hpiece.symm.trans hparent)
              exact ⟨by decide, by decide⟩
            · obtain rfl := Option.some.inj (hpiece.symm.trans hnormal)
              exact ⟨by simpa [Component.text] using hne, by simpa [Component.text] using hslash piece List.mem_cons_self⟩
          have hrelative : (⟨component.text⟩ : Path).isAbsolute = false := isAbsolute_name htext.2
          obtain ⟨habs, hne, hnames⟩ := ih (text_join_ne hbase hrelative) hmore
          refine ⟨habs.trans (isAbsolute_join hbase hrelative), hne, hnames.trans ?_⟩
          rw [namesOf_join hbase hrelative, namesOf_name htext.1 htext.2, List.map_cons, List.append_assoc,
            List.singleton_append]

/-- A path with a slash at its end, if it is to have one. -/
def ended (slash : Bool) (path : Path) : Path := if slash then path.join ⟨""⟩ else path

theorem text_ne_of_isAbsolute (h : path.isAbsolute = true) : path.text ≠ "" := by
  rintro hempty
  simp [isAbsolute, hempty] at h

theorem ended_spells (h : path.isAbsolute = true) (slash : Bool) :
    (ended slash path).isAbsolute = true ∧ namesOf (ended slash path).text = namesOf path.text := by
  have hne := text_ne_of_isAbsolute h
  cases slash with
  | false => exact ⟨h, rfl⟩
  | true => exact ⟨(isAbsolute_join hne rfl).trans h, (namesOf_join hne rfl).trans (List.append_nil _)⟩

theorem absolute?_of_relative (habs : path.isAbsolute = false) (hpath : path.text ≠ "")
    (hcomponents : path.components = pieces.filterMap component?
      ∨ path.components = .current :: pieces.filterMap component?) :
    path.absolute? workingDir
      = some (ended (endsInSlash path.text) (workingDir.through (pieces.filterMap component?))) := by
  simp only [absolute?, String.isEmpty_iff, hpath, habs, Bool.not_false, if_true, if_false]
  -- A dot in front is left out, and behind the first slash there are none.
  rcases hcomponents with h | h
  · cases hlist : pieces.filterMap component? with
    | nil =>
        rw [h, hlist]
        rfl
    | cons first more =>
        have hfirst : first ≠ .current := fun heq =>
          current_not_mem_filterMap pieces (hlist ▸ heq ▸ List.mem_cons_self)
        rw [h, hlist]
        cases first with
        | current => exact absurd rfl hfirst
        | _ => rfl
  · rw [h]
    rfl

/-- An absolute path is made of its components behind one slash, or behind two. -/
theorem absolute?_of_isAbsolute (workingDir : Path) (habs : path.isAbsolute = true)
    (hcomponents : path.components = .root :: pieces.filterMap component?) :
    ∃ start ∈ [(⟨"/"⟩ : Path), ⟨"//"⟩], path.absolute? workingDir
      = some (ended (endsInSlash path.text) (start.through (pieces.filterMap component?))) := by
  simp only [absolute?, String.isEmpty_iff, text_ne_of_isAbsolute habs, habs, Bool.not_true, Bool.false_eq_true,
    if_false, hcomponents]
  by_cases hdoubled :
      (['/', '/'].isPrefixOf path.text.toList && !(['/', '/', '/'].isPrefixOf path.text.toList)) = true
  · refine ⟨⟨"//"⟩, by simp, ?_⟩
    rw [if_pos hdoubled]
    rfl
  · refine ⟨⟨"/"⟩, by simp, ?_⟩
    rw [if_neg hdoubled]
    rfl

/-- A path made absolute is absolute, and its names spell the same location. -/
theorem absolute?_spells (hworking : workingDir.isAbsolute = true) (hpath : path.text ≠ "") :
    ∃ absolute, path.absolute? workingDir = some absolute ∧ absolute.isAbsolute = true
      ∧ climb [] (namesOf absolute.text) = climb [] (namesOf (workingDir.join path).text) := by
  cases habs : path.isAbsolute with
  | false =>
      obtain ⟨rest, hcomponents, hspells, hslash⟩ := exists_components_of_relative habs hpath
      obtain ⟨habsolute, -, hnames⟩ := namesOf_through (text_ne_of_isAbsolute hworking) hslash
      obtain ⟨hends, hsame⟩ := ended_spells (habsolute.trans hworking) (endsInSlash path.text)
      refine ⟨_, absolute?_of_relative habs hpath hcomponents, hends, ?_⟩
      rw [hsame, hnames, namesOf_join (text_ne_of_isAbsolute hworking) habs, climb_append, climb_texts, climb_append,
        hspells]
  | true =>
      obtain ⟨rest, hcomponents, hspells, hslash⟩ := exists_components_of_isAbsolute habs
      obtain ⟨start, hstart, habsolute?⟩ := absolute?_of_isAbsolute workingDir habs hcomponents
      -- However many slashes it starts with, no name is in front of them.
      obtain ⟨hroot, hnone⟩ : start.isAbsolute = true ∧ namesOf start.text = [] := by
        rcases List.mem_cons.1 hstart with rfl | hstart
        · exact ⟨rfl, rfl⟩
        · obtain rfl := List.mem_singleton.1 hstart
          exact ⟨rfl, rfl⟩
      obtain ⟨habsolute, -, hnames⟩ := namesOf_through (text_ne_of_isAbsolute hroot) hslash
      obtain ⟨hends, hsame⟩ := ended_spells (habsolute.trans hroot) (endsInSlash path.text)
      refine ⟨_, habsolute?, hends, ?_⟩
      rw [hsame, hnames, hnone, List.nil_append, climb_texts, join_of_isAbsolute habs, hspells]

/-- The normal form of a path is the location that its names spell from the root. -/
theorem normalize_eq (hworking : workingDir.isAbsolute = true) (hpath : path.text ≠ "") :
    path.normalize workingDir = componentsOf (climb [] (namesOf (workingDir.join path).text)) := by
  obtain ⟨absolute, habsolute, habs, hspells⟩ := absolute?_spells hworking hpath
  rw [normalize, habsolute, Option.getD_some, foldl_components habs, hspells]

example : (⟨"../../p//./build/"⟩ : Path).normalize ⟨"/w"⟩ = [.root, .normal "p", .normal "build"] := by
  decide +kernel

end Path

/-! ### Without links -/

namespace FileSystem

/-- There are no links anywhere. -/
def LinkFree (fs : FileSystem) : Prop := ∀ place text, fs.entry? place ≠ some (.link text)

/-- Without links a path leads to the location that its names spell, if it leads to anything. -/
theorem LinkFree.canonical?_eq {fs : FileSystem} (hfree : fs.LinkFree) (h : fs.canonical? path = some location) :
    location = climb [] (fs.namesTo path) := by
  obtain ⟨entry, hresolve⟩ := canonical?_eq_some_iff.1 h
  exact place_eq_climb hresolve rfl (leadsTo_nil fs) (fun front _ => hfree _) fun _ => rfl

end FileSystem

end ModPackager
