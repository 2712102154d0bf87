import ModPackager.Proofs.Path.Descend

/-!
# Parents of paths that end in a name

A path that ends in a component other than the root has a parent, which has one component less. It is followed through the
names of the parent, then through dots, and then through its last name (`EndsInComponent.exists_parent`). The parent ends
in a component again, unless it is the root or empty, so that one can go up step by step.
-/

namespace ModPackager.Path

open FileSystem (namesOf nonEmpty)

variable {path parent : Path} {piece last : Piece} {front pieces : List Piece} {name : String}

/-- A path ends in a component other than the root, with nothing behind it that does not count. -/
def EndsInComponent (path : Path) : Prop :=
  ∃ front text component, path.steps = front ++ [⟨text, some component⟩] ∧ component ≠ .root

theorem endsInComponent_child (hpath : path.text ≠ "")
    (hname : name ≠ "" ∧ name ≠ "." ∧ name ≠ ".." ∧ '/' ∉ name.toList) : (path.child name).EndsInComponent := by
  obtain ⟨hne, hdot, hup, hslash⟩ := hname
  refine ⟨path.trunk, name.toList, .normal name, ?_, nofun⟩
  rw [steps_child hpath hslash, component?_name hne hdot hup]

/-! ### Pieces -/

/-- What trimming drops does not count. -/
theorem exists_trimEnd_append (pieces : List Piece) :
    ∃ dropped, pieces = trimEnd pieces ++ dropped ∧ ∀ piece ∈ dropped, piece.component = none := by
  refine ⟨(pieces.reverse.takeWhile (·.component.isNone)).reverse, ?_, fun piece hpiece => ?_⟩
  · rw [trimEnd, ← List.reverse_append, List.takeWhile_append_dropWhile, List.reverse_reverse]
  · simpa using List.mem_takeWhile_imp (List.mem_reverse.1 hpiece)

theorem trimEnd_concat (hlast : last.component.isSome) : trimEnd (front ++ [last]) = front ++ [last] := by
  obtain ⟨component, hcomponent⟩ := Option.isSome_iff_exists.1 hlast
  simp [trimEnd, hcomponent]

/-- A piece that does not count is empty or a dot. -/
theorem text_of_component_none (h : piece ∈ path.steps) (hnone : piece.component = none) :
    piece.text = [] ∨ piece.text = ['.'] := by
  have hcases : ∀ {text : List Char}, component? text = none → text = [] ∨ text = ['.'] := by
    intro text htext
    unfold component? at htext
    split at htext
    next hempty => simpa using hempty
    · split at htext <;> cases htext
  obtain ⟨first, rest, hpieces⟩ := List.exists_cons_of_ne_nil (pieces_ne_nil path.text.toList)
  rw [steps_eq hpieces, List.mem_cons, List.mem_map] at h
  rcases h with rfl | ⟨text, -, rfl⟩
  · unfold firstComponent? at hnone
    split at hnone
    · cases hnone
    · split at hnone
      · cases hnone
      · exact hcases hnone
  · exact hcases hnone

/-- Pieces that do not count leave no more than dots among the names. -/
theorem nonEmpty_of_component_none (h : ∀ piece ∈ pieces, piece ∈ path.steps ∧ piece.component = none) :
    ∀ name ∈ nonEmpty (pieces.map (·.text)), name = "." := by
  intro name hname
  simp only [nonEmpty, List.mem_map, List.mem_filter] at hname
  obtain ⟨_, ⟨⟨piece, hpiece, rfl⟩, hne⟩, rfl⟩ := hname
  obtain ⟨hmem, hnone⟩ := h piece hpiece
  rcases text_of_component_none hmem hnone with hempty | hdot
  · simp [hempty] at hne
  · rw [hdot]

/-- A path of first pieces of another one has just these pieces. -/
theorem steps_eq_of_pieces (hfront : front <+: path.steps) (hne : front ≠ [])
    (hpieces : Path.pieces parent.text.toList = front.map (·.text)) (habsolute : parent.isAbsolute = path.isAbsolute) :
    parent.steps = front := by
  obtain ⟨first, rest, rfl⟩ := List.exists_cons_of_ne_nil hne
  obtain ⟨text, more, htext⟩ := List.exists_cons_of_ne_nil (pieces_ne_nil path.text.toList)
  rw [steps_eq htext, List.cons_prefix_cons] at hfront
  obtain ⟨rfl, hrest⟩ := hfront
  rw [steps_eq hpieces, habsolute, List.map_map]
  congr 1
  refine (List.map_congr_left fun piece hpiece => ?_).trans (List.map_id rest)
  obtain ⟨text, -, rfl⟩ := List.mem_map.1 (hrest.subset hpiece)
  rfl

/-! ### Texts -/

/-- The pieces of a text, with slashes between them, are the text again. -/
theorem intercalate_pieces (text : List Char) : ['/'].intercalate (Path.pieces text) = text := by
  induction text with
  | nil => rfl
  | cons c text ih =>
      by_cases hc : c = '/'
      · obtain ⟨first, rest, hpieces⟩ := List.exists_cons_of_ne_nil (pieces_ne_nil text)
        rw [hc, pieces_slash, hpieces, List.intercalate_cons_cons, ← hpieces, ih]
        rfl
      · obtain ⟨first, rest, hpieces, hcut⟩ := pieces_cons_of_ne hc text
        rw [hpieces] at ih
        rw [hcut, ← ih]
        cases rest with
        | nil => simp [List.intercalate_singleton]
        | cons next rest => simp [List.intercalate_cons_cons]

theorem intercalate_prefix {texts more : List (List Char)} (h : texts <+: more) :
    ['/'].intercalate texts <+: ['/'].intercalate more := by
  induction texts generalizing more with
  | nil => exact List.nil_prefix
  | cons first rest ih =>
      obtain ⟨behind, rfl⟩ := h
      rcases rest with _ | ⟨next, rest⟩
      · rcases behind with _ | ⟨next, behind⟩
        · exact List.prefix_refl _
        · rw [List.intercalate_singleton, List.cons_append, List.nil_append, List.intercalate_cons_cons, List.append_assoc]
          exact List.prefix_append _ _
      · rw [List.cons_append, List.cons_append, List.intercalate_cons_cons, List.intercalate_cons_cons,
          List.prefix_append_right_inj]
        exact ih (List.prefix_append _ _)

/-- The text of a parent is the beginning of that of the path. -/
theorem text_parent_prefix (h : path.parent? = some parent) : parent.text.toList <+: path.text.toList := by
  obtain ⟨front, hfront, rfl, habsolute⟩ := exists_pieces_parent h
  unfold ofPieces at habsolute ⊢
  split at habsolute
  · -- The root alone is the first character of every path that begins there.
    obtain ⟨rest, hrest⟩ := List.head?_eq_some_iff.1 (by simpa [isAbsolute] using habsolute.symm)
    simp [hrest]
  · have htext : ∀ pieces : List Piece, ("/".intercalate (pieces.map fun piece => String.ofList piece.text)).toList
        = ['/'].intercalate (pieces.map (·.text)) := by simp [String.toList_intercalate, Function.comp_def]
    rw [htext, ← intercalate_pieces path.text.toList, ← map_text_steps]
    exact intercalate_prefix (hfront.map _)

/-! ### Going up -/

/-- A path that ends in a component has a parent, with one component less, and is followed through the names of the
parent, dots, and a last name. -/
theorem EndsInComponent.exists_parent (h : path.EndsInComponent) :
    ∃ parent dots last, path.parent? = some parent
      ∧ (∀ dot ∈ dots, dot = ".") ∧ namesOf path.text = namesOf parent.text ++ dots ++ [last]
      ∧ path.components.length = parent.components.length + 1
      ∧ (parent.text = "" ∨ parent.text = "/" ∨ parent.EndsInComponent) := by
  obtain ⟨front, text, component, hsteps, hroot⟩ := h
  obtain ⟨dropped, hfront, hdropped⟩ := exists_trimEnd_append front
  have hparent : path.parent? = some (ofPieces (trimEnd front)) := by
    have htrimmed : trimEnd (front ++ [⟨text, some component⟩]) = front ++ [⟨text, some component⟩] := trimEnd_concat rfl
    simp only [parent?, hsteps, htrimmed, List.getLast?_concat, List.dropLast_concat]
    cases component with
    | root => exact absurd rfl hroot
    | _ => rfl
  obtain ⟨-, -, -, habsolute⟩ := exists_pieces_parent hparent
  have hcounts : ∀ {piece}, (trimEnd front).getLast? = some piece → piece.component.isSome := isSome_of_getLast?_trimEnd
  generalize trimEnd front = kept at hfront hparent habsolute hcounts
  subst hfront
  have hkept : kept <+: path.steps := ⟨dropped ++ [⟨text, some component⟩], by rw [hsteps, List.append_assoc]⟩
  have hlast : (⟨text, some component⟩ : Piece) ∈ path.steps := by simp [hsteps]
  have htext : text ≠ [] := text_ne_of_mem_steps hlast rfl (by simpa using hroot)
  have hnames : namesOf path.text = namesOf (ofPieces kept).text ++ nonEmpty (dropped.map (·.text)) ++ [String.ofList text] := by
    rw [namesOf_eq_steps, namesOf_front hkept, hsteps]
    simp [nonEmpty, htext]
  have hcomponents : path.components = kept.filterMap (·.component) ++ [component] := by
    rw [components, hsteps]
    simpa using hdropped
  have hdots : ∀ piece ∈ dropped, piece ∈ path.steps ∧ piece.component = none := fun piece hpiece =>
    ⟨by simp [hsteps, hpiece], hdropped piece hpiece⟩
  refine ⟨ofPieces kept, nonEmpty (dropped.map (·.text)), String.ofList text, hparent,
    nonEmpty_of_component_none hdots, hnames, ?_⟩
  rw [hcomponents, List.length_append, List.length_singleton, Nat.add_right_cancel_iff]
  by_cases hnil : kept = []
  · subst hnil
    exact ⟨rfl, .inl rfl⟩
  · by_cases halone : ∃ text, kept = [⟨text, some .root⟩]
    · obtain ⟨first, rfl⟩ := halone
      obtain rfl : first = [] := text_of_root (hkept.subset List.mem_cons_self) rfl
      exact ⟨by decide, .inr (.inl rfl)⟩
    · have hpieces := pieces_ofPieces hnil (fun _ hmem => not_mem_of_mem_steps (hkept.subset hmem))
        fun text htext => halone ⟨text, htext⟩
      have hparentSteps := steps_eq_of_pieces hkept hnil hpieces habsolute
      refine ⟨by rw [components, hparentSteps], .inr (.inr ?_)⟩
      obtain ⟨before, last, rfl⟩ : ∃ before last, kept = before ++ [last] :=
        ⟨_, _, (List.dropLast_append_getLast hnil).symm⟩
      obtain ⟨component', hcomponent'⟩ := Option.isSome_iff_exists.1 (hcounts List.getLast?_concat)
      refine ⟨before, last.text, component', by rw [hparentSteps, ← hcomponent'], ?_⟩
      rintro rfl
      -- The root alone is the first piece, and here it would be the last.
      cases before with
      | nil => exact halone ⟨last.text, by rw [← hcomponent', List.nil_append]⟩
      | cons piece rest =>
          obtain ⟨more, hmore⟩ := hkept
          exact component_ne_root_of_mem_tail (by simp [← hmore] : last ∈ path.steps.tail) hcomponent'

end ModPackager.Path

namespace ModPackager.FileSystem

variable {path parent : Path} {more : List String}

/-- What comes behind the names of the parent comes there from the root on as well. -/
theorem namesTo_eq_append (fs : FileSystem) (hparent : path.parent? = some parent)
    (h : namesOf path.text = namesOf parent.text ++ more) : fs.namesTo path = fs.namesTo parent ++ more := by
  obtain ⟨-, -, -, habsolute⟩ := Path.exists_pieces_parent hparent
  cases hpath : path.isAbsolute with
  | true => rw [namesTo_of_isAbsolute fs hpath, namesTo_of_isAbsolute fs (habsolute.trans hpath), h]
  | false =>
      obtain ⟨before, hbefore⟩ := fs.exists_namesTo_eq
      rw [hbefore _ hpath, hbefore _ (habsolute.trans hpath), h, List.append_assoc]

end ModPackager.FileSystem
