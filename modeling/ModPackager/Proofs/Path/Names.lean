import Mathlib.Data.List.TakeWhile
import ModPackager.FileSystem.Resolve
import ModPackager.Proofs.Text.Lines

/-!
# The names of a path

Following a path means following the names in it, so what the operations on paths do is told by what
they do to these names: joining appends them (`namesTo_join`), and going to the parent leaves a prefix
of them (`namesTo_parent`).

The names are cut out of the text between slashes. Everything here goes back to one fact about cutting,
`pieces_append_slash`: a slash splits a text into two that are cut on their own.
-/

namespace ModPackager

open FileSystem (namesOf)

/-! ### Cutting at slashes -/

namespace Path

theorem pieces_ne_nil (text : List Char) : pieces text ≠ [] := by
  obtain ⟨piece, more, hpieces, -⟩ := Text.exists_piecesAt '/' text
  simp [pieces, hpieces]

/-- A character other than a slash goes to the front of the first piece. -/
theorem pieces_cons_of_ne {c : Char} (hc : c ≠ '/') (text : List Char) :
    ∃ piece more, pieces text = piece :: more ∧ pieces (c :: text) = (c :: piece) :: more := by
  obtain ⟨piece, more, hpieces, -⟩ := Text.exists_piecesAt '/' text
  have hfront : '/' ∉ [c] := by simpa using Ne.symm hc
  exact ⟨piece, more, hpieces, Text.piecesAt_prepend hfront hpieces⟩

@[simp] theorem pieces_nil : pieces [] = [[]] := rfl

@[simp] theorem pieces_slash (text : List Char) : pieces ('/' :: text) = [] :: pieces text := by
  simp [pieces, Text.piecesAt]

/-- A slash splits a text into two that are cut on their own. -/
theorem pieces_append_slash (a b : List Char) : pieces (a ++ '/' :: b) = pieces a ++ pieces b :=
  Text.piecesAt_between a b

/-- A text without slashes is one piece. -/
theorem pieces_of_not_mem {text : List Char} (h : '/' ∉ text) : pieces text = [text] := Text.piecesAt_self h

theorem not_mem_of_mem_pieces {text piece : List Char} (h : piece ∈ pieces text) : '/' ∉ piece := by
  induction text generalizing piece with
  | nil => simp_all
  | cons c rest ih =>
      by_cases hc : c = '/'
      · subst hc
        rcases List.mem_cons.1 (pieces_slash rest ▸ h) with rfl | hmem
        · simp
        · exact ih hmem
      · obtain ⟨first, more, hrest, hcons⟩ := pieces_cons_of_ne hc rest
        rcases List.mem_cons.1 (hcons ▸ h) with rfl | hmem
        · have hfirst : '/' ∉ first := ih (by simp [hrest])
          simpa [hfirst] using Ne.symm hc
        · exact ih (by simp [hrest, hmem])

end Path

open ModPackager.Path

/-! ### The names in a text -/

namespace FileSystem

/-- The pieces that are names. -/
def nonEmpty (pieces : List (List Char)) : List String :=
  (pieces.filter (!·.isEmpty)).map String.ofList

theorem namesOf_eq (text : String) : namesOf text = nonEmpty (pieces text.toList) := rfl

@[simp] theorem nonEmpty_append (a b : List (List Char)) :
    nonEmpty (a ++ b) = nonEmpty a ++ nonEmpty b := by
  simp [nonEmpty]

@[simp] theorem namesOf_empty : namesOf "" = [] := rfl

/-- A slash between two texts separates their names. -/
theorem namesOf_append_slash (a b : String) : namesOf (a ++ "/" ++ b) = namesOf a ++ namesOf b := by
  have htext : (a ++ "/" ++ b).toList = a.toList ++ '/' :: b.toList := by simp
  rw [namesOf_eq, htext, pieces_append_slash, nonEmpty_append, ← namesOf_eq, ← namesOf_eq]

/-- So does a slash at the end of the first one. -/
theorem namesOf_append_of_ends {a : String} (h : a.toList.getLast? = some '/') (b : String) :
    namesOf (a ++ b) = namesOf a ++ namesOf b := by
  obtain ⟨front, hfront⟩ := List.getLast?_eq_some_iff.1 h
  have htext : (a ++ b).toList = front ++ '/' :: b.toList := by simp [hfront]
  simp [namesOf_eq, htext, hfront, pieces_append_slash, nonEmpty]

/-- A name is the only name in its text. -/
theorem namesOf_name {name : String} (hne : name ≠ "") (hslash : '/' ∉ name.toList) :
    namesOf name = [name] := by
  have hlist : name.toList ≠ [] := by simpa using hne
  simp [namesOf_eq, pieces_of_not_mem hslash, nonEmpty, hlist]

theorem name_of_mem_namesOf {text name : String} (h : name ∈ namesOf text) :
    name ≠ "" ∧ '/' ∉ name.toList := by
  simp only [namesOf, List.mem_map, List.mem_filter] at h
  obtain ⟨piece, ⟨hmem, hne⟩, rfl⟩ := h
  refine ⟨?_, by simpa using not_mem_of_mem_pieces hmem⟩
  intro hempty
  rw [← String.toList_inj] at hempty
  simp_all

end FileSystem

/-! ### Joining -/

namespace Path

theorem isAbsolute_append {a b : String} (ha : a ≠ "") :
    (⟨a ++ b⟩ : Path).isAbsolute = (⟨a⟩ : Path).isAbsolute := by
  obtain ⟨c, rest, hlist⟩ := List.exists_cons_of_ne_nil (by simpa using ha : a.toList ≠ [])
  simp [isAbsolute, hlist]

theorem isAbsolute_join {base path : Path} (hbase : base.text ≠ "") (hpath : path.isAbsolute = false) :
    (base.join path).isAbsolute = base.isAbsolute := by
  simp only [join, hpath, Bool.false_or, String.isEmpty_iff, hbase, if_false]
  split
  · exact isAbsolute_append hbase
  · rw [String.append_assoc]
    exact isAbsolute_append hbase

/-- Joining appends names. -/
theorem namesOf_join {base path : Path} (hbase : base.text ≠ "") (hpath : path.isAbsolute = false) :
    namesOf (base.join path).text = namesOf base.text ++ namesOf path.text := by
  simp only [join, hpath, Bool.false_or, String.isEmpty_iff, hbase, if_false]
  split
  next hends => exact FileSystem.namesOf_append_of_ends (by simpa using hends) _
  · exact FileSystem.namesOf_append_slash _ _

theorem join_of_isAbsolute {base path : Path} (h : path.isAbsolute = true) : base.join path = path := by
  simp [join, h]

theorem join_of_empty {base path : Path} (h : base.text = "") : base.join path = path := by
  simp [join, h]

theorem text_join_ne {base path : Path} (hbase : base.text ≠ "") (hpath : path.isAbsolute = false) :
    (base.join path).text ≠ "" := by
  simp only [join, hpath, Bool.false_or, String.isEmpty_iff, hbase, if_false]
  split <;> simp [hbase]

/-- A name is no absolute path. -/
theorem isAbsolute_name {name : String} (h : '/' ∉ name.toList) :
    (⟨name⟩ : Path).isAbsolute = false := by
  cases htext : name.toList with
  | nil => simp [isAbsolute, htext]
  | cons c rest =>
      have hc : c ≠ '/' := by rintro rfl; simp [htext] at h
      simp [isAbsolute, htext, hc]

theorem text_child_ne {base : Path} {name : String} (hne : name ≠ "") (hslash : '/' ∉ name.toList) :
    (base.child name).text ≠ "" := by
  by_cases hbase : base.text = ""
  · rwa [child, join_of_empty hbase]
  · exact text_join_ne hbase (isAbsolute_name hslash)

end Path

namespace FileSystem

/-- The names that a path is followed through, from the root. -/
def namesTo (fs : FileSystem) (path : Path) : List String := namesOf (fs.workingDir.join path).text

theorem namesTo_of_isAbsolute (fs : FileSystem) {path : Path} (h : path.isAbsolute = true) :
    fs.namesTo path = namesOf path.text := by
  rw [namesTo, join_of_isAbsolute h]

/-- The names that come before those of a relative path. -/
theorem exists_namesTo_eq (fs : FileSystem) :
    ∃ before, ∀ path : Path, path.isAbsolute = false → fs.namesTo path = before ++ namesOf path.text := by
  by_cases hdir : fs.workingDir.text = ""
  · exact ⟨[], fun path _ => by rw [namesTo, join_of_empty hdir, List.nil_append]⟩
  · exact ⟨namesOf fs.workingDir.text, fun path h => namesOf_join hdir h⟩

/-- Joining appends names to those that a path is followed through. -/
theorem namesTo_join (fs : FileSystem) {base path : Path} (hbase : base.text ≠ "")
    (hpath : path.isAbsolute = false) :
    fs.namesTo (base.join path) = fs.namesTo base ++ namesOf path.text := by
  cases habs : base.isAbsolute with
  | true =>
      rw [namesTo_of_isAbsolute fs (by rwa [isAbsolute_join hbase hpath]), namesTo_of_isAbsolute fs habs,
        namesOf_join hbase hpath]
  | false =>
      obtain ⟨before, hbefore⟩ := fs.exists_namesTo_eq
      rw [hbefore _ (by rwa [isAbsolute_join hbase hpath]), hbefore _ habs, namesOf_join hbase hpath,
        List.append_assoc]

/-- The path of an entry has its name behind those of the directory. -/
theorem namesTo_child (fs : FileSystem) {dir : Path} {name : String} (hdir : dir.text ≠ "")
    (hne : name ≠ "") (hslash : '/' ∉ name.toList) :
    fs.namesTo (dir.child name) = fs.namesTo dir ++ [name] := by
  rw [Path.child, namesTo_join fs hdir (isAbsolute_name hslash), namesOf_name hne hslash]

end FileSystem

/-! ### Parents -/

namespace Path

/-- The text of a path is that of its pieces. -/
theorem map_text_steps (path : Path) : path.steps.map (·.text) = pieces path.text.toList := by
  cases h : pieces path.text.toList with
  | nil => exact absurd h (pieces_ne_nil _)
  | cons first rest => simp [steps, h, Function.comp_def]

theorem prefix_trimEnd (pieces : List Piece) : trimEnd pieces <+: pieces := by
  rw [trimEnd, ← List.reverse_suffix, List.reverse_reverse]
  exact List.dropWhile_suffix _

theorem pieces_intercalate {texts : List (List Char)} (hne : texts ≠ [])
    (h : ∀ text ∈ texts, '/' ∉ text) : pieces (['/'].intercalate texts) = texts := by
  induction texts with
  | nil => exact absurd rfl hne
  | cons first rest ih =>
      have hfirst : '/' ∉ first := h first (by simp)
      cases rest with
      | nil => simpa [List.intercalate] using pieces_of_not_mem hfirst
      | cons second more =>
          have hrest := ih (by simp) fun text hmem => h text (by simp [hmem])
          have hcut : ['/'].intercalate (first :: second :: more)
              = first ++ '/' :: ['/'].intercalate (second :: more) := by
            simp [List.intercalate]
          rw [hcut, pieces_append_slash, pieces_of_not_mem hfirst, hrest, List.singleton_append]

/-- The path of pieces is cut into these pieces again. The root alone is written as a slash, which is cut
into two. -/
theorem pieces_ofPieces {pieces : List Piece} (hne : pieces ≠ [])
    (hslash : ∀ piece ∈ pieces, '/' ∉ piece.text) (hroot : ∀ text, pieces ≠ [⟨text, some .root⟩]) :
    Path.pieces (ofPieces pieces).text.toList = pieces.map (·.text) := by
  unfold ofPieces
  split
  next text => exact absurd rfl (hroot text)
  · have htexts : ("/".intercalate (pieces.map fun piece => String.ofList piece.text)).toList
        = ['/'].intercalate (pieces.map (·.text)) := by
      simp [String.toList_intercalate, Function.comp_def]
    rw [htexts, pieces_intercalate (by simpa using hne) (by simpa using hslash)]

/-- The names in the path of pieces. -/
theorem namesOf_ofPieces {pieces : List Piece} (hslash : ∀ piece ∈ pieces, '/' ∉ piece.text)
    (hroot : ∀ piece ∈ pieces, piece.component = some .root → piece.text = []) :
    namesOf (ofPieces pieces).text = FileSystem.nonEmpty (pieces.map (·.text)) := by
  by_cases hne : pieces = []
  · subst hne
    rfl
  · by_cases halone : ∃ text, pieces = [⟨text, some .root⟩]
    · obtain ⟨text, rfl⟩ := halone
      have htext : text = [] := hroot ⟨text, some .root⟩ (by simp) rfl
      simp [ofPieces, htext, FileSystem.namesOf_eq, FileSystem.nonEmpty]
    · rw [FileSystem.namesOf_eq, pieces_ofPieces hne hslash fun text htext => halone ⟨text, htext⟩]

/-- Trimming keeps a first piece that counts. -/
theorem trimEnd_cons {piece : Piece} {rest : List Piece} (h : piece.component.isSome) :
    ∃ kept, trimEnd (piece :: rest) = piece :: kept := by
  have hne : trimEnd (piece :: rest) ≠ [] := by
    intro hnil
    have hdrop : (piece :: rest).reverse.dropWhile (·.component.isNone) = [] := by
      simpa only [trimEnd, List.reverse_eq_nil_iff] using hnil
    have hnone : piece.component.isNone = true :=
      List.dropWhile_eq_nil_iff.1 hdrop piece (by simp)
    simp_all
  obtain ⟨first, kept, hfirst⟩ := List.exists_cons_of_ne_nil hne
  have hpre := hfirst ▸ prefix_trimEnd (piece :: rest)
  rw [List.cons_prefix_cons] at hpre
  exact ⟨kept, by rw [hfirst, hpre.1]⟩

theorem component_ne_root {piece : List Char} : component? piece ≠ some .root := by
  unfold component?
  split
  · simp
  · split <;> simp

theorem steps_of_isAbsolute {path : Path} (h : path.isAbsolute = true) :
    ∃ rest, path.steps = ⟨[], some .root⟩ :: rest ∧ ∀ piece ∈ rest, piece.component ≠ some .root := by
  obtain ⟨rest, htext⟩ : ∃ rest, path.text.toList = '/' :: rest := by
    cases hlist : path.text.toList with
    | nil => simp [isAbsolute, hlist] at h
    | cons c rest =>
        obtain rfl : c = '/' := by simpa [isAbsolute, hlist] using h
        exact ⟨rest, rfl⟩
  refine ⟨(pieces rest).map fun piece => ⟨piece, component? piece⟩, ?_, ?_⟩
  · simp [steps, htext, h, firstComponent?]
  · simp only [List.mem_map, forall_exists_index, and_imp]
    rintro _ piece - rfl
    exact component_ne_root

theorem steps_of_relative {path : Path} (h : path.isAbsolute = false) (hne : path.text ≠ "") :
    ∃ first rest, path.steps = first :: rest ∧ (∃ c text, first.text = c :: text ∧ c ≠ '/')
      ∧ ∀ piece ∈ first :: rest, piece.component ≠ some .root := by
  obtain ⟨c, text, htext⟩ := List.exists_cons_of_ne_nil (by simpa using hne : path.text.toList ≠ [])
  have hc : c ≠ '/' := by rintro rfl; simp [isAbsolute, htext] at h
  obtain ⟨piece, more, -, hpieces⟩ := pieces_cons_of_ne hc text
  refine ⟨⟨c :: piece, firstComponent? false (c :: piece)⟩,
    more.map fun piece => ⟨piece, component? piece⟩, ?_, ⟨c, piece, rfl, hc⟩, ?_⟩
  · simp [steps, htext, hpieces, h]
  · simp only [List.mem_cons, List.mem_map, forall_eq_or_imp, forall_exists_index, and_imp]
    refine ⟨?_, ?_⟩
    · simp only [firstComponent?, Bool.false_eq_true, if_false]
      split
      · simp
      · exact component_ne_root
    · rintro _ piece - rfl
      exact component_ne_root

/-- A parent is made of the first pieces of a path, and starts at the root if the path does. -/
theorem exists_pieces_parent {path parent : Path} (h : path.parent? = some parent) :
    ∃ front, front <+: path.steps ∧ parent = ofPieces front
      ∧ parent.isAbsolute = path.isAbsolute := by
  unfold parent? at h
  simp only at h
  split at h
  · simp at h
  · simp at h
  next last hroot hlast =>
      obtain rfl := (Option.some.inj h).symm
      refine ⟨_, (prefix_trimEnd _).trans ((List.dropLast_prefix _).trans (prefix_trimEnd _)), rfl, ?_⟩
      cases habs : path.isAbsolute with
      | true =>
          obtain ⟨rest, hsteps, -⟩ := steps_of_isAbsolute habs
          obtain ⟨kept, hkept⟩ : ∃ kept, trimEnd (⟨[], some .root⟩ :: rest) = ⟨[], some .root⟩ :: kept :=
            trimEnd_cons rfl
          rw [hsteps, hkept] at hlast ⊢
          cases kept with
          | nil => exact absurd (Option.some.inj hlast).symm (hroot [])
          | cons next more =>
              obtain ⟨front, hfront⟩ : ∃ front, trimEnd (⟨[], some .root⟩ :: (next :: more).dropLast)
                  = ⟨[], some .root⟩ :: front := trimEnd_cons rfl
              rw [List.dropLast_cons_cons, hfront]
              cases front with
              | nil => rfl
              | cons _ _ => simp [ofPieces, isAbsolute, String.toList_intercalate, List.intercalate]
      | false =>
          have hne : path.text ≠ "" := by
            rintro hempty
            simp [steps, hempty, habs, firstComponent?, component?, trimEnd] at hlast
          obtain ⟨first, rest, hsteps, ⟨c, text, htext, hc⟩, hroots⟩ := steps_of_relative habs hne
          have hpre := (prefix_trimEnd _).trans
            ((List.dropLast_prefix _).trans (prefix_trimEnd path.steps))
          rw [hsteps] at hpre ⊢
          cases hfront : trimEnd (trimEnd (first :: rest)).dropLast with
          | nil => rfl
          | cons piece more =>
              rw [hfront, List.cons_prefix_cons] at hpre
              obtain ⟨rfl, -⟩ := hpre
              unfold ofPieces
              split
              next text' heq => simp_all
              · cases more <;>
                  simp [isAbsolute, String.toList_intercalate, List.intercalate, htext, hc]

theorem not_mem_of_mem_steps {path : Path} {piece : Piece} (h : piece ∈ path.steps) : '/' ∉ piece.text :=
  not_mem_of_mem_pieces (map_text_steps path ▸ List.mem_map_of_mem h)

/-- The root is the empty piece in front of the first slash. -/
theorem text_of_root {path : Path} {piece : Piece} (h : piece ∈ path.steps) (hroot : piece.component = some .root) :
    piece.text = [] := by
  cases habs : path.isAbsolute with
  | true =>
      obtain ⟨rest, hsteps, hrest⟩ := steps_of_isAbsolute habs
      rw [hsteps] at h
      rcases List.mem_cons.1 h with rfl | hmem
      · rfl
      · exact absurd hroot (hrest piece hmem)
  | false =>
      by_cases hne : path.text = ""
      · simp_all [steps, firstComponent?, component?]
      · obtain ⟨first, rest, hsteps, -, hroots⟩ := steps_of_relative habs hne
        exact absurd hroot (hroots piece (hsteps ▸ h))

/-- The names in the path of the first pieces of another one. -/
theorem namesOf_front {path : Path} {front : List Piece} (h : front <+: path.steps) :
    namesOf (ofPieces front).text = FileSystem.nonEmpty (front.map (·.text)) :=
  namesOf_ofPieces (fun _ hmem => not_mem_of_mem_steps (h.subset hmem)) fun _ hmem => text_of_root (h.subset hmem)

theorem namesOf_eq_steps (path : Path) : namesOf path.text = FileSystem.nonEmpty (path.steps.map (·.text)) := by
  rw [FileSystem.namesOf_eq, map_text_steps]

/-- Going to the parent leaves a prefix of the names. -/
theorem namesOf_parent {path parent : Path} (h : path.parent? = some parent) :
    namesOf parent.text <+: namesOf path.text := by
  obtain ⟨front, hfront, rfl, -⟩ := exists_pieces_parent h
  rw [namesOf_front hfront, namesOf_eq_steps]
  exact ((hfront.map _).filter _).map _

/-- A piece that counts has a text, unless it stands for the root. -/
theorem text_ne_of_mem_steps {path : Path} {piece : Piece} (h : piece ∈ path.steps)
    (hsome : piece.component.isSome) (hroot : piece.component ≠ some .root) : piece.text ≠ [] := by
  unfold steps at h
  split at h
  · cases h
  next first rest _ =>
      rcases List.mem_cons.1 h with rfl | hmem
      · rintro (rfl : first = [])
        cases habs : path.isAbsolute <;> simp_all [firstComponent?, component?]
      · obtain ⟨text, -, rfl⟩ := List.mem_map.1 hmem
        rintro (rfl : text = [])
        simp [component?] at hsome

theorem getLast?_pieces {text : String} (h : FileSystem.endsInSlash text = true) :
    (pieces text.toList).getLast? = some [] := by
  obtain ⟨front, hfront⟩ := List.getLast?_eq_some_iff.1 (by simpa [FileSystem.endsInSlash] using h)
  rw [hfront, pieces_append_slash, pieces_nil, List.getLast?_concat]

/-- What is left by trimming ends in a piece that counts. -/
theorem isSome_of_getLast?_trimEnd {pieces : List Piece} {piece : Piece}
    (h : (trimEnd pieces).getLast? = some piece) : piece.component.isSome := by
  rw [trimEnd, List.getLast?_reverse] at h
  have hhead := List.head?_dropWhile_not (fun piece : Piece => piece.component.isNone) pieces.reverse
  rw [h] at hhead
  simpa [Option.not_isNone] using hhead

/-- Only the first piece of a path stands for the root. -/
theorem component_ne_root_of_mem_tail {path : Path} {piece : Piece} (h : piece ∈ path.steps.tail) :
    piece.component ≠ some .root := by
  unfold steps at h
  split at h
  · cases h
  · obtain ⟨text, -, rfl⟩ := List.mem_map.1 h
    exact component_ne_root

/-- A path does not end in a slash, unless it is the root. -/
def Trimmed (path : Path) : Prop := FileSystem.endsInSlash path.text = true → path.text = "/"

/-- Parents are trimmed. -/
theorem trimmed_parent {path parent : Path} (h : path.parent? = some parent) : parent.Trimmed := by
  intro hslash
  unfold parent? at h
  simp only at h
  split at h
  · simp at h
  · simp at h
  · have hpre : trimEnd (trimEnd path.steps).dropLast <+: path.steps :=
      (prefix_trimEnd _).trans ((List.dropLast_prefix _).trans (prefix_trimEnd _))
    obtain rfl := (Option.some.inj h).symm
    generalize hfront : trimEnd (trimEnd path.steps).dropLast = front at hpre hslash
    rcases List.eq_nil_or_concat front with rfl | ⟨first, last, rfl⟩
    · simp [ofPieces, FileSystem.endsInSlash] at hslash
    · rw [List.concat_eq_append] at hfront hpre hslash ⊢
      by_cases halone : ∃ text, first ++ [last] = [⟨text, some .root⟩]
      · obtain ⟨text, htext⟩ := halone
        rw [htext, ofPieces]
      · -- The last piece counts, so the text does not end behind a slash.
        have hmem : last ∈ path.steps := hpre.subset (by simp)
        have hnotRoot : last.component ≠ some .root := by
          intro hroot
          cases first with
          | nil => exact halone ⟨last.text, by rw [List.nil_append, ← hroot]⟩
          | cons piece rest =>
              obtain ⟨more, hmore⟩ := hpre
              have htail : last ∈ path.steps.tail := by simp [← hmore]
              exact component_ne_root_of_mem_tail htail hroot
        have hsome : last.component.isSome := isSome_of_getLast?_trimEnd (by rw [hfront]; simp)
        have hne := text_ne_of_mem_steps hmem hsome hnotRoot
        have hnoSlash : ∀ piece ∈ first ++ [last], '/' ∉ piece.text := fun piece hpiece =>
          not_mem_of_mem_steps (hpre.subset hpiece)
        have hcut := pieces_ofPieces (by simp) hnoSlash fun text htext => halone ⟨text, htext⟩
        have hlast := getLast?_pieces hslash
        rw [hcut] at hlast
        exact absurd (by simpa using hlast) hne

end Path

/-- Going to the parent leaves a prefix of the names that a path is followed through. -/
theorem FileSystem.namesTo_parent (fs : FileSystem) {path parent : Path}
    (h : path.parent? = some parent) : fs.namesTo parent <+: fs.namesTo path := by
  obtain ⟨_, -, -, habs⟩ := exists_pieces_parent h
  cases hpath : path.isAbsolute with
  | true =>
      rw [namesTo_of_isAbsolute fs hpath, namesTo_of_isAbsolute fs (habs.trans hpath)]
      exact namesOf_parent h
  | false =>
      obtain ⟨before, hbefore⟩ := fs.exists_namesTo_eq
      rw [hbefore _ hpath, hbefore _ (habs.trans hpath), List.prefix_append_right_inj]
      exact namesOf_parent h

end ModPackager
