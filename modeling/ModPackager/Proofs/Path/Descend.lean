import ModPackager.Proofs.FileSystem.Shorter
import ModPackager.Proofs.Path.Order

/-!
# Going down through names

A path is gone down from name by name (`Path.descend`). The components, the characters and the order of what is come to
are told by the names, wherever they start from, and so is what is left of it behind the start
(`exists_stripPrefix?_descend`). An empty name is one as well: it leaves a slash at the end.
-/

namespace ModPackager

open FileSystem (namesOf endsInSlash)

namespace Path

variable {base other path : Path} {name : String} {names : List String} {c : Char}

/-- The path behind some more names. -/
def descend (path : Path) (names : List String) : Path := names.foldl Path.child path

theorem descend_cons (base : Path) (name : String) (names : List String) :
    base.descend (name :: names) = (base.child name).descend names := rfl

theorem descend_concat (path : Path) (names : List String) (name : String) :
    path.descend (names ++ [name]) = (path.descend names).child name := List.foldl_concat ..

theorem descend_append (base : Path) (names more : List String) :
    base.descend (names ++ more) = (base.descend names).descend more := List.foldl_append ..

theorem child_eq (hpath : path.text ≠ "") (hslash : '/' ∉ name.toList) : (path.child name).text
    = if endsInSlash path.text = true then path.text ++ name else path.text ++ "/" ++ name := by
  rw [child, join, isAbsolute_name hslash]
  simp only [Bool.false_or, String.isEmpty_iff, hpath, if_false, endsInSlash]
  exact apply_ite Path.text _ _ _

theorem text_child_ne_of_ne (hpath : path.text ≠ "") (hslash : '/' ∉ name.toList) : (path.child name).text ≠ "" :=
  text_join_ne hpath (isAbsolute_name hslash)

theorem endsInSlash_child_eq (hpath : path.text ≠ "") (hslash : '/' ∉ name.toList) :
    endsInSlash (path.child name).text = decide (name = "") := by
  by_cases hname : name = ""
  · rw [endsInSlash, child_eq hpath hslash, hname, decide_eq_true rfl]
    split
    next hends => simpa [endsInSlash] using hends
    · simp
  · rw [FileSystem.endsInSlash_child hname hslash, decide_eq_false hname]

/-- Going down through names makes a path longer by at least one byte each. -/
theorem size_add_length_le (base : Path) (hnames : ∀ name ∈ names, name ≠ "" ∧ '/' ∉ name.toList) :
    base.text.utf8ByteSize + names.length ≤ (base.descend names).text.utf8ByteSize := by
  induction names generalizing base with
  | nil => exact le_rfl
  | cons name names ih =>
      rw [List.forall_mem_cons] at hnames
      obtain ⟨⟨hne, hslash⟩, hrest⟩ := hnames
      obtain ⟨front, hfront, hchild⟩ := base.exists_text_join
      have htext : (base.child name).text = front ++ name := hchild _ (isAbsolute_name hslash)
      have hlong := ih (base.child name) hrest
      have hbase := FileSystem.utf8ByteSize_le_of_sublist hfront
      have hname : name.utf8ByteSize ≠ 0 := fun hzero => hne (String.utf8ByteSize_eq_zero_iff.1 hzero)
      rw [htext, String.utf8ByteSize_append] at hlong
      rw [descend_cons, List.length_cons]
      omega

theorem mem_text_child (hpath : path.text ≠ "") (hslash : '/' ∉ name.toList) (hc : c ≠ '/') :
    c ∈ (path.child name).text.toList ↔ c ∈ path.text.toList ∨ c ∈ name.toList := by
  rw [child_eq hpath hslash]
  split <;> simp [hc]

section Descend

variable (hbase : base.text ≠ "") (hslash : ∀ name ∈ names, '/' ∉ name.toList)

include hbase hslash

theorem descend_text_ne : (base.descend names).text ≠ "" := by
  induction names generalizing base with
  | nil => exact hbase
  | cons name names ih =>
      rw [List.forall_mem_cons] at hslash
      exact ih (text_child_ne_of_ne hbase hslash.1) hslash.2

theorem mem_text_descend (hc : c ≠ '/') : c ∈ (base.descend names).text.toList
    ↔ c ∈ base.text.toList ∨ ∃ name ∈ names, c ∈ name.toList := by
  induction names generalizing base with
  | nil => simp [descend]
  | cons name names ih =>
      rw [List.forall_mem_cons] at hslash
      rw [descend_cons, ih (text_child_ne_of_ne hbase hslash.1) hslash.2, mem_text_child hbase hslash.1 hc,
        List.exists_mem_cons_iff, or_assoc]

theorem components_descend : (base.descend names).components
    = base.components ++ names.filterMap fun name => component? name.toList := by
  induction names generalizing base with
  | nil => simp [descend]
  | cons name names ih =>
      rw [List.forall_mem_cons] at hslash
      rw [descend_cons, ih (text_child_ne_of_ne hbase hslash.1) hslash.2, components_child hbase hslash.1,
        List.filterMap_cons, List.append_assoc]
      cases component? name.toList <;> rfl

theorem isAbsolute_descend : (base.descend names).isAbsolute = base.isAbsolute := by
  induction names generalizing base with
  | nil => rfl
  | cons name names ih =>
      rw [List.forall_mem_cons] at hslash
      rw [descend_cons, ih (text_child_ne_of_ne hbase hslash.1) hslash.2]
      exact isAbsolute_join hbase (isAbsolute_name hslash.1)

end Descend

theorem stepsBefore_append (front as bs : List Component) : stepsBefore (front ++ as) (front ++ bs) = stepsBefore as bs := by
  induction front with
  | nil => rfl
  | cons step front ih => rw [List.cons_append, List.cons_append, stepsBefore, if_pos rfl, ih]

/-- Two entries of a directory come in the same order in every one. -/
theorem before_descend (hbase : base.text ≠ "") (hother : other.text ≠ "") {more : List String}
    (hslash : ∀ name ∈ names, '/' ∉ name.toList) (hmore : ∀ name ∈ more, '/' ∉ name.toList) :
    (base.descend names).before (base.descend more) = (other.descend names).before (other.descend more) := by
  rw [before, before, components_descend hbase hslash, components_descend hbase hmore, components_descend hother hslash,
    components_descend hother hmore, stepsBefore_append, stepsBefore_append]

/-- Going down through the pieces of a text puts no more behind a path than the text and a slash in front of it. -/
theorem sublist_descend_pieces (hbase : base.text ≠ "") (text : List Char) :
    (base.descend ((pieces text).map String.ofList)).text.toList.Sublist
      ((if endsInSlash base.text = true then base.text.toList else base.text.toList ++ ['/']) ++ text) := by
  have hchild : ∀ {base : Path} {piece : List Char}, base.text ≠ "" → '/' ∉ piece →
      (base.child (String.ofList piece)).text.toList
        = (if endsInSlash base.text = true then base.text.toList else base.text.toList ++ ['/']) ++ piece := by
    intro base piece hbase hpiece
    rw [child_eq hbase (by simpa using hpiece)]
    split <;> simp
  induction hlength : text.length using Nat.strongRecOn generalizing base text with
  | ind length ih =>
      by_cases hslash : '/' ∈ text
      · obtain ⟨piece, rest, rfl, hpiece⟩ := List.eq_append_cons_of_mem hslash
        have hname : '/' ∉ (String.ofList piece).toList := by simpa using hpiece
        have hrest := ih rest.length (by simp only [List.length_append, List.length_cons] at hlength; omega)
          (text_child_ne_of_ne hbase hname) rest rfl
        rw [pieces_append_slash, pieces_of_not_mem hpiece, List.singleton_append, List.map_cons, descend_cons]
        refine hrest.trans ?_
        rw [hchild hbase hpiece]
        split <;> simp
      · rw [pieces_of_not_mem hslash, List.map_singleton, descend_cons, descend, List.foldl_nil, hchild hbase hslash]

/-! ### Relative paths -/

/-- The pieces of a path in front of those of an entry. -/
def trunk (path : Path) : List Piece := if endsInSlash path.text = true then path.steps.dropLast else path.steps

theorem steps_eq {first : List Char} {rest : List (List Char)} (h : pieces path.text.toList = first :: rest) :
    path.steps = ⟨first, firstComponent? path.isAbsolute first⟩ :: rest.map fun piece => ⟨piece, component? piece⟩ := by
  unfold steps
  rw [h]

theorem steps_child (hpath : path.text ≠ "") (hslash : '/' ∉ name.toList) :
    (path.child name).steps = path.trunk ++ [⟨name.toList, component? name.toList⟩] := by
  have habsolute := isAbsolute_join hpath (isAbsolute_name hslash)
  rw [← child] at habsolute
  obtain ⟨first, rest, hpieces⟩ := List.exists_cons_of_ne_nil (pieces_ne_nil path.text.toList)
  have htext := child_eq hpath hslash
  rw [trunk]
  split at htext
  next hends =>
      obtain ⟨front, hfront⟩ := List.getLast?_eq_some_iff.1 (by simpa [endsInSlash] using hends)
      obtain ⟨first', known, hknown⟩ := List.exists_cons_of_ne_nil (pieces_ne_nil front)
      rw [hfront, pieces_append_slash, pieces_nil, hknown, List.cons_append, List.cons.injEq] at hpieces
      obtain ⟨rfl, rfl⟩ := hpieces
      have hchild : pieces (path.child name).text.toList = first' :: (known ++ [name.toList]) := by
        rw [htext, String.toList_append, hfront, List.append_assoc, List.singleton_append, pieces_append_slash, hknown,
          pieces_of_not_mem hslash, List.cons_append]
      have hpath : pieces path.text.toList = first' :: (known ++ [[]]) := by
        rw [hfront, pieces_append_slash, hknown, pieces_nil, List.cons_append]
      rw [if_pos hends, steps_eq hchild, steps_eq hpath, habsolute, List.map_append, List.map_append, List.map_singleton,
        List.map_singleton, ← List.cons_append, ← List.cons_append, List.dropLast_concat]
  next hends =>
      have hchild : pieces (path.child name).text.toList = first :: (rest ++ [name.toList]) := by
        have hlist : (path.text ++ "/" ++ name).toList = path.text.toList ++ '/' :: name.toList := by simp
        rw [htext, hlist, pieces_append_slash, hpieces, pieces_of_not_mem hslash, List.cons_append]
      rw [if_neg hends, steps_eq hchild, steps_eq hpieces, habsolute, List.map_append, List.map_singleton,
        List.cons_append]

/-- The pieces of the names behind those of a path are the same below every path. -/
theorem exists_steps_descend (hnames : names ≠ []) (hslash : ∀ name ∈ names, '/' ∉ name.toList) :
    ∃ pieces : List Piece, pieces ≠ [] ∧ ∀ base : Path, base.text ≠ "" →
      (base.descend names).steps = base.trunk ++ pieces := by
  induction names using List.reverseRecOn with
  | nil => exact absurd rfl hnames
  | append_singleton front name ih =>
      rw [List.forall_mem_append, List.forall_mem_singleton] at hslash
      obtain ⟨hfront, hname⟩ := hslash
      by_cases hnil : front = []
      · subst hnil
        exact ⟨_, List.cons_ne_nil _ _, fun base hbase => steps_child hbase hname⟩
      · obtain ⟨before, last, rfl⟩ : ∃ before last, front = before ++ [last] :=
          ⟨_, _, (List.dropLast_append_getLast hnil).symm⟩
        obtain ⟨pieces, hne, hpieces⟩ := ih hnil hfront
        rw [List.forall_mem_append, List.forall_mem_singleton] at hfront
        refine ⟨(if last = "" then pieces.dropLast else pieces) ++ [⟨name.toList, component? name.toList⟩], by simp,
          fun base hbase => ?_⟩
        have hbefore := descend_text_ne hbase hfront.1
        have hthere := text_child_ne_of_ne hbefore hfront.2
        rw [← descend_concat] at hthere
        have hends : endsInSlash (base.descend (before ++ [last])).text = decide (last = "") := by
          rw [descend_concat, endsInSlash_child_eq hbefore hfront.2]
        rw [descend_concat, steps_child hthere hname, trunk, hends, hpieces base hbase, ← List.append_assoc]
        by_cases hlast : last = ""
        · simp [hlast, List.dropLast_append_of_ne_nil hne]
        · simp [hlast]

/-- Dropping as many components as some pieces have leaves nothing of them that counts. -/
theorem exists_dropComponents_append (front pieces : List Piece) : ∃ rest : List Piece,
    (∀ piece ∈ rest, piece.component.isNone = true)
      ∧ dropComponents (front.filterMap (·.component)).length (front ++ pieces) = rest ++ pieces := by
  induction front with
  | nil => exact ⟨[], by simp, by simp [dropComponents]⟩
  | cons piece front ih =>
      obtain ⟨rest, hrest, hdrop⟩ := ih
      cases hpiece : piece.component with
      | some component =>
          refine ⟨rest, hrest, ?_⟩
          simpa [hpiece, dropComponents] using hdrop
      | none =>
          simp only [List.filterMap_cons, hpiece]
          rcases hcount : (front.filterMap (·.component)).length with _ | count
          · refine ⟨piece :: front, ?_, by rw [hcount, dropComponents]⟩
            rw [List.forall_mem_cons, hpiece]
            refine ⟨rfl, fun other hother => ?_⟩
            rw [List.length_eq_zero_iff, List.filterMap_eq_nil_iff] at hcount
            rw [hcount other hother, Option.isNone_none]
          · refine ⟨rest, hrest, ?_⟩
            rw [hcount] at hdrop ⊢
            simpa [hpiece, dropComponents] using hdrop

theorem filterMap_trunk (path : Path) : path.trunk.filterMap (·.component) = path.components := by
  rw [trunk, components]
  split
  next hends =>
      obtain ⟨front, hfront⟩ := List.getLast?_eq_some_iff.1 (by simpa [endsInSlash] using hends)
      obtain ⟨first, known, hknown⟩ := List.exists_cons_of_ne_nil (pieces_ne_nil front)
      have hpieces : pieces path.text.toList = first :: (known ++ [[]]) := by
        rw [hfront, pieces_append_slash, hknown, pieces_nil, List.cons_append]
      have hempty : component? [] = none := rfl
      rw [steps_eq hpieces, List.map_append, List.map_singleton, hempty, ← List.cons_append, List.dropLast_concat,
        List.filterMap_append]
      simp
  · rfl

/-- What follows a directory in a path below it is told by the names below it. -/
theorem exists_stripPrefix?_descend (hnames : names ≠ []) (hslash : ∀ name ∈ names, '/' ∉ name.toList) :
    ∃ relative, ∀ base start : Path, base.isAbsolute = true → start.components = base.components →
      (base.descend names).stripPrefix? start = some relative := by
  obtain ⟨pieces, -, hpieces⟩ := exists_steps_descend hnames hslash
  refine ⟨ofPieces (trimEnd (pieces.dropWhile (·.component.isNone))), fun base start habsolute hstart => ?_⟩
  have hbase : base.text ≠ "" := by
    intro hempty
    simp [isAbsolute, hempty] at habsolute
  have hpre : start.components.isPrefixOf (base.descend names).components = true := by
    rw [List.isPrefixOf_iff_prefix, hstart, components_descend hbase hslash]
    exact List.prefix_append _ _
  obtain ⟨rest, hrest, hdrop⟩ := exists_dropComponents_append base.trunk pieces
  rw [filterMap_trunk] at hdrop
  rw [stripPrefix?, startsWith, if_pos hpre]
  simp only [hstart, hpieces base hbase, hdrop,
    List.dropWhile_append_of_pos hrest]

end Path

end ModPackager
