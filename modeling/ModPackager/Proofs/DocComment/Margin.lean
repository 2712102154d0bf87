import Mathlib.Logic.Relation
import ModPackager.Proofs.DocComment.Reading

/-!
# The layout of a comment does not matter

A comment can be laid out in many ways that say the same: its lines may be indented otherwise, have stars in
front or not, and end with or without a carriage return. No single change of that kind alters what counts of a
line (`Relaid.seen_eq`), so no sequence of them does (`seen_of_eqvGen`), and comments with the same lines up to
such changes have the same tags (`parse_relaid`).
-/

namespace ModPackager.DocComment

open Text

variable {line line' : List Char}

/-! ### Changes of layout -/

/-- A change in the layout of one line. The line comes without its line feed, so all whitespace that is put in
front of it is free of line feeds. -/
inductive Relaid : List Char → List Char → Prop
  /-- The whitespace in front of the line is exchanged. -/
  | margin (old new line : List Char) (hold : ∀ c ∈ old, isBlank c = true) (hnew : ∀ c ∈ new, isBlank c = true) :
      Relaid (old ++ line) (new ++ line)
  /-- A line without a star in front gets one, anywhere in its margin. In the other direction, a star is removed
  behind which no other one comes first. -/
  | gutter (margin line : List Char) (hmargin : ∀ c ∈ margin, isBlank c = true)
      (hline : (trimStart line).head? ≠ some '*') : Relaid (margin ++ line) (margin ++ '*' :: line)
  /-- A carriage return is put in front of the line feed that ends the line. -/
  | ending (line : List Char) : Relaid line (line ++ ['\r'])

/-- The same lines up to changes of their layout, any number of them and in either direction. -/
def SameLines (text text' : String) : Prop :=
  List.Forall₂ (Relation.EqvGen Relaid) (piecesAt '\n' text.toList) (piecesAt '\n' text'.toList)

/-! ### What they leave alone -/

/-- One change leaves what counts of a line. -/
theorem Relaid.seen_eq (h : Relaid line line') : seen line = seen line' := by
  cases h with
  | margin old new line hold hnew => rw [seen_margin hold, seen_margin hnew]
  | gutter margin line hmargin hline => rw [seen_margin hmargin, seen_margin hmargin, seen_star hline]
  | ending line => rw [seen_return]

/-- Any number of changes does. -/
theorem seen_of_eqvGen (h : Relation.EqvGen Relaid line line') : seen line = seen line' := by
  induction h with
  | rel _ _ h => exact h.seen_eq
  | refl => rfl
  | symm _ _ _ ih => exact ih.symm
  | trans _ _ _ _ _ ih ih' => exact ih.trans ih'

/-- Comments whose lines are the same up to the whitespace in front, a star behind it, and carriage returns at
their ends have the same tags. -/
theorem parse_relaid {text text' : String} (h : SameLines text text') : parse ("*" ++ text) = parse ("*" ++ text') := by
  have hlines : List.Forall₂ (fun line line' => seen line = seen line') (piecesAt '\n' text.toList)
      (piecesAt '\n' text'.toList) := h.imp fun _ _ => seen_of_eqvGen
  rw [parse_star, parse_star, readLines_congr hlines rfl]

/-- A block with stars and the same block without most of them, indented otherwise and with other line endings.
The star in front of `* b` has to stay, because another one comes behind it. -/
theorem parse_relaid_tabbed :
    SameLines "\n * @a x\n *   y @b\n * * b\n " "\r\n\t@a x\r\ny @b\n\t* * b\r\n"
      ∧ parse "*\n * @a x\n *   y @b\n * * b\n " = [⟨"a", "x\ny"⟩, ⟨"b", "* b"⟩]
      ∧ parse "*\r\n\t@a x\r\ny @b\n\t* * b\r\n" = [⟨"a", "x\ny"⟩, ⟨"b", "* b"⟩] := by
  have hblanks {margin : List Char} (h : margin.all isBlank = true) : ∀ c ∈ margin, isBlank c = true :=
    List.all_eq_true.1 h
  have hopener : Relation.EqvGen Relaid " * @a x".toList "\t@a x\r".toList := by
    have hstar : Relaid "  @a x".toList " * @a x".toList := .gutter [' '] " @a x".toList (hblanks rfl) (by decide)
    have hindent : Relaid "  @a x".toList "\t@a x".toList :=
      .margin [' ', ' '] ['\t'] "@a x".toList (hblanks rfl) (hblanks rfl)
    exact .trans _ _ _ (.symm _ _ (.rel _ _ hstar)) (.trans _ _ _ (.rel _ _ hindent) (.rel _ _ (.ending _)))
  have hmore : Relation.EqvGen Relaid " *   y @b".toList "y @b".toList := by
    have hstar : Relaid "    y @b".toList " *   y @b".toList :=
      .gutter [' '] "   y @b".toList (hblanks rfl) (by decide)
    have hindent : Relaid "    y @b".toList "y @b".toList :=
      .margin "    ".toList [] "y @b".toList (hblanks rfl) (hblanks rfl)
    exact .trans _ _ _ (.symm _ _ (.rel _ _ hstar)) (.rel _ _ hindent)
  have hstarred : Relation.EqvGen Relaid " * * b".toList "\t* * b\r".toList := by
    have hindent : Relaid " * * b".toList "\t* * b".toList :=
      .margin [' '] ['\t'] "* * b".toList (hblanks rfl) (hblanks rfl)
    exact .trans _ _ _ (.rel _ _ hindent) (.rel _ _ (.ending _))
  have hblank : Relation.EqvGen Relaid [' '] [] := .rel _ _ (.margin [' '] [] [] (hblanks rfl) (hblanks rfl))
  have hsame : SameLines "\n * @a x\n *   y @b\n * * b\n " "\r\n\t@a x\r\ny @b\n\t* * b\r\n" :=
    .cons (.rel _ _ (.ending _)) (.cons hopener (.cons hmore (.cons hstarred (.cons hblank .nil))))
  have hstarry : parse "*\n * @a x\n *   y @b\n * * b\n " = [⟨"a", "x\ny"⟩, ⟨"b", "* b"⟩] := by decide +kernel
  exact ⟨hsame, hstarry, (parse_relaid hsame).symm.trans hstarry⟩

end ModPackager.DocComment
