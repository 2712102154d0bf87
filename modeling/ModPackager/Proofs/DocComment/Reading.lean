import ModPackager.Proofs.DocComment.Opening

/-!
# What counts of a line

Closing a tag trims its lines and the whole text. So nothing counts of a line but what it is cut into, up to
whitespace around the texts (`seen`), and lines that are seen alike may stand for each other whatever tag is
open (`readLines_congr`). Such lines are a line and the same line with more whitespace in front of it
(`seen_margin`), with a star in front of it (`seen_star`), or with a carriage return behind it
(`seen_return`). An empty line at the end of a comment adds nothing. Hence it does not matter for the tags
that carriage returns and the last line feed belong to line endings: a comment may be cut at its line feeds
alone (`parse_star`).
-/

namespace ModPackager.DocComment

open Text

variable {c : Char} {line line' before margin text : List Char} {rest rest' lines lines' : List (List Char)}
  {init : List (List Char × List Char)} {last : List Char × List Char} {current current' : Option OpenTag}

/-! ### Open tags -/

namespace OpenTag

/-- An open tag with its lines trimmed as closing trims them. -/
def trimmed (tag : OpenTag) : OpenTag := ⟨tag.name, tag.lines.map trim⟩

@[simp]
theorem close_trimmed (tag : OpenTag) : tag.trimmed.close = tag.close := by
  simp [close, trimmed, Function.comp_def, trim_idem]

@[simp]
theorem trimmed_addLine (tag : OpenTag) (line : List Char) :
    (tag.addLine line).trimmed = tag.trimmed.addLine (trim line) := by
  simp [addLine, trimmed]

@[simp]
theorem trimmed_ofPiece (piece : List Char × List Char) :
    (ofPiece piece).trimmed = ofPiece (piece.1, trim piece.2) := by
  simp [ofPiece, trimmed]

/-- A blank line at the end of a tag's text is trimmed away. -/
theorem close_addLine (tag : OpenTag) (h : trim line = []) : (tag.addLine line).close = tag.close := by
  have hlines : (tag.addLine line).lines.map trim = tag.lines.map trim ++ [[]] := by simp [addLine, h]
  rw [close, close, hlines]
  by_cases hempty : tag.lines = []
  · simp [hempty, addLine]
  · rw [join_concat (by simpa using hempty), trim_concat (by decide)]
    rfl

/-- Open tags that agree up to the trimming of their lines are closed alike. -/
theorem map_close_congr (h : current.map trimmed = current'.map trimmed) :
    current.map close = current'.map close := by
  have hclose : close ∘ trimmed = close := funext close_trimmed
  rw [← hclose, ← Option.map_map, h, Option.map_map]

end OpenTag

/-! ### One line -/

/-- A line in which no tag opens goes on with the tag that is open. -/
theorem readLines_untagged (hcut : cutLine (dropMargin line) = (before, [])) :
    readLines current (line :: rest) = readLines (current.map (·.addLine before)) rest := by
  simp only [readLines, hcut, List.getLast?_nil]

/-- A line in which tags open closes the tag that is open and all of its own but the last one. -/
theorem readLines_tagged (hcut : cutLine (dropMargin line) = (before, init ++ [last])) :
    readLines current (line :: rest) =
      ((current.map (·.addLine before)).map OpenTag.close).toList
        ++ init.map (fun piece => (OpenTag.ofPiece piece).close) ++ readLines (some (OpenTag.ofPiece last)) rest := by
  simp only [readLines, hcut, List.getLast?_concat, List.dropLast_concat]

/-! ### Lines that are seen alike -/

/-- A piece of a line with the whitespace around its text trimmed away. -/
def trimPiece (piece : List Char × List Char) : List Char × List Char := (piece.1, trim piece.2)

/-- A cut line with the whitespace around its texts trimmed away. -/
def trimCut (cut : List Char × List (List Char × List Char)) : List Char × List (List Char × List Char) :=
  (trim cut.1, cut.2.map trimPiece)

/-- What counts of a line. -/
def seen (line : List Char) : List Char × List (List Char × List Char) := trimCut (cutLine (dropMargin line))

/-- Pieces that agree up to trimming are closed alike. -/
theorem map_close_pieces_congr {pieces pieces' : List (List Char × List Char)}
    (h : pieces.map trimPiece = pieces'.map trimPiece) :
    pieces.map (fun piece => (OpenTag.ofPiece piece).close)
      = pieces'.map fun piece => (OpenTag.ofPiece piece).close := by
  have hclose : (fun piece => (OpenTag.ofPiece piece).close) ∘ trimPiece
      = fun piece => (OpenTag.ofPiece piece).close := by
    funext piece
    rw [Function.comp_apply, trimPiece, ← OpenTag.trimmed_ofPiece, OpenTag.close_trimmed]
  rw [← hclose, ← List.map_map, h, List.map_map]

/-- Lines that are seen alike give the same tags, line by line. The tag that is open is carried along: its lines
need to agree up to trimming only, which is what each line keeps. -/
theorem readLines_congr (hlines : List.Forall₂ (fun line line' => seen line = seen line') lines lines')
    (hcurrent : current.map OpenTag.trimmed = current'.map OpenTag.trimmed) :
    readLines current lines = readLines current' lines' := by
  induction hlines generalizing current current' with
  | nil => rw [readLines, readLines, OpenTag.map_close_congr hcurrent]
  | @cons line line' lines lines' hline _ ih =>
      rcases hcut : cutLine (dropMargin line) with ⟨before, pieces⟩
      rcases hcut' : cutLine (dropMargin line') with ⟨before', pieces'⟩
      rw [seen, seen, hcut, hcut'] at hline
      obtain ⟨hbefore, hpieces⟩ : trim before = trim before' ∧ pieces.map trimPiece = pieces'.map trimPiece :=
        Prod.mk.inj hline
      have hadded : (current.map (·.addLine before)).map OpenTag.trimmed
          = (current'.map (·.addLine before')).map OpenTag.trimmed := by
        have htrim (before : List Char) :
            OpenTag.trimmed ∘ (·.addLine before) = (·.addLine (trim before)) ∘ OpenTag.trimmed :=
          funext fun tag => OpenTag.trimmed_addLine tag before
        rw [Option.map_map, Option.map_map, htrim, htrim, ← Option.map_map, ← Option.map_map, hcurrent, hbefore]
      -- Both lines open a tag, or neither does.
      rcases List.eq_nil_or_concat' pieces with rfl | ⟨init, last, rfl⟩ <;>
        rcases List.eq_nil_or_concat' pieces' with rfl | ⟨init', last', rfl⟩
      · rw [readLines_untagged hcut, readLines_untagged hcut', ih hadded]
      · simp at hpieces
      · simp at hpieces
      · rw [List.map_append, List.map_append] at hpieces
        obtain ⟨hinit, hlast⟩ := List.append_inj' hpieces rfl
        have hopened : (some (OpenTag.ofPiece last)).map OpenTag.trimmed
            = (some (OpenTag.ofPiece last')).map OpenTag.trimmed := by
          have hpiece : trimPiece last = trimPiece last' := List.singleton_inj.1 hlast
          rw [Option.map_some, Option.map_some, OpenTag.trimmed_ofPiece, OpenTag.trimmed_ofPiece]
          exact congrArg (some ∘ OpenTag.ofPiece) hpiece
        rw [readLines_tagged hcut, readLines_tagged hcut', OpenTag.map_close_congr hadded,
          map_close_pieces_congr hinit, ih hopened]

/-- The same line in front keeps lists of lines alike that are so whatever tag is open. -/
theorem readLines_cons_congr (h : ∀ current, readLines current rest = readLines current rest') :
    readLines current (line :: rest) = readLines current (line :: rest') := by
  simp only [readLines, h]

theorem readLines_cons_of_seen (h : seen line = seen line') :
    readLines current (line :: rest) = readLines current (line' :: rest) :=
  readLines_congr (.cons h (List.forall₂_same.2 fun _ _ => rfl)) rfl

/-! ### What may change in a line -/

theorem dropMargin_blank (hc : isBlank c = true) : dropMargin (c :: line) = dropMargin line := by
  rw [dropMargin, trimStart_blank hc, dropMargin]

/-- The whitespace in front of a line does not count. -/
theorem seen_margin (hmargin : ∀ c ∈ margin, isBlank c = true) : seen (margin ++ line) = seen line := by
  induction margin with
  | nil => rfl
  | cons c margin ih =>
      obtain ⟨hc, hmargin⟩ := List.forall_mem_cons.1 hmargin
      rw [List.cons_append, seen, dropMargin_blank hc]
      exact ih hmargin

theorem trimCut_cutLine_blank (hc : isBlank c = true) : trimCut (cutLine (c :: line)) = trimCut (cutLine line) := by
  have hat : c ≠ '@' := fun h => absurd (h ▸ hc) (by decide)
  have hsplit : splitAtTag true (c :: line) = (c :: (splitAtTag true line).1, (splitAtTag true line).2) := by
    simp [splitAtTag, hat, hc]
  rcases hline : splitAtTag true line with ⟨before, _ | after⟩
  · simp [cutLine, hsplit, hline, trimCut, trim_blank hc]
  · simp [cutLine, hsplit, hline, trimCut, trim_blank hc]

theorem trimCut_cutLine_trimStart (line : List Char) : trimCut (cutLine (trimStart line)) = trimCut (cutLine line) := by
  induction line with
  | nil => rfl
  | cons c line ih =>
      cases hc : isBlank c with
      | false => rw [trimStart_cons hc]
      | true => rw [trimStart_blank hc, ih, trimCut_cutLine_blank hc]

/-- A star in front of a line does not count, unless the line has one already. -/
theorem seen_star (h : (trimStart line).head? ≠ some '*') : seen ('*' :: line) = seen line := by
  have hstar : dropMargin ('*' :: line) = line := by
    simp only [dropMargin, trimStart_cons (show isBlank '*' = false by decide)]
  have hbare : dropMargin line = trimStart line := by
    unfold dropMargin
    split
    next rest hrest => simp [hrest] at h
    next => rfl
  rw [seen, seen, hstar, hbare, trimCut_cutLine_trimStart]

/-- A blank behind a line goes to the text that ends there. -/
theorem trimCut_cutLine_concat (hc : isBlank c = true) (hname : isNameChar c = false) :
    trimCut (cutLine (line ++ [c])) = trimCut (cutLine line) := by
  have hnil : cutLine [] = ([], []) := by decide
  rw [cutLine_append hc hname, hnil]
  rcases hcut : cutLine line with ⟨before, pieces⟩
  rcases List.eq_nil_or_concat' pieces with rfl | ⟨init, last, rfl⟩
  · simp [trimCut, trim_concat hc]
  · simp [trimCut, extendLast_concat, trimPiece, trim_concat hc]

/-- What is added to a line that is not blank is added behind its margin. -/
theorem dropMargin_append (h : trimStart line ≠ []) (more : List Char) :
    dropMargin (line ++ more) = dropMargin line ++ more := by
  rw [dropMargin, trimStart_append, if_neg h, dropMargin]
  obtain ⟨c, rest, hline⟩ := List.exists_cons_of_ne_nil h
  rw [hline, List.cons_append]
  by_cases hc : c = '*'
  · simp [hc]
  · simp [hc]

/-- A carriage return behind a line does not count. -/
theorem seen_return (line : List Char) : seen (line ++ ['\r']) = seen line := by
  by_cases hempty : trimStart line = []
  · -- A blank line is nothing but a margin, with the carriage return and without it.
    have hline : ∀ c ∈ line, isBlank c = true := List.dropWhile_eq_nil_iff.1 hempty
    have hreturn : seen (['\r'] ++ []) = seen [] := seen_margin (List.all_eq_true.1 rfl)
    rw [seen_margin hline, ← List.append_nil line, seen_margin hline]
    exact hreturn
  · rw [seen, dropMargin_append hempty, trimCut_cutLine_concat (by decide) (by decide), seen]

/-! ### Cutting at line feeds alone -/

/-- An empty line at the end adds nothing to the tag that is open. -/
theorem readLines_empty (current : Option OpenTag) : readLines current [[]] = readLines current [] := by
  have hcut : cutLine (dropMargin []) = ([], []) := by decide
  rw [readLines_untagged hcut, readLines, readLines, Option.map_map]
  congr 2
  funext tag
  exact tag.close_addLine rfl

/-- Lines may be cut at line feeds alone: carriage returns stay at their ends, and a text that ends with a line
feed has an empty last line. -/
theorem readLines_linesFrom (hline : '\n' ∉ line) (text : List Char) (current : Option OpenTag) :
    readLines current (linesFrom line text) = readLines current (piecesAt '\n' (line ++ text)) := by
  induction line, text using linesFrom.induct generalizing current with
  | case1 line hempty =>
      obtain rfl := List.isEmpty_iff.1 hempty
      simp [linesFrom, piecesAt, readLines_empty]
  | case2 line hne => simp [linesFrom, hne, piecesAt_self hline]
  | case3 line rest ih =>
      have hreturn : '\n' ∉ line ++ ['\r'] := by simpa using hline
      have hpieces : piecesAt '\n' (line ++ '\r' :: '\n' :: rest) = (line ++ ['\r']) :: piecesAt '\n' rest := by
        rw [List.append_cons, piecesAt_append hreturn]
      rw [linesFrom, hpieces, readLines_cons_of_seen (seen_return line)]
      exact readLines_cons_congr (ih (by simp))
  | case4 line rest ih =>
      rw [linesFrom, piecesAt_append hline]
      exact readLines_cons_congr (ih (by simp))
  | case5 line c rest hreturn hfeed ih =>
      have hkept : '\n' ∉ line ++ [c] := by simpa [hline] using fun hc : '\n' = c => hfeed hc.symm
      rw [linesFrom]
      · rw [ih hkept, List.append_assoc, List.singleton_append]
      · exact hreturn
      · exact hfeed

/-- The body of a comment behind the star of its opener, cut at its line feeds. -/
theorem parse_star (text : String) : parse ("*" ++ text) = readLines none (piecesAt '\n' text.toList) := by
  have hinner : parse ("*" ++ text) = readLines none (lines text.toList) := by
    simp [parse, parseChars]
  rw [hinner, lines, readLines_linesFrom (by simp), List.nil_append]

end ModPackager.DocComment
