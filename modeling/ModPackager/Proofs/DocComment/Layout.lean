import ModPackager.Proofs.DocComment.Tag

/-!
# Laying tags out as a comment

The standard layout of a comment gives every tag a line of its own, with its text's first line, and each
further line of the text a line too. It is read one tag at a time (`readLines_layOutTag`): the line that opens a
tag closes the one before, and so does the end of the comment. Both add a blank line to the tag that they
close, which the trim of the whole text removes again. Since reading gives canonical tags, and canonical tags
are read back from their layout, reading and laying out settle after one round (`parse_layOut_parse`).
-/

namespace ModPackager.DocComment

open Text

variable {line name tail : List Char} {tag : Tag}

/-! ### The layout -/

/-- The lines of a comment that carry one tag. -/
def layOutTag (tag : Tag) : List (List Char) :=
  let opener := " * @".toList ++ tag.name.toList
  match piecesAt '\n' tag.text.toList with
  | [] | [[]] => [opener]
  | first :: more => (opener ++ ' ' :: first) :: more.map (" * ".toList ++ ·)

/-- The body of the comment that carries the tags, between its delimiters. -/
def layOut (tags : List Tag) : String :=
  String.ofList ("*\n".toList ++ (tags.flatMap layOutTag).flatMap (· ++ ['\n']) ++ [' '])

/-! ### Reading one line of the layout -/

theorem dropMargin_star (line : List Char) : dropMargin (' ' :: '*' :: line) = line := by
  simp only [dropMargin, trimStart_blank (show isBlank ' ' = true by decide),
    trimStart_cons (show isBlank '*' = false by decide)]

theorem CanonicalName.takeWhile_append (h : CanonicalName name) (htail : ∀ c ∈ tail.head?, isNameChar c = false) :
    (name ++ tail).takeWhile isNameChar = name ∧ (name ++ tail).dropWhile isNameChar = tail := by
  rw [List.takeWhile_append_of_pos h.nameChar, List.dropWhile_append_of_pos h.nameChar]
  cases tail with
  | nil => simp
  | cons c tail =>
      have hc := htail c rfl
      simp [hc]

theorem CanonicalName.opensName_append (h : CanonicalName name) (tail : List Char) :
    opensName (name ++ tail) = true := by
  cases hname : name with
  | nil => simpa [hname, opensName] using h.opens
  | cons c name => simpa [hname, opensName] using h.opens

/-- A line that opens a tag is cut into a blank and the tag. -/
theorem cutLine_opener (hname : CanonicalName name) (htext : Untagged true tail)
    (htail : ∀ c ∈ tail.head?, isNameChar c = false) :
    cutLine (' ' :: '@' :: (name ++ tail)) = ([' '], [(name, tail)]) := by
  obtain ⟨htake, hdrop⟩ := hname.takeWhile_append htail
  have hsplit : splitAtTag true (' ' :: '@' :: (name ++ tail)) = ([' '], some (name ++ tail)) := by
    have hblank : isBlank ' ' = true := by decide
    simp [splitAtTag, hblank, hname.opensName_append]
  have hcut : splitAtTag true ((name ++ tail).dropWhile isNameChar) = (tail, none) := by
    rw [hdrop, splitAtTag_of_untagged htext]
  simp only [cutLine, hsplit, tagsFrom_last hcut, htake]

/-! ### Reading a laid out tag -/

/-- The tag that is given when a blank line ends what is known of it. -/
def OpenTag.closeBlank (tag : OpenTag) : Tag := (tag.addLine [' ']).close

theorem readLines_opener (hname : CanonicalName name) (htext : Untagged true tail)
    (htail : ∀ c ∈ tail.head?, isNameChar c = false) (current : Option OpenTag) (rest : List (List Char)) :
    readLines current ((" * @".toList ++ (name ++ tail)) :: rest)
      = (current.map OpenTag.closeBlank).toList ++ readLines (some ⟨name, [tail]⟩) rest := by
  have hmargin : dropMargin (" * @".toList ++ (name ++ tail)) = ' ' :: '@' :: (name ++ tail) := dropMargin_star _
  rw [readLines, hmargin, cutLine_opener hname htext htail]
  cases current <;> rfl

/-- The further lines of a text are added to the open tag one by one. -/
theorem readLines_more {more : List (List Char)} (hplain : ∀ line ∈ more, Untagged true line)
    (opened : OpenTag) (rest : List (List Char)) :
    readLines (some opened) (more.map (" * ".toList ++ ·) ++ rest)
      = readLines (some ⟨opened.name, opened.lines ++ more.map (' ' :: ·)⟩) rest := by
  induction more generalizing opened with
  | nil => simp
  | cons line more ih =>
      obtain ⟨hline, hmore⟩ := List.forall_mem_cons.1 hplain
      have hmargin : dropMargin (" * ".toList ++ line) = ' ' :: line := dropMargin_star _
      rw [List.map_cons, List.cons_append, readLines, hmargin, cutLine_untagged hline.blank]
      simp only [List.getLast?_nil, Option.map_some]
      rw [ih hmore]
      simp [OpenTag.addLine]

/-- An open tag with the lines of a canonical text, each behind a blank, closes to that text. -/
theorem closeBlank_lines {lines : List (List Char)} (h : CanonicalLines lines) :
    (OpenTag.closeBlank ⟨name, lines.map (' ' :: ·)⟩) = ⟨String.ofList name, String.ofList (join ['\n'] lines)⟩ := by
  have hmap : ((lines.map (' ' :: ·)) ++ [[' ']]).map trim = lines ++ [[]] := by
    have hblank : ∀ line ∈ lines, trim (' ' :: line) = line := fun line hline =>
      (trim_blank (by decide)).trans (h.trimmed line hline)
    have hlast : trim [' '] = [] := by decide
    simpa [hlast, Function.comp_def] using List.map_congr_left hblank
  have htrimmed : ∀ line ∈ lines ++ [[]], trim line = line := by
    intro line hline
    rcases List.mem_append.1 hline with hold | hnew
    · exact h.trimmed line hold
    · rw [List.mem_singleton.1 hnew]
      rfl
  have hstart : (lines ++ [[]]).dropWhile List.isEmpty = lines ++ [[]] := by
    cases hlines : lines with
    | nil => exact absurd hlines h.nonempty
    | cons first more =>
        have hfirst := h.head_ne
        rw [hlines] at hfirst
        rw [List.cons_append, List.dropWhile_cons_of_neg (by simpa using hfirst)]
  have hend : (lines ++ [[]]).rdropWhile List.isEmpty = lines := by
    rw [List.rdropWhile_concat_pos _ _ _ rfl, List.rdropWhile_eq_self_iff]
    intro hne hempty
    refine h.last_ne ?_
    rw [List.getLast?_eq_some_getLast hne, List.isEmpty_iff.1 hempty]
  rw [OpenTag.closeBlank, OpenTag.close, OpenTag.addLine, hmap, trim_join htrimmed, hstart, hend]

/-- The lines of a canonical tag: the name alone, or the name with the first line of the text and then the
other lines of the text. -/
theorem layOutTag_canonical (h : Canonical tag) :
    (tag.text = "" ∧ layOutTag tag = [" * @".toList ++ (tag.name.toList ++ [])]) ∨
      ∃ first more, CanonicalLines (first :: more) ∧ tag.text.toList = join ['\n'] (first :: more)
        ∧ layOutTag tag
          = (" * @".toList ++ (tag.name.toList ++ ' ' :: first)) :: more.map (" * ".toList ++ ·) := by
  rcases h.text with hempty | ⟨lines, htext, hlines⟩
  · exact .inl ⟨hempty, by simp [layOutTag, hempty, piecesAt]⟩
  · have hpieces := piecesAt_join hlines.nonempty fun line hline => (hlines.plain line hline).lineFeed
    cases lines with
    | nil => exact absurd rfl hlines.nonempty
    | cons first more =>
        have hfirst : first ≠ [] := fun hnil => hlines.head_ne (by rw [hnil]; rfl)
        refine .inr ⟨first, more, hlines, htext, ?_⟩
        simp only [layOutTag, htext, hpieces]
        cases more <;> simp [hfirst]

/-- The lines of a canonical tag close the tag before it and leave the tag itself open. -/
theorem readLines_layOutTag (h : Canonical tag) :
    ∃ opened : OpenTag, opened.closeBlank = tag ∧ ∀ current rest,
      readLines current (layOutTag tag ++ rest)
        = (current.map OpenTag.closeBlank).toList ++ readLines (some opened) rest := by
  rcases layOutTag_canonical h with ⟨hempty, hlayout⟩ | ⟨first, more, hlines, htext, hlayout⟩
  · refine ⟨⟨tag.name.toList, [[]]⟩, ?_, fun current rest => ?_⟩
    · have htrim : trim (join ['\n'] [trim [], trim [' ']]) = [] := by decide
      simp [OpenTag.closeBlank, OpenTag.addLine, OpenTag.close, htrim, ← hempty]
    · rw [hlayout]
      exact readLines_opener h.name untagged_nil (by simp) current rest
  · refine ⟨⟨tag.name.toList, (first :: more).map (' ' :: ·)⟩, ?_, fun current rest => ?_⟩
    · rw [closeBlank_lines hlines, ← htext, String.ofList_toList, String.ofList_toList]
    · obtain ⟨hfirst, hmore⟩ := List.forall_mem_cons.1 hlines.plain
      have hblank : isNameChar ' ' = false := by decide
      rw [hlayout, List.cons_append, readLines_opener h.name hfirst.untagged.blank (by simpa using hblank),
        readLines_more fun line hline => (hmore line hline).untagged]
      rfl

/-! ### Reading a laid out comment -/

theorem readLines_layOut {tags : List Tag} (h : ∀ tag ∈ tags, Canonical tag) (current : Option OpenTag) :
    readLines current (tags.flatMap layOutTag ++ [[' ']])
      = (current.map OpenTag.closeBlank).toList ++ tags := by
  induction tags generalizing current with
  | nil =>
      have hcut : cutLine (dropMargin [' ']) = ([], []) := by decide
      have hlast : ∀ opened : OpenTag, (opened.addLine []).close = opened.closeBlank := by
        intro opened
        have htrim : trim [' '] = trim [] := by decide
        simp [OpenTag.closeBlank, OpenTag.addLine, OpenTag.close, htrim]
      rw [List.flatMap_nil, List.nil_append, readLines, hcut]
      cases current <;> simp [readLines, hlast]
  | cons tag tags ih =>
      obtain ⟨htag, htags⟩ := List.forall_mem_cons.1 h
      obtain ⟨opened, hopened, hread⟩ := readLines_layOutTag htag
      rw [List.flatMap_cons, List.append_assoc, hread, ih htags, Option.map_some, hopened]
      rfl

/-- Nothing in a laid out line ends it early: it holds no line feed, and it does not end with a carriage
return. -/
structure Unbroken (line : List Char) : Prop where
  lineFeed : '\n' ∉ line
  last_ne : line.getLast? ≠ some '\r'

theorem CanonicalName.unbroken (h : CanonicalName name) : Unbroken name where
  lineFeed := fun hmem => absurd (h.nameChar _ hmem) (by decide)
  last_ne := fun hlast => absurd (h.nameChar _ (List.mem_of_getLast? hlast)) (by decide)

theorem Plain.unbroken (h : Plain line) (htrimmed : Text.trim line = line) : Unbroken line where
  lineFeed := h.lineFeed
  last_ne := getLast?_ne_of_trimEnd (trim_eq_self_iff.1 htrimmed).2 (by decide)

theorem Unbroken.append {start : List Char} (hstart : Unbroken start) (hline : Unbroken line) :
    Unbroken (start ++ line) where
  lineFeed := by simp [hstart.lineFeed, hline.lineFeed]
  last_ne := by
    rw [List.getLast?_append]
    cases hlast : line.getLast? with
    | none => exact hstart.last_ne
    | some c => exact fun h => hline.last_ne (hlast.trans h)

theorem unbroken_layOutTag (h : Canonical tag) : ∀ line ∈ layOutTag tag, Unbroken line := by
  have hgutter : Unbroken " * ".toList := ⟨by decide, by decide⟩
  have hopener : Unbroken " * @".toList := ⟨by decide, by decide⟩
  have hblank : Unbroken [' '] := ⟨by decide, by decide⟩
  rcases layOutTag_canonical h with ⟨-, hlayout⟩ | ⟨first, more, hlines, -, hlayout⟩
  · intro line hline
    obtain rfl : line = _ := by simpa [hlayout] using hline
    exact hopener.append h.name.unbroken
  · have hall : ∀ line ∈ first :: more, Unbroken line := fun line hline =>
      (hlines.plain line hline).unbroken (hlines.trimmed line hline)
    obtain ⟨hfirst, hmore⟩ := List.forall_mem_cons.1 hall
    rw [hlayout]
    refine List.forall_mem_cons.2 ⟨hopener.append (h.name.unbroken.append (hblank.append hfirst)), ?_⟩
    intro line hline
    obtain ⟨original, horiginal, rfl⟩ := List.mem_map.1 hline
    exact hgutter.append (hmore original horiginal)

/-- Canonical tags are read back from their layout. -/
theorem parse_layOut {tags : List Tag} (h : ∀ tag ∈ tags, Canonical tag) : parse (layOut tags) = tags := by
  have hunbroken : ∀ line ∈ [] :: tags.flatMap layOutTag, Unbroken line := by
    refine List.forall_mem_cons.2 ⟨⟨by decide, by decide⟩, fun line hline => ?_⟩
    obtain ⟨tag, htag, hline⟩ := List.mem_flatMap.1 hline
    exact unbroken_layOutTag (h tag htag) line hline
  have hlines := lines_flatMap (fun line hline => (hunbroken line hline).lineFeed)
    (fun line hline => (hunbroken line hline).last_ne) [' ']
  have hbody : parse (layOut tags)
      = readLines none (lines (([] :: tags.flatMap layOutTag).flatMap (· ++ ['\n']) ++ [' '])) := by
    simp [parse, layOut, parseChars]
  have hlast : lines [' '] = [[' ']] := by decide
  have hmargin : cutLine (dropMargin []) = ([], []) := by decide
  rw [hbody, hlines, hlast, List.cons_append, readLines, hmargin]
  exact readLines_layOut h none

/-- Every comment is read as canonical tags, canonical tags are read back from their layout, and so laying out
what was read and reading again gives the same tags. -/
theorem parse_layOut_parse :
    (∀ body, ∀ tag ∈ parse body, Canonical tag)
      ∧ (∀ tags, (∀ tag ∈ tags, Canonical tag) → parse (layOut tags) = tags)
      ∧ ∀ body, parse (layOut (parse body)) = parse body :=
  ⟨canonical_parse, fun _ => parse_layOut, fun body => parse_layOut (canonical_parse body)⟩

/-- An at sign inside a word and a blank line belong to the text. -/
theorem parse_layOut_parse_atSign :
    Canonical ⟨"author", "me@home\n\n* $"⟩ ∧ Canonical ⟨"_x", ""⟩
      ∧ layOut [⟨"author", "me@home\n\n* $"⟩, ⟨"_x", ""⟩] = "*\n * @author me@home\n * \n * * $\n * @_x\n "
      ∧ parse "*\n * @author me@home\n * \n * * $\n * @_x\n " = [⟨"author", "me@home\n\n* $"⟩, ⟨"_x", ""⟩] := by
  have hplain : ∀ line ∈ ["me@home".toList, [], "* $".toList], Plain line := by
    intro line hline
    have hwhole : '\n' ∉ line ∧ (splitAtTag true line).1 = line := by
      revert line
      decide
    exact ⟨hwhole.1, hwhole.2 ▸ untagged_splitAtTag true line⟩
  have hauthor : Canonical ⟨"author", "me@home\n\n* $"⟩ :=
    ⟨by decide, .inr ⟨["me@home".toList, [], "* $".toList], by decide,
      ⟨by decide, hplain, by decide, by decide, by decide⟩⟩⟩
  have hx : Canonical ⟨"_x", ""⟩ := ⟨by decide, .inl rfl⟩
  have hlayout : layOut [⟨"author", "me@home\n\n* $"⟩, ⟨"_x", ""⟩]
      = "*\n * @author me@home\n * \n * * $\n * @_x\n " := by decide
  refine ⟨hauthor, hx, hlayout, ?_⟩
  rw [← hlayout]
  exact parse_layOut_parse.2.1 _ (by simp [hauthor, hx])

end ModPackager.DocComment
