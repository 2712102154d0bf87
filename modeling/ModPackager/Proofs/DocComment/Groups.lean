import ModPackager.Proofs.DocComment.Reading

/-!
# Tags line group by line group

A line that begins with a tag closes the tag that is open and takes nothing else from the lines before it. So
reading may stop there and start afresh (`readLines_append`), and the tags of a comment are those of its groups of
lines, where each group but the first begins with a tag. What stands before the first tag, in lines of its own or
in front of the tag on the same line, is read without leaving anything (`readLines_untagged_lines`,
`parse_preface`). The main statement is `parse_groups`.
-/

namespace ModPackager.DocComment

open Text

variable {fresh : Bool} {line front words : List Char} {rest lines : List (List Char)} {current : Option OpenTag}

/-! ### Lines that begin with a tag -/

/-- Behind its margin and whitespace, a line begins with a tag. -/
def opensLine (line : List Char) : Bool :=
  match trimStart (dropMargin line) with
  | '@' :: rest => opensName rest
  | _ => false

/-- The first line of a text begins with a tag. -/
def StartsWithTag (text : String) : Prop := (piecesAt '\n' text.toList).head?.any opensLine = true

instance (text : String) : Decidable (StartsWithTag text) := inferInstanceAs (Decidable (_ = true))

/-- Text in front of a tag on the same line: no tag opens in it, and behind it there is room for one. -/
structure Preface (words : List Char) : Prop where
  lineFeed : '\n' ∉ words
  untagged : Untagged true (dropMargin words)
  leavesRoom : (dropMargin words).getLast?.elim true isBlank = true

/-! ### Cutting such lines -/

/-- Text in which no tag opens, and which leaves room for one, is all that stands before the tag behind it. -/
theorem splitAtTag_behind {name : List Char} (hfront : Untagged fresh front)
    (hroom : front.getLast?.elim fresh isBlank = true) (hname : opensName name = true) :
    splitAtTag fresh (front ++ '@' :: name) = (front, some name) := by
  induction front generalizing fresh with
  | nil =>
      obtain rfl : fresh = true := hroom
      simp [splitAtTag, hname]
  | cons c front ih =>
      obtain ⟨hhere, hlater⟩ := untagged_cons.1 hfront
      rw [elim_getLast?_cons] at hroom
      rw [List.cons_append, splitAtTag, ih hlater hroom, opensName_append (by decide), if_neg]
      intro hopens
      simp only [Bool.and_eq_true, beq_iff_eq] at hopens
      simp [hhere hopens.1.1 hopens.1.2] at hopens

theorem cutLine_behind {name : List Char} (hfront : Untagged true front)
    (hroom : front.getLast?.elim true isBlank = true) (hname : opensName name = true) :
    cutLine (front ++ '@' :: name) = (front, tagsFrom name) := by
  simp only [cutLine, splitAtTag_behind hfront hroom hname]

/-- Nothing but whitespace stands before the tag that a line begins with. -/
theorem cutLine_of_opensLine (h : opensLine line = true) :
    ∃ before init last, cutLine (dropMargin line) = (before, init ++ [last]) ∧ trim before = [] := by
  unfold opensLine at h
  split at h
  next name hstart =>
      have hblank : ∀ c ∈ (dropMargin line).takeWhile isBlank, isBlank c = true := fun c hc =>
        List.mem_takeWhile_imp hc
      have hline : dropMargin line = (dropMargin line).takeWhile isBlank ++ '@' :: name := by
        rw [← hstart, trimStart, List.takeWhile_append_dropWhile]
      generalize (dropMargin line).takeWhile isBlank = blanks at hblank hline
      have huntagged : Untagged true blanks := by
        intro before rest hblanks
        have hat := hblank '@' (by simp [hblanks])
        exact absurd hat (by decide)
      have hroom : blanks.getLast?.elim true isBlank = true := by
        cases hlast : blanks.getLast? with
        | none => rfl
        | some c => exact hblank c (List.mem_of_getLast? hlast)
      obtain hnil | ⟨init, last, htags⟩ := List.eq_nil_or_concat' (tagsFrom name)
      · exact absurd hnil (tagsFrom_ne_nil name)
      · refine ⟨blanks, init, last, by rw [hline, cutLine_behind huntagged hroom h, htags], ?_⟩
        rw [trim, trimStart, List.dropWhile_eq_nil_iff.2 hblank]
        rfl
  next => cases h

/-- A line gives no tag just if none opens in it. -/
theorem cutLine_snd_eq_nil_iff : (cutLine line).2 = [] ↔ Untagged true line := by
  refine ⟨fun h => ?_, fun h => by rw [cutLine_untagged h]⟩
  have huntagged := untagged_splitAtTag true line
  rcases splitAtTag_cases true line with hwhole | ⟨before, name, -, -, hcut⟩
  · rwa [hwhole] at huntagged
  · simp [cutLine, hcut, tagsFrom_ne_nil] at h

/-! ### Reading in groups -/

/-- A line that begins with a tag closes the tag that is open, and reading starts afresh with it. -/
theorem readLines_opensLine (h : opensLine line = true) :
    readLines current (line :: rest) = (current.map OpenTag.close).toList ++ readLines none (line :: rest) := by
  obtain ⟨before, init, last, hcut, hbefore⟩ := cutLine_of_opensLine h
  have hclose : (current.map (·.addLine before)).map OpenTag.close = current.map OpenTag.close := by
    cases current with
    | none => rfl
    | some tag => exact congrArg some (tag.close_addLine hbefore)
  rw [readLines_tagged hcut, readLines_tagged hcut, hclose]
  simp

/-- Lines may be read up to one that begins with a tag, and from that line on, whatever the first part leaves
open. -/
theorem readLines_append (h : opensLine line = true) (front : List (List Char)) (current : Option OpenTag) :
    readLines current (front ++ line :: rest) = readLines current front ++ readLines none (line :: rest) := by
  induction front generalizing current with
  | nil => exact readLines_opensLine h
  | cons first front ih =>
      rw [List.cons_append]
      rcases hcut : cutLine (dropMargin first) with ⟨before, pieces⟩
      rcases List.eq_nil_or_concat' pieces with rfl | ⟨init, last, rfl⟩
      · rw [readLines_untagged hcut, readLines_untagged hcut, ih]
      · rw [readLines_tagged hcut, readLines_tagged hcut, ih]
        simp only [List.append_assoc]

/-! ### Text before the first tag -/

/-- A tag that is open is closed in the end. -/
theorem readLines_some_ne_nil (tag : OpenTag) (lines : List (List Char)) : readLines (some tag) lines ≠ [] := by
  induction lines generalizing tag with
  | nil => simp [readLines]
  | cons line lines ih =>
      rcases hcut : cutLine (dropMargin line) with ⟨before, pieces⟩
      rcases List.eq_nil_or_concat' pieces with rfl | ⟨init, last, rfl⟩
      · rw [readLines_untagged hcut]
        exact ih _
      · simp [readLines_tagged hcut]

/-- Lines give no tag just if none opens in them. -/
theorem readLines_none_eq_nil_iff :
    readLines none lines = [] ↔ ∀ line ∈ lines, Untagged true (dropMargin line) := by
  induction lines with
  | nil => simp [readLines]
  | cons line lines ih =>
      rw [List.forall_mem_cons, ← cutLine_snd_eq_nil_iff, ← ih]
      rcases hcut : cutLine (dropMargin line) with ⟨before, pieces⟩
      rcases List.eq_nil_or_concat' pieces with rfl | ⟨init, last, rfl⟩
      · simp [readLines_untagged hcut]
      · simp [readLines_tagged hcut, readLines_some_ne_nil]

/-- Lines without a tag leave nothing behind as long as no tag is open. -/
theorem readLines_untagged_lines (h : ∀ line ∈ lines, Untagged true (dropMargin line)) :
    readLines none (lines ++ rest) = readLines none rest := by
  induction lines with
  | nil => rfl
  | cons line lines ih =>
      obtain ⟨hline, hlines⟩ := List.forall_mem_cons.1 h
      rw [List.cons_append, readLines_untagged (cutLine_untagged hline)]
      exact ih hlines

/-- Of a line nothing but its tags counts as long as no tag is open. -/
theorem readLines_none_congr {line' : List Char}
    (h : (cutLine (dropMargin line)).2 = (cutLine (dropMargin line')).2) :
    readLines none (line :: rest) = readLines none (line' :: rest) := by
  simp only [readLines, h, Option.map_none]

theorem dropMargin_at (name : List Char) : dropMargin ('@' :: name) = '@' :: name := by
  simp [dropMargin, trimStart_cons (show isBlank '@' = false by decide)]

theorem dropMargin_append_at (words name : List Char) :
    dropMargin (words ++ '@' :: name) = dropMargin words ++ '@' :: name := by
  by_cases hempty : trimStart words = []
  · have hwords : dropMargin words = [] := by simp [dropMargin, hempty]
    rw [hwords, dropMargin, trimStart_append, if_pos hempty, ← dropMargin, dropMargin_at, List.nil_append]
  · exact dropMargin_append hempty _

/-- Words in front of a tag leave nothing behind as long as no tag is open. -/
theorem readLines_preface (hwords : Preface words) {name : List Char} (hname : opensName name = true) :
    readLines none ((words ++ '@' :: name) :: rest) = readLines none (('@' :: name) :: rest) := by
  have hbehind := cutLine_behind hwords.untagged hwords.leavesRoom hname
  have hat : cutLine ([] ++ '@' :: name) = ([], tagsFrom name) := cutLine_behind untagged_nil rfl hname
  refine readLines_none_congr ?_
  rw [dropMargin_append_at, dropMargin_at, hbehind, ← List.nil_append ('@' :: name), hat]

/-! ### Whole comments -/

theorem exists_of_startsWithTag {text : String} (h : StartsWithTag text) :
    ∃ line rest, piecesAt '\n' text.toList = line :: rest ∧ opensLine line = true := by
  obtain ⟨line, rest, hpieces, -⟩ := exists_piecesAt '\n' text.toList
  rw [StartsWithTag, hpieces] at h
  exact ⟨line, rest, hpieces, h⟩

/-- The body of a comment whose text goes on behind a line feed. -/
theorem parse_lineFeed (a b : String) :
    parse ("*" ++ a ++ "\n" ++ b) = readLines none (piecesAt '\n' a.toList ++ piecesAt '\n' b.toList) := by
  have hbody : "*" ++ a ++ "\n" ++ b = "*" ++ (a ++ "\n" ++ b) := by simp only [String.append_assoc]
  have htext : (a ++ "\n" ++ b).toList = a.toList ++ '\n' :: b.toList := by simp
  rw [hbody, parse_star, htext, piecesAt_between]

theorem parse_append {b : String} (hb : StartsWithTag b) (a : String) :
    parse ("*" ++ a ++ "\n" ++ b) = parse ("*" ++ a) ++ parse ("*" ++ b) := by
  obtain ⟨line, rest, hpieces, hline⟩ := exists_of_startsWithTag hb
  rw [parse_lineFeed, parse_star, parse_star, hpieces, readLines_append hline]

/-- Groups begin with a tag together if the first of them does. -/
theorem startsWithTag_intercalate {group : String} (h : StartsWithTag group) (groups : List String) :
    StartsWithTag ("\n".intercalate (group :: groups)) := by
  cases groups with
  | nil => simpa using h
  | cons next groups =>
      obtain ⟨line, rest, hpieces, hline⟩ := exists_of_startsWithTag h
      have htext : ("\n".intercalate (group :: next :: groups)).toList
          = group.toList ++ '\n' :: ("\n".intercalate (next :: groups)).toList := by
        simp [String.intercalate_cons_cons]
      rw [StartsWithTag, htext, piecesAt_between, hpieces]
      exact hline

theorem parse_intercalate {groups : List String} (h : ∀ group ∈ groups, StartsWithTag group) (a : String) :
    parse ("*" ++ "\n".intercalate (a :: groups))
      = parse ("*" ++ a) ++ groups.flatMap fun group => parse ("*" ++ group) := by
  induction groups generalizing a with
  | nil => simp
  | cons group groups ih =>
      obtain ⟨hgroup, hgroups⟩ := List.forall_mem_cons.1 h
      have hstart := startsWithTag_intercalate hgroup groups
      rw [String.intercalate_cons_cons, ← String.append_assoc, ← String.append_assoc, parse_append hstart, ih hgroups,
        List.flatMap_cons]

theorem parse_eq_nil_iff (text : String) :
    parse ("*" ++ text) = [] ↔ ∀ line ∈ piecesAt '\n' text.toList, Untagged true (dropMargin line) := by
  rw [parse_star, readLines_none_eq_nil_iff]

theorem parse_behind_untagged {a : String} (ha : parse ("*" ++ a) = []) (b : String) :
    parse ("*" ++ a ++ "\n" ++ b) = parse ("*" ++ b) := by
  rw [parse_lineFeed, readLines_untagged_lines ((parse_eq_nil_iff a).1 ha), parse_star]

theorem parse_preface {words rest : String} (hwords : Preface words.toList) (hname : opensName rest.toList = true) :
    parse ("*" ++ words ++ "@" ++ rest) = parse ("*" ++ "@" ++ rest) := by
  obtain ⟨c, tail, hrest⟩ : ∃ c tail, rest.toList = c :: tail := by
    refine List.exists_cons_of_ne_nil fun hnil => ?_
    simp [hnil, opensName] at hname
  rw [hrest] at hname
  have hc : '\n' ≠ c := fun hc => absurd (isNameChar_of_opensName hname) (hc ▸ by decide)
  obtain ⟨piece, more, hpieces, -⟩ := exists_piecesAt '\n' tail
  have hat : piecesAt '\n' (['@', c] ++ tail) = (['@', c] ++ piece) :: more :=
    piecesAt_prepend (by simpa using hc) hpieces
  have hbehind : piecesAt '\n' (words.toList ++ (['@', c] ++ tail)) = (words.toList ++ (['@', c] ++ piece)) :: more :=
    piecesAt_prepend hwords.lineFeed hat
  have hname' : opensName (c :: piece) = true := hname
  have hwordsText : ("*" ++ words ++ "@" ++ rest) = "*" ++ (words ++ ("@" ++ rest)) := by
    simp only [String.append_assoc]
  have htext : (words ++ ("@" ++ rest)).toList = words.toList ++ (['@', c] ++ tail) := by simp [hrest]
  have htext' : ("@" ++ rest).toList = ['@', c] ++ tail := by simp [hrest]
  rw [hwordsText, String.append_assoc, parse_star, parse_star, htext, htext', hat, hbehind]
  exact readLines_preface hwords hname'

/-- Where a line begins with a tag, a comment can be taken apart: its tags are those of the lines before it and
those of the lines from it on, and so for any number of such groups of lines. A comment has no tags just if no
at sign opens one in any of its lines, and text without tags adds nothing to what comes behind it, in lines of
its own or in front of a tag on the same line. -/
theorem parse_groups :
    (∀ a b, StartsWithTag b → parse ("*" ++ a ++ "\n" ++ b) = parse ("*" ++ a) ++ parse ("*" ++ b))
      ∧ (∀ a groups, (∀ group ∈ groups, StartsWithTag group) →
          parse ("*" ++ "\n".intercalate (a :: groups))
            = parse ("*" ++ a) ++ groups.flatMap fun group => parse ("*" ++ group))
      ∧ (∀ text, parse ("*" ++ text) = [] ↔ ∀ line ∈ piecesAt '\n' text.toList, Untagged true (dropMargin line))
      ∧ (∀ a b, parse ("*" ++ a) = [] → parse ("*" ++ a ++ "\n" ++ b) = parse ("*" ++ b))
      ∧ ∀ words rest : String, Preface words.toList → opensName rest.toList = true →
          parse ("*" ++ words ++ "@" ++ rest) = parse ("*" ++ "@" ++ rest) :=
  ⟨fun a _ hb => parse_append hb a, fun a _ hgroups => parse_intercalate hgroups a, parse_eq_nil_iff,
    fun _ b ha => parse_behind_untagged ha b, fun _ _ hwords hname => parse_preface hwords hname⟩

/-- The tag `@a` is still open when its group ends, and the next group closes it. An at sign inside a word opens
no tag. -/
theorem parse_groups_openTag :
    (StartsWithTag " \t*  @b y\n\tz" ∧ StartsWithTag "@c" ∧ Preface " * by me@home ".toList)
      ∧ parse "* intro\n * @a x\n \t*  @b y\n\tz\n@c" = [⟨"a", "x"⟩, ⟨"b", "y\nz"⟩, ⟨"c", ""⟩]
      ∧ parse "* intro\n * @a x\n@c" = [⟨"a", "x"⟩, ⟨"c", ""⟩]
      ∧ parse "* by me@home\n@c" = [⟨"c", ""⟩]
      ∧ parse "* * by me@home @c" = [⟨"c", ""⟩] := by
  have hb : StartsWithTag " \t*  @b y\n\tz" := by decide
  have hc : StartsWithTag "@c" := by decide
  have hpreface : Preface " * by me@home ".toList :=
    ⟨by decide, cutLine_snd_eq_nil_iff.1 (by decide), by decide⟩
  refine ⟨⟨hb, hc, hpreface⟩, ?_, ?_, ?_, ?_⟩
  · have hthree := parse_groups.2.1 " intro\n * @a x" [" \t*  @b y\n\tz", "@c"] (by simp [hb, hc])
    exact hthree.trans (by decide +kernel)
  · exact (parse_groups.1 " intro\n * @a x" "@c" hc).trans (by decide +kernel)
  · exact (parse_groups.2.2.2.1 " by me@home" "@c" (by decide +kernel)).trans (by decide +kernel)
  · exact (parse_groups.2.2.2.2 " * by me@home " "c" hpreface (by decide)).trans (by decide +kernel)

end ModPackager.DocComment
