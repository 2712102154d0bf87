import ModPackager.Text.Lines

/-!
# Tags of a documentation comment

A documentation comment is a block comment whose body begins with a star. It is read line by line:
leading whitespace and one star form the margin of a line and are dropped. A tag opens at an at sign
that stands at the start of what is left of its line or after whitespace, and that a letter or an
underscore follows. Its name is the longest run of letters, numerals, underscores and dollar signs;
its text runs to the next tag or the end of the comment, each line trimmed and the whole trimmed.
What stands before the first tag is not recorded.

The remainder of a line after a tag's name counts as a fresh start, so an at sign directly after a
name opens the next tag.
-/

namespace ModPackager

open Text

/-- One tag of a documentation comment with its text. -/
structure Tag where
  name : String
  text : String
deriving DecidableEq, Repr

namespace DocComment

/-! ### One line -/

/-- Whether the body of a block comment, taken between its delimiters, is documentation. -/
def isDocumentation : List Char → Bool
  | '*' :: _ => true
  | _ => false

/-- Continues the name of a tag. -/
def isNameChar (c : Char) : Bool := isAlphanumeric c || c == '_' || c == '$'

/-- What follows an at sign begins a tag's name. -/
def opensName : List Char → Bool
  | c :: _ => isAlphabetic c || c == '_'
  | [] => false

/-- Drops the whitespace and the star at the start of a comment line. -/
def dropMargin (line : List Char) : List Char :=
  match trimStart line with
  | '*' :: rest => rest
  | rest => rest

/-- Splits a line at its first tag: the text before it, and what follows its at sign. The flag says
whether the character before the line's rest allows a tag. -/
def splitAtTag : Bool → List Char → List Char × Option (List Char)
  | _, [] => ([], none)
  | fresh, c :: rest =>
    if c == '@' && fresh && opensName rest then ([], some rest)
    else
      let (before, after) := splitAtTag (isBlank c) rest
      (c :: before, after)

theorem length_splitAtTag {line before after : List Char} {fresh : Bool}
    (h : splitAtTag fresh line = (before, some after)) : after.length < line.length := by
  induction line generalizing fresh before with
  | nil => simp [splitAtTag] at h
  | cons c rest ih =>
    unfold splitAtTag at h
    split at h
    · cases h; simp
    · cases hs : splitAtTag (isBlank c) rest with
      | mk b a =>
        rw [hs] at h
        cases h
        exact Nat.lt_succ_of_lt (ih hs)

/-- The tags of a line whose rest begins just after an at sign, each with its text on this line. -/
def tagsFrom (rest : List Char) : List (List Char × List Char) :=
  let name := rest.takeWhile isNameChar
  match _cut : splitAtTag true (rest.dropWhile isNameChar) with
  | (text, none) => [(name, text)]
  | (text, some more) => (name, text) :: tagsFrom more
termination_by rest.length
decreasing_by
  exact Nat.lt_of_lt_of_le (length_splitAtTag (by assumption)) (List.dropWhile_sublist _).length_le

/-- A line cut at its tags: the text before the first one, then each tag with its text. -/
def cutLine (line : List Char) : List Char × List (List Char × List Char) :=
  match splitAtTag true line with
  | (text, none) => (text, [])
  | (before, some rest) => (before, tagsFrom rest)

/-! ### A whole comment -/

/-- A tag whose text may still continue on later lines. -/
structure OpenTag where
  name : List Char
  lines : List (List Char)

/-- A tag that begins on the current line. -/
def OpenTag.ofPiece (piece : List Char × List Char) : OpenTag := ⟨piece.1, [piece.2]⟩

/-- Adds the next line of a tag's text. -/
def OpenTag.addLine (tag : OpenTag) (line : List Char) : OpenTag :=
  { tag with lines := tag.lines ++ [line] }

/-- The finished tag: lines trimmed, joined, and trimmed as a whole. -/
def OpenTag.close (tag : OpenTag) : Tag :=
  ⟨String.ofList tag.name, String.ofList (trim (join ['\n'] (tag.lines.map trim)))⟩

/-- Reads the remaining lines while `current` may still be continued. -/
def readLines (current : Option OpenTag) : List (List Char) → List Tag
  | [] => (current.map OpenTag.close).toList
  | line :: rest =>
    let (before, pieces) := cutLine (dropMargin line)
    let current := current.map (·.addLine before)
    match pieces.getLast? with
    | none => readLines current rest
    | some last =>
      (current.map OpenTag.close).toList
        ++ pieces.dropLast.map (fun piece => (OpenTag.ofPiece piece).close)
        ++ readLines (some (OpenTag.ofPiece last)) rest

/-- The tags of a comment body, which may still carry the second star of its opener. -/
def parseChars (body : List Char) : List Tag :=
  let inner := match body with
    | '*' :: rest => rest
    | _ => body
  readLines none (lines inner)

/-- The tags of a comment body in order. -/
def parse (body : String) : List Tag := parseChars body.toList

end DocComment

end ModPackager
