import ModPackager.Text.CharClass

/-!
# Lines and trimming

Text is cut and trimmed as a list of characters. A line ends at a line feed; a carriage return just
before that line feed belongs to the ending. A text that ends with a line feed has no empty last
line, and a carriage return that no line feed follows stays in its line.
-/

namespace ModPackager.Text

/-- Drops whitespace at the start. -/
def trimStart (text : List Char) : List Char := text.dropWhile isBlank

/-- Drops whitespace at the end. -/
def trimEnd (text : List Char) : List Char := (text.reverse.dropWhile isBlank).reverse

/-- Drops whitespace at both ends. -/
def trim (text : List Char) : List Char := trimEnd (trimStart text)

/-- The lines of a text, where `line` holds the characters of the unfinished line. -/
def linesFrom (line : List Char) : List Char → List (List Char)
  | [] => if line.isEmpty then [] else [line]
  | '\r' :: '\n' :: rest => line :: linesFrom [] rest
  | '\n' :: rest => line :: linesFrom [] rest
  | c :: rest => linesFrom (line ++ [c]) rest

/-- The lines of a text without their endings. -/
def lines (text : List Char) : List (List Char) := linesFrom [] text

/-- The pieces of a text between separators; a text without any is one piece. -/
def piecesAt (separator : Char) : List Char → List (List Char)
  | [] => [[]]
  | c :: rest =>
    if c == separator then [] :: piecesAt separator rest
    else
      match piecesAt separator rest with
      | piece :: more => (c :: piece) :: more
      | [] => [[c]]

/-- Joins parts with a separator between each two. -/
def join (separator : List Char) : List (List Char) → List Char
  | [] => []
  | [part] => part
  | part :: rest => part ++ separator ++ join separator rest

/-- Whether `needle` occurs in the text. -/
def occurs (needle : List Char) : List Char → Bool
  | [] => needle.isEmpty
  | c :: rest => needle.isPrefixOf (c :: rest) || occurs needle rest

/-- Replaces each occurrence of a non-empty `needle`, from left to right; `skip` counts the
characters of the occurrence being replaced that are still to be dropped. -/
def replaceFrom (needle replacement : List Char) : Nat → List Char → List Char
  | _, [] => []
  | skip + 1, _ :: rest => replaceFrom needle replacement skip rest
  | 0, c :: rest =>
    if !needle.isEmpty && needle.isPrefixOf (c :: rest) then
      replacement ++ replaceFrom needle replacement (needle.length - 1) rest
    else c :: replaceFrom needle replacement 0 rest

/-- Replaces each occurrence of a non-empty `needle` in a string. -/
def replace (text needle replacement : String) : String :=
  String.ofList (replaceFrom needle.toList replacement.toList 0 text.toList)

/-- Removes `ending` from the end of a string, if it is there. -/
def dropEnding? (text ending : String) : Option String :=
  let chars := text.toList
  let tail := ending.toList
  if tail.isSuffixOf chars then some (String.ofList (chars.take (chars.length - tail.length)))
  else none

end ModPackager.Text
