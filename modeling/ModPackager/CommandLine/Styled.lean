/-!
# Styled text

Text in pieces, each with a style. It is shown with the escapes of a terminal or, without colours, as
plain text.
-/

namespace ModPackager.CommandLine

/-- How a piece of text is shown. -/
inductive Style
  | heading
  | usage
  /-- What is typed as it stands. -/
  | literal
  /-- What stands for something else. -/
  | placeholder
  | error
  | valid
  | invalid
  /-- The heading of examples. -/
  | title
  /-- The command of an example. -/
  | sample
deriving DecidableEq, Repr

/-- The escapes that begin a style. -/
def Style.escapes : Style → String
  | .heading => "\x1b[1m\x1b[4m\x1b[35m"
  | .usage => "\x1b[1m\x1b[35m"
  | .literal => "\x1b[32m"
  | .placeholder => "\x1b[90m"
  | .error => "\x1b[1m\x1b[31m"
  | .valid => "\x1b[32m"
  | .invalid => "\x1b[33m"
  | .title => "\x1b[1;4m"
  | .sample => "\x1b[32m"

/-- A piece of text. -/
structure Span where
  style : Option Style
  text : String
deriving DecidableEq, Repr

/-- Text in pieces. -/
abbrev StyledText := List Span

/-- Text without a style. -/
def plain (text : String) : Span := ⟨none, text⟩

/-- Text with a style. -/
def Style.span (style : Style) (text : String) : Span := ⟨some style, text⟩

/-- A piece as it is shown. -/
def Span.render (coloured : Bool) (span : Span) : String :=
  match span.style with
  | some style => if coloured then style.escapes ++ span.text ++ "\x1b[0m" else span.text
  | none => span.text

/-- Text as it is shown. -/
def renderStyled (coloured : Bool) (text : StyledText) : String :=
  "".intercalate (text.map (Span.render coloured))

/-- How many columns text takes. -/
def widthOf (text : StyledText) : Nat := text.foldl (fun columns span => columns + span.text.length) 0

/-- Text filled with blanks up to a number of columns. -/
def padTo (columns : Nat) (text : StyledText) : StyledText :=
  text ++ [plain (String.ofList (List.replicate (columns - widthOf text) ' '))]

end ModPackager.CommandLine
