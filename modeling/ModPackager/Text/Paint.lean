import ModPackager.Text.Lines

/-!
# Coloured text

Text between the escapes of a terminal style. Where the text itself ends a style, the style begins
anew behind that place.
-/

namespace ModPackager.Text

/-- The escape that ends every style. -/
def styleEnd : String := "\x1b[0m"

/-- The escape that begins a style with the given code. -/
def styleStart (code : String) : String := "\x1b[" ++ code ++ "m"

/-- Text in a style, or plain. -/
def paint (coloured : Bool) (code text : String) : String :=
  if coloured then
    styleStart code ++ replace text styleEnd (styleEnd ++ styleStart code) ++ styleEnd
  else text

end ModPackager.Text
