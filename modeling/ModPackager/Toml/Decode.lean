import ModPackager.Decimal.Shortest
import ModPackager.Text.Quoted
import ModPackager.Toml.Document

/-!
# Reading values of a given type

A decoder takes a node and gives the value that it stands for. A node of another type is a mismatch,
which a message shows together with the line of the document that holds it.
-/

namespace ModPackager.Toml

/-! ### Mismatches -/

/-- Something else than what was asked for. -/
structure Mismatch where
  reason : String
  /-- Where it was written, once that is known. -/
  span : Option Span := none

/-- What decoding gives. -/
abbrev Decoded (α : Type) := Except Mismatch α

/-- Zeros in a row. -/
def zeros (count : Nat) : List Char := List.replicate count '0'

/-- A decimal in positional notation, with a point. -/
def positional (d : Decimal) : List Char :=
  let digits := Nat.toDigits 10 d.digits
  if 0 ≤ d.exponent then digits ++ zeros d.exponent.toNat ++ ['.', '0']
  else
    let places := d.exponent.natAbs
    let padded := zeros (places + 1 - digits.length) ++ digits
    padded.take (padded.length - places) ++ '.' :: padded.drop (padded.length - places)

/-- A double as messages show it. -/
def floatText (x : Float) : String :=
  if x.isNaN then "NaN"
  else
    let sign := if x.toBits.toNat / Decimal.twoTo 63 = 1 then "-" else ""
    if x.isInf then sign ++ "inf"
    else if x == 0 then sign ++ "0.0"
    else sign ++ String.ofList (positional (Decimal.ofFloat x.abs))

/-- How a message names a node. -/
def Node.describe : Node → String
  | .scalar (.string text) _ => "string " ++ Text.quoted text
  | .scalar (.integer n) _ => "integer `" ++ toString n ++ "`"
  | .scalar (.float x) _ => "floating point `" ++ floatText x ++ "`"
  | .scalar (.boolean b) _ => "boolean `" ++ (if b then "true" else "false") ++ "`"
  | .scalar .dateTime _ => "map"
  | .array _ _ => "sequence"
  | .tables _ => "sequence"
  | .table _ _ _ => "map"

/-- The mismatch of a node that is not of the expected type. -/
def wrongType {α : Type} (node : Node) (expected : String) : Decoded α :=
  .error ⟨"invalid type: " ++ node.describe ++ ", expected " ++ expected, node.span?⟩

/-! ### Decoders -/

/-- A string; `expected` says what for. -/
def decodeText (expected : String) : Node → Decoded String
  | .scalar (.string text) _ => .ok text
  | node => wrongType node expected

/-- A boolean. -/
def decodeFlag : Node → Decoded Bool
  | .scalar (.boolean b) _ => .ok b
  | node => wrongType node "a boolean"

/-- An integer that is not negative. -/
def decodeCount : Node → Decoded Nat
  | .scalar (.integer n) span =>
    if 0 ≤ n then .ok n.toNat
    else .error ⟨"invalid value: integer `" ++ toString n ++ "`, expected u64", some span⟩
  | node => wrongType node "u64"

/-- The items of an array, however it was written. -/
def Node.items? : Node → Option (List Node)
  | .array items _ => some items
  | .tables elements => some elements
  | _ => none

/-- An array of strings. -/
def decodeTexts (node : Node) : Decoded (List String) :=
  match node.items? with
  | some items => items.mapM (decodeText "a string")
  | none => wrongType node "a sequence"

/-- Decodes the value of an entry. A mismatch in a node without a place is reported at the key. -/
def decodeEntry {α : Type} (key : Key) (node : Node) (decode : Node → Decoded α) : Decoded α :=
  match decode node with
  | .ok value => .ok value
  | .error mismatch => .error { mismatch with span := mismatch.span <|> some key.span }

/-! ### Messages -/

/-- Spaces in a row. -/
def spaces (count : Nat) : String := String.ofList (List.replicate count ' ')

/-- The number of bytes of characters. -/
def byteCount (text : List Char) : Nat := (String.ofList text).utf8ByteSize

/-- The message of a mismatch at a place of a document: the line with its number, and marks below what
is meant, as far as it stands on that line. -/
def placed (text : List Char) (span : Span) (reason : String) : String :=
  let before := text.take (text.length - span.start)
  let number := before.count '\n' + 1
  let column := (before.reverse.takeWhile (· != '\n')).length
  let line := ((text.drop (before.length - column)).takeWhile (· != '\n'))
  let marked := (text.drop before.length).take (span.start - span.stop)
  let marks := max 1 (min (byteCount marked) (byteCount line - column))
  let gutter := spaces ((toString number).length + 1) ++ "|"
  "TOML parse error at line " ++ toString number ++ ", column " ++ toString (column + 1) ++ "\n"
    ++ gutter ++ "\n"
    ++ toString number ++ " | " ++ String.ofList line ++ "\n"
    ++ gutter ++ spaces (column + 1) ++ String.ofList (List.replicate marks '^') ++ "\n"
    ++ reason ++ "\n"

/-- The message of a mismatch in a document. -/
def Mismatch.message (text : List Char) (mismatch : Mismatch) : String :=
  match mismatch.span with
  | some span => placed text span mismatch.reason
  | none => mismatch.reason ++ "\n"

end ModPackager.Toml
