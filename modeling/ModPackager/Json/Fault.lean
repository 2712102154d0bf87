import ModPackager.Json.Value
import ModPackager.Text.Quoted

/-!
# What can be wrong with a document

A fault is a breach of the grammar, or a value that is not of the form that its place asks for. A
message ends with the fault's place: the line, counted from one, and the bytes passed on that line.
-/

namespace ModPackager.Json

/-- A value as a message about its type names it. -/
inductive Found
  | null
  | bool (value : Bool)
  | number (value : Json.Number)
  | string (value : String)
  | sequence
  | map

/-- How a message names a value. -/
def Found.describe : Found → String
  | .null => "null"
  | .bool value => "boolean `" ++ (if value then "true" else "false") ++ "`"
  | .number (.double x) => "floating point `" ++ doubleText x ++ "`"
  | .number n => "integer `" ++ n.text ++ "`"
  | .string value => "string " ++ Text.quoted value
  | .sequence => "sequence"
  | .map => "map"

/-- Why a text is not the document that was asked for. -/
inductive Fault
  | endInList
  | endInObject
  | endInString
  | endInValue
  | colonExpected
  | listEndExpected
  | objectEndExpected
  | wordExpected
  | valueExpected
  | keyExpected
  | trailingComma
  | trailingText
  | invalidNumber
  | numberTooLarge
  | invalidEscape
  /-- Half of a surrogate pair that nothing follows. -/
  | escapeExpected
  | loneSurrogate
  | controlCharacter
  /-- Too many brackets inside each other. -/
  | tooDeep
  | wrongType (found : Found) (expected : String)
  | wrongLength (length : Nat) (expected : String)
  | missingField (name : String)
  | duplicateField (name : String)
  /-- A value that fits none of the forms of a choice. -/
  | noVariant (choice : String)

/-- The message of a fault. -/
def Fault.message : Fault → String
  | .endInList => "EOF while parsing a list"
  | .endInObject => "EOF while parsing an object"
  | .endInString => "EOF while parsing a string"
  | .endInValue => "EOF while parsing a value"
  | .colonExpected => "expected `:`"
  | .listEndExpected => "expected `,` or `]`"
  | .objectEndExpected => "expected `,` or `\x7d`"
  | .wordExpected => "expected ident"
  | .valueExpected => "expected value"
  | .keyExpected => "key must be a string"
  | .trailingComma => "trailing comma"
  | .trailingText => "trailing characters"
  | .invalidNumber => "invalid number"
  | .numberTooLarge => "number out of range"
  | .invalidEscape => "invalid escape"
  | .escapeExpected => "unexpected end of hex escape"
  | .loneSurrogate => "lone leading surrogate in hex escape"
  | .controlCharacter => "control character (\\u0000-\\u001F) found while parsing a string"
  | .tooDeep => "recursion limit exceeded"
  | .wrongType found expected => "invalid type: " ++ found.describe ++ ", expected " ++ expected
  | .wrongLength length expected =>
    "invalid length " ++ Nat.repr length ++ ", expected " ++ expected
  | .missingField name => "missing field `" ++ name ++ "`"
  | .duplicateField name => "duplicate field `" ++ name ++ "`"
  | .noVariant choice => "data did not match any variant of untagged enum " ++ choice

/-- A place in a text: its line, counted from one, and the bytes before it on that line. -/
structure Place where
  line : Nat
  column : Nat
deriving DecidableEq, Repr

/-- The place behind a number of bytes of a text that begins at `place`. -/
def Place.after (place : Place) (bytes : Nat) : List Char → Place
  | [] => place
  | c :: rest =>
    if bytes < c.utf8Size then { place with column := place.column + bytes }
    else
      let next : Place :=
        if c == '\n' then ⟨place.line + 1, 0⟩ else ⟨place.line, place.column + c.utf8Size⟩
      next.after (bytes - c.utf8Size) rest

/-- The number of bytes of a text. -/
def byteLength (text : List Char) : Nat := text.foldl (fun bytes c => bytes + c.utf8Size) 0

/-- A fault and how many bytes of the text lie behind it, once that is known. -/
structure Problem where
  fault : Fault
  left : Option Nat := none

/-- The message of a problem with a text. -/
def Problem.message (problem : Problem) (text : List Char) : String :=
  let place := Place.after ⟨1, 0⟩ (byteLength text - problem.left.getD 0) text
  problem.fault.message ++ " at line " ++ Nat.repr place.line
    ++ " column " ++ Nat.repr place.column

end ModPackager.Json
