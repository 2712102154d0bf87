import ModPackager.Decimal.Shortest

/-!
# JSON values and their text

A value keeps the members of an object in the order in which they were written. Numbers are integers
of 64 bits or doubles. The text is indented by two spaces; a double is written with the fewest digits
that read back, always with a point or an exponent.
-/

namespace ModPackager

/-- A JSON number. -/
inductive Json.Number
  /-- An integer that is zero or more. -/
  | nonnegative (n : UInt64)
  /-- The negated value of a positive integer. -/
  | negative (n : UInt64)
  /-- A finite double. -/
  | double (x : Float)

/-- A JSON value. -/
inductive Json
  | null
  | bool (value : Bool)
  | number (value : Json.Number)
  | string (value : String)
  | array (items : List Json)
  | object (members : List (String × Json))

namespace Json

/-! ### Numbers -/

/-- The digits of a positive decimal around its point: positional while the leading digit's exponent
is from `-5` to `15`, otherwise with one digit before the point and an exponent with its sign. -/
def decimalText (d : Decimal) : String :=
  let digits := (Nat.repr d.digits).toList
  let leading := d.exponent + Int.ofNat digits.length - 1
  let zeros (n : Nat) := List.replicate n '0'
  let chars :=
    if leading < -5 || 15 < leading then
      let mantissa := match digits with
        | [] => []
        | [digit] => [digit]
        | digit :: rest => digit :: '.' :: rest
      let sign := if leading < 0 then '-' else '+'
      mantissa ++ 'e' :: sign :: (Nat.repr leading.natAbs).toList
    else if 0 ≤ d.exponent then digits ++ zeros d.exponent.toNat ++ ['.', '0']
    else if 0 ≤ leading then
      digits.take (leading.toNat + 1) ++ '.' :: digits.drop (leading.toNat + 1)
    else '0' :: '.' :: zeros (-leading - 1).toNat ++ digits
  String.ofList chars

/-- The text of a finite double. -/
def doubleText (x : Float) : String :=
  let sign := if x.toBits.toNat < Decimal.twoTo 63 then "" else "-"
  if x == 0.0 then sign ++ "0.0" else sign ++ decimalText (Decimal.ofFloat x.abs)

/-- The text of a number. -/
def Number.text : Number → String
  | nonnegative n => Nat.repr n.toNat
  | negative n => "-" ++ Nat.repr n.toNat
  | double x => doubleText x

/-! ### Strings -/

/-- A lower-case hexadecimal digit. -/
def hexDigit (n : Nat) : Char := Nat.digitChar (n % 16)

/-- One character of a string: quotes, backslashes and control characters are escaped. -/
def escapeChar (c : Char) : List Char :=
  if c == '"' then ['\\', '"']
  else if c == '\\' then ['\\', '\\']
  else if c == '\n' then ['\\', 'n']
  else if c == '\r' then ['\\', 'r']
  else if c == '\t' then ['\\', 't']
  else if c == '\x08' then ['\\', 'b']
  else if c == '\x0c' then ['\\', 'f']
  else if c.toNat < 32 then
    ['\\', 'u', '0', '0', hexDigit (c.toNat / 16), hexDigit c.toNat]
  else [c]

/-- A string between its quotes. -/
def quote (text : String) : String :=
  String.ofList ('"' :: text.toList.flatMap escapeChar ++ ['"'])

/-! ### Documents -/

/-- A line break followed by the indentation of a level. -/
def newline (level : Nat) : String := "\n" ++ String.ofList (List.replicate (2 * level) ' ')

mutual

/-- The text of a value whose own line is indented by `level`. -/
def renderAt (level : Nat) : Json → String
  | .null => "null"
  | .bool value => if value then "true" else "false"
  | .number value => value.text
  | .string value => quote value
  | .array [] => "[]"
  | .array (item :: rest) =>
    "[" ++ newline (level + 1) ++ renderAt (level + 1) item ++ renderItems (level + 1) rest
      ++ newline level ++ "]"
  | .object [] => "\x7b\x7d"
  | .object ((key, value) :: rest) =>
    "\x7b" ++ newline (level + 1) ++ quote key ++ ": " ++ renderAt (level + 1) value
      ++ renderMembers (level + 1) rest ++ newline level ++ "\x7d"

/-- The items after the first one, each on a line of its own. -/
def renderItems (level : Nat) : List Json → String
  | [] => ""
  | item :: rest => "," ++ newline level ++ renderAt level item ++ renderItems level rest

/-- The members after the first one, each on a line of its own. -/
def renderMembers (level : Nat) : List (String × Json) → String
  | [] => ""
  | (key, value) :: rest =>
    "," ++ newline level ++ quote key ++ ": " ++ renderAt level value ++ renderMembers level rest

end

/-- The text of a document, without a line break at its end. -/
def render (value : Json) : String := renderAt 0 value

/-- A natural number as a JSON value. -/
def ofNat (n : Nat) : Json := .number (.nonnegative n.toUInt64)

/-- Strings as an array. -/
def ofStrings (items : List String) : Json := .array (items.map .string)

/-- Sets a member: a new key goes last, a known key keeps its place. -/
def setMember (members : List (String × Json)) (key : String) (value : Json) :
    List (String × Json) :=
  match members with
  | [] => [(key, value)]
  | (known, old) :: rest =>
    if known == key then (known, value) :: rest else (known, old) :: setMember rest key value

end Json

end ModPackager
