import ModPackager.Json.Reader

/-!
# Keys, strings, numbers and dates

Each reader takes a lexeme off the front of a text and gives what is left, or nothing if the text
does not begin with such a lexeme.
-/

namespace ModPackager.Toml

/-- Whether a character separates lexemes within a line. -/
def isGap (c : Char) : Bool := c == ' ' || c == '\t'

/-- Drops gaps. -/
def dropGaps (text : List Char) : List Char := text.dropWhile isGap

/-- Whether a character may stand in a comment or a literal string. -/
def isPlain (c : Char) : Bool := c == '\t' || (32 ≤ c.toNat && c.toNat != 127)

/-- Drops the end of a line. -/
def lineEnd? : List Char → Option (List Char)
  | '\n' :: rest => some rest
  | '\r' :: '\n' :: rest => some rest
  | _ => none

/-- Drops a comment up to the end of its line. -/
def dropComment : List Char → List Char
  | '#' :: rest => rest.dropWhile isPlain
  | text => text

/-! ### Strings -/

/-- The character of a one-letter escape. -/
def escapedChar? (c : Char) : Option Char :=
  match c with
  | 'b' => some '\x08'
  | 't' => some '\t'
  | 'n' => some '\n'
  | 'f' => some '\x0c'
  | 'r' => some '\r'
  | '"' => some '"'
  | '\\' => some '\\'
  | _ => none

/-- The character that hexadecimal digits stand for. -/
def codeChar? (digits : List Char) : Option Char := do
  let code ← digits.foldl
    (fun value c => do some (16 * (← value) + (← Json.Reader.hexValue? c))) (some 0)
  if code.isValidChar then some (Char.ofNat code) else none

/-- Puts a character in front of a text that was read. -/
def cons (c : Char) (read : Option (List Char × List Char)) : Option (List Char × List Char) :=
  read.map fun (text, rest) => (c :: text, rest)

/-- Reads a string with escapes after its opening quote. -/
def basicText : List Char → Option (List Char × List Char)
  | [] => none
  | '\\' :: 'u' :: a :: b :: c :: d :: rest => do
    cons (← codeChar? [a, b, c, d]) (basicText rest)
  | '\\' :: 'U' :: a :: b :: c :: d :: e :: f :: g :: h :: rest => do
    cons (← codeChar? [a, b, c, d, e, f, g, h]) (basicText rest)
  | '\\' :: c :: rest => do cons (← escapedChar? c) (basicText rest)
  | c :: rest =>
    if c == '"' then some ([], rest)
    else if isPlain c then cons c (basicText rest)
    else none

/-- Reads a string of several lines with escapes after its opening quotes and their line end. `gap`
says that a backslash has ended a line: whitespace is dropped up to the next character. -/
def basicBlock (gap : Bool) : List Char → Option (List Char × List Char)
  | [] => none
  | '"' :: '"' :: '"' :: '"' :: '"' :: rest => some (['"', '"'], rest)
  | '"' :: '"' :: '"' :: '"' :: rest => some (['"'], rest)
  | '"' :: '"' :: '"' :: rest => some ([], rest)
  | '\\' :: 'u' :: a :: b :: c :: d :: rest => do
    cons (← codeChar? [a, b, c, d]) (basicBlock false rest)
  | '\\' :: 'U' :: a :: b :: c :: d :: e :: f :: g :: h :: rest => do
    cons (← codeChar? [a, b, c, d, e, f, g, h]) (basicBlock false rest)
  | '\\' :: c :: rest =>
    match escapedChar? c with
    | some decoded => cons decoded (basicBlock false rest)
    | none =>
      if (lineEnd? (dropGaps (c :: rest))).isSome then basicBlock true rest else none
  | '\r' :: '\n' :: rest => if gap then basicBlock true rest else cons '\n' (basicBlock false rest)
  | c :: rest =>
    if gap && (isGap c || c == '\n') then basicBlock true rest
    else if isPlain c || c == '\n' then cons c (basicBlock false rest)
    else none

/-- Reads a literal string after its opening quote. -/
def literalText : List Char → Option (List Char × List Char)
  | [] => none
  | c :: rest =>
    if c == '\x27' then some ([], rest)
    else if isPlain c then cons c (literalText rest)
    else none

/-- Reads a literal string of several lines after its opening quotes and their line end. -/
def literalBlock : List Char → Option (List Char × List Char)
  | [] => none
  | '\x27' :: '\x27' :: '\x27' :: '\x27' :: '\x27' :: rest => some (['\x27', '\x27'], rest)
  | '\x27' :: '\x27' :: '\x27' :: '\x27' :: rest => some (['\x27'], rest)
  | '\x27' :: '\x27' :: '\x27' :: rest => some ([], rest)
  | '\r' :: '\n' :: rest => cons '\n' (literalBlock rest)
  | c :: rest => if isPlain c || c == '\n' then cons c (literalBlock rest) else none

/-- Drops the end of a line that follows opening quotes. -/
def dropFirstLineEnd (text : List Char) : List Char := (lineEnd? text).getD text

/-- Reads a string of any kind. -/
def string? : List Char → Option (List Char × List Char)
  | '"' :: '"' :: '"' :: rest => basicBlock false (dropFirstLineEnd rest)
  | '"' :: rest => basicText rest
  | '\x27' :: '\x27' :: '\x27' :: rest => literalBlock (dropFirstLineEnd rest)
  | '\x27' :: rest => literalText rest
  | _ => none

/-! ### Keys -/

/-- Whether a character may stand in a key without quotes. -/
def isBare (c : Char) : Bool := c.isAlphanum || c == '-' || c == '_'

/-- Reads one part of a key. -/
def keyPart? (text : List Char) : Option (List Char × List Char) :=
  match text with
  | '"' :: rest => basicText rest
  | '\x27' :: rest => literalText rest
  | _ =>
    let name := text.takeWhile isBare
    if name.isEmpty then none else some (name, text.dropWhile isBare)

/-! ### Numbers -/

/-- Reads digits, between which single underscores may stand. -/
def digits? (isDigit : Char → Bool) : List Char → Option (List Char × List Char)
  | [] => none
  | c :: '_' :: rest =>
    if isDigit c then
      match digits? isDigit rest with
      | some (more, left) => some (c :: more, left)
      | none => some ([c], '_' :: rest)
    else none
  | c :: rest =>
    if isDigit c then
      match digits? isDigit rest with
      | some (more, left) => some (c :: more, left)
      | none => some ([c], rest)
    else none

/-- The number that digits of a base stand for. -/
def numberOf (base : Nat) (digits : List Char) : Nat :=
  digits.foldl (fun value c => base * value + (Json.Reader.hexValue? c).getD 0) 0

/-- Reads a sign; says whether it is a minus. -/
def sign : List Char → Bool × List Char
  | '+' :: rest => (false, rest)
  | '-' :: rest => (true, rest)
  | text => (false, text)

/-- Reads the digits of a decimal integer, which begin with zero only if that is all. -/
def decimalDigits? (text : List Char) : Option (List Char × List Char) :=
  match text with
  | '0' :: rest => some (['0'], rest)
  | _ => digits? Char.isDigit text

/-- An integer of 64 bits. -/
def bounded? (value : Int) : Option Int :=
  if Int64.minValue.toInt ≤ value && value ≤ Int64.maxValue.toInt then some value else none

/-- Reads an integer. -/
def integer? (text : List Char) : Option (Int × List Char) :=
  let radix (base : Nat) (isDigit : Char → Bool) (rest : List Char) := do
    let (digits, left) ← digits? isDigit rest
    some (← bounded? (numberOf base digits), left)
  match text with
  | '0' :: 'x' :: rest => radix 16 (fun c => (Json.Reader.hexValue? c).isSome) rest
  | '0' :: 'o' :: rest => radix 8 (fun c => '0' ≤ c ∧ c ≤ '7') rest
  | '0' :: 'b' :: rest => radix 2 (fun c => c == '0' || c == '1') rest
  | _ => do
    let (negative, rest) := sign text
    let (digits, left) ← decimalDigits? rest
    let value : Int := numberOf 10 digits
    some (← bounded? (if negative then -value else value), left)

/-- Reads the digits after a point. -/
def fraction? : List Char → Option (List Char × List Char)
  | '.' :: rest => digits? Char.isDigit rest
  | _ => none

/-- Reads an exponent. -/
def exponent? (text : List Char) : Option (Int × List Char) :=
  match text with
  | mark :: rest =>
    if mark == 'e' || mark == 'E' then do
      let (negative, rest) := sign rest
      let (digits, left) ← digits? Char.isDigit rest
      let value : Int := numberOf 10 digits
      some (if negative then -value else value, left)
    else none
  | [] => none

/-- The double nearest to `significand · 10^exponent`. An exponent far out of range gives the limit
at once. -/
def nearest (significand : Nat) (exponent : Int) : Float :=
  let leading := exponent + Int.ofNat (Nat.repr significand).length
  if significand = 0 || leading < -400 then 0.0
  else if 400 < leading then 1.0 / 0.0
  else Float.ofScientific significand (exponent < 0) exponent.natAbs

/-- Reads a number with a point or an exponent. A positive one must not be too large. -/
def decimal? (text : List Char) : Option (Float × List Char) := do
  let (negative, rest) := sign text
  let (whole, rest) ← decimalDigits? rest
  let (part, scale, left) ←
    match exponent? rest with
    | some (scale, left) => some ([], scale, left)
    | none => do
      let (part, left) ← fraction? rest
      match exponent? left with
      | some (scale, left) => some (part, scale, left)
      | none => some (part, 0, left)
  let value := nearest (numberOf 10 (whole ++ part)) (scale - part.length)
  if negative then some (-value, left)
  else if value.isInf then none
  else some (value, left)

/-- Drops a given word. -/
def word? (word text : List Char) : Option (List Char) :=
  if word.isPrefixOf text then some (text.drop word.length) else none

/-- Reads a number that is written as a word. -/
def special? (text : List Char) : Option (Float × List Char) :=
  let (negative, rest) := sign text
  match word? "inf".toList rest, word? "nan".toList rest with
  | some left, _ => some (if negative then -1.0 / 0.0 else 1.0 / 0.0, left)
  | none, some left => some (0.0 / 0.0, left)
  | none, none => none

/-! ### Dates and times -/

/-- Reads a number of exactly `count` digits within bounds. -/
def field? (count low high : Nat) (text : List Char) : Option (Nat × List Char) :=
  let digits := text.take count
  let value := numberOf 10 digits
  if digits.length = count && digits.all Char.isDigit && low ≤ value && value ≤ high then
    some (value, text.drop count)
  else none

/-- Drops a given character. -/
def mark? (c : Char) : List Char → Option (List Char)
  | d :: rest => if d == c then some rest else none
  | [] => none

/-- The number of days of a month. -/
def daysIn (year month : Nat) : Nat :=
  if month = 2 then
    if year % 4 = 0 && (year % 100 != 0 || year % 400 = 0) then 29 else 28
  else if month = 4 || month = 6 || month = 9 || month = 11 then 30
  else 31

/-- Drops a date. -/
def date? (text : List Char) : Option (List Char) := do
  let (year, rest) ← field? 4 0 9999 text
  let (month, rest) ← field? 2 1 12 (← mark? '-' rest)
  let (_, rest) ← field? 2 1 (daysIn year month) (← mark? '-' rest)
  some rest

/-- Drops a time of day. -/
def time? (text : List Char) : Option (List Char) := do
  let (_, rest) ← field? 2 0 23 text
  let (_, rest) ← field? 2 0 59 (← mark? ':' rest)
  let (_, rest) ← field? 2 0 60 (← mark? ':' rest)
  match rest with
  | '.' :: fraction =>
    if (fraction.head?).any Char.isDigit then some (fraction.dropWhile Char.isDigit) else none
  | _ => some rest

/-- Drops an offset from universal time. -/
def offset? : List Char → Option (List Char)
  | [] => none
  | c :: rest =>
    if c == 'Z' || c == 'z' then some rest
    else if c == '+' || c == '-' then do
      let (_, rest) ← field? 2 0 23 rest
      let (_, rest) ← field? 2 0 59 (← mark? ':' rest)
      some rest
    else none

/-- Drops a date, a time, or a date with a time and perhaps an offset. -/
def dateTime? (text : List Char) : Option (List Char) :=
  match date? text with
  | none => time? text
  | some rest =>
    match rest with
    | c :: after =>
      if c == 'T' || c == 't' || c == ' ' then
        match time? after with
        | some left => some ((offset? left).getD left)
        | none => some rest
      else some rest
    | [] => some rest

end ModPackager.Toml
