import ModPackager.Json.Fault

/-!
# Reading documents

A reader works on the text that is left. A breach of the grammar has its place at once, either behind
what was read or behind the next byte; a value of a wrong form gets its place from the value around
it, which is first read to its end as far as that is possible.

Numbers keep 64 bits of their digits: what does not fit an integer becomes a double by one
multiplication or division with a power of ten.
-/

namespace ModPackager.Json

/-- A reader of what is left of a text. A reader that fails keeps its place. -/
abbrev Reader := EStateM Problem (List Char)

namespace Reader

/-! ### Faults and characters -/

/-- Fails without a place. -/
def fail {α : Type} (fault : Fault) : Reader α := throw { fault }

/-- Fails behind what was read. -/
def failHere {α : Type} (fault : Fault) : Reader α := do
  throw ⟨fault, some (byteLength (← get))⟩

/-- Fails behind the next byte, or at the end of the text. -/
def failAhead {α : Type} (fault : Fault) : Reader α := do
  throw ⟨fault, some (byteLength (← get) - 1)⟩

/-- Gives a fault without a place the place where the reader failed. -/
def located {α : Type} (reader : Reader α) : Reader α := fun text =>
  match reader text with
  | .ok result rest => .ok result rest
  | .error problem rest =>
    .error { problem with left := problem.left <|> some (byteLength rest) } rest

/-- Reads `closing` after `body`, even when the body failed; the body's problem goes first. -/
def enclosed {α : Type} (body : Reader α) (closing : Reader Unit) : Reader α := fun text =>
  match body text with
  | .ok result rest =>
    match closing rest with
    | .ok () rest => .ok result rest
    | .error problem rest => .error problem rest
  | .error problem rest =>
    match closing rest with
    | .ok () rest => .error problem rest
    | .error _ rest => .error problem rest

/-- The next character. -/
def peek : Reader (Option Char) := return (← get).head?

/-- Passes the next character. -/
def skip : Reader Unit := modify (·.drop 1)

/-- Passes and gives the next character. -/
def next : Reader (Option Char) := do
  let c ← peek
  skip
  return c

/-- Whether a character stands between values without meaning. -/
def isSpace (c : Char) : Bool := c == ' ' || c == '\n' || c == '\t' || c == '\r'

/-- Passes whitespace and gives the next character. -/
def peekValue : Reader (Option Char) := do
  modify (·.dropWhile isSpace)
  peek

/-- Passes the rest of a word. -/
def word : List Char → Reader Unit
  | [] => return ()
  | expected :: rest => do
    match ← next with
    | none => failHere .endInValue
    | some c => if c == expected then word rest else failHere .wordExpected

/-! ### Strings -/

/-- The value of a hexadecimal digit. -/
def hexValue? (c : Char) : Option Nat :=
  if c.isDigit then some (c.toNat - '0'.toNat)
  else if 'a' ≤ c ∧ c ≤ 'f' then some (c.toNat - 'a'.toNat + 10)
  else if 'A' ≤ c ∧ c ≤ 'F' then some (c.toNat - 'A'.toNat + 10)
  else none

/-- The value of four hexadecimal digits. -/
def hexUnit? (text : List Char) : Option Nat :=
  match text with
  | [a, b, c, d] => do
    return 4096 * (← hexValue? a) + 256 * (← hexValue? b) + 16 * (← hexValue? c) + (← hexValue? d)
  | _ => none

/-- Reads the four digits of an escape. Anything else fails behind its four bytes. -/
def hexUnit : Reader Nat := do
  let text ← get
  match hexUnit? (text.take 4) with
  | some unit =>
    set (text.drop 4)
    return unit
  | none =>
    if byteLength text < 4 then throw ⟨.endInString, some 0⟩
    else throw ⟨.invalidEscape, some (byteLength text - 4)⟩

/-- Fails with the next byte passed. -/
def failBehindByte {α : Type} (fault : Fault) : Reader α := failAhead fault

/-- The character of a one-letter escape. -/
def escapedChar? (c : Char) : Option Char :=
  match c with
  | '"' => some '"'
  | '\\' => some '\\'
  | '/' => some '/'
  | 'b' => some '\x08'
  | 'f' => some '\x0c'
  | 'n' => some '\n'
  | 'r' => some '\r'
  | 't' => some '\t'
  | _ => none

/-- Reads a numeric escape after its letter; two escapes may form one character. -/
def numericEscape : Reader Char := do
  let unit ← hexUnit
  if 0xDC00 ≤ unit && unit ≤ 0xDFFF then failHere .loneSurrogate
  else if unit < 0xD800 || 0xDBFF < unit then return Char.ofNat unit
  else
    half '\\'
    half 'u'
    let second ← hexUnit
    if second < 0xDC00 || 0xDFFF < second then failHere .loneSurrogate
    else return Char.ofNat ((unit - 0xD800) * 1024 + (second - 0xDC00) + 0x10000)
where
  /-- Passes a character of the second escape. -/
  half (expected : Char) : Reader Unit := do
    match ← peek with
    | none => failHere .endInString
    | some c => if c == expected then skip else failBehindByte .escapeExpected

/-- Reads an escape after its backslash. -/
def escape : Reader Char := do
  match ← peek with
  | none => failHere .endInString
  | some 'u' =>
    skip
    numericEscape
  | some c =>
    match escapedChar? c with
    | some decoded =>
      skip
      return decoded
    | none => failBehindByte .invalidEscape

/-- Reads a string after its opening quote, at most `fuel` characters of it, behind the characters
in `passed`, last first. -/
def stringFrom (passed : List Char) : Nat → Reader String
  | 0 => failHere .endInString
  | fuel + 1 => do
    match ← peek with
    | none => failHere .endInString
    | some '"' =>
      skip
      return String.ofList passed.reverse
    | some '\\' =>
      skip
      let c ← escape
      stringFrom (c :: passed) fuel
    | some c =>
      if c.toNat < 32 then failBehindByte .controlCharacter
      else
        skip
        stringFrom (c :: passed) fuel

/-- Reads a string after its opening quote. -/
def string : Reader String := do stringFrom [] ((← get).length + 1)

/-- Passes a string after its opening quote without decoding its escapes, at most `fuel` characters
of it. -/
def skipStringFrom : Nat → Reader Unit
  | 0 => failHere .endInString
  | fuel + 1 => do
    match ← peek with
    | none => failHere .endInString
    | some '"' => skip
    | some '\\' =>
      skip
      match ← peek with
      | none => failHere .endInString
      | some 'u' =>
        skip
        let _ ← hexUnit
        skipStringFrom fuel
      | some c =>
        if (escapedChar? c).isSome then
          skip
          skipStringFrom fuel
        else failBehindByte .invalidEscape
    | some c =>
      if c.toNat < 32 then failHere .controlCharacter
      else
        skip
        skipStringFrom fuel

/-- Passes a string after its opening quote. -/
def skipString : Reader Unit := do skipStringFrom ((← get).length + 1)

/-! ### Numbers -/

/-- Whether the next character is a digit. -/
def atDigit : Reader Bool := return (← peek).any Char.isDigit

/-- Passes digits. -/
def skipDigits : Reader Unit := modify (·.dropWhile Char.isDigit)

/-- The value of a digit. -/
def digitValue (c : Char) : Nat := c.toNat - '0'.toNat

/-- The largest integer of 64 bits. -/
def maxUnsigned : Nat := UInt64.size - 1

/-- Takes digits as long as the number that they continue fits 64 bits. Gives the number and how many
digits were taken. -/
def takeDigits (significand : Nat) : List Char → Nat × Nat × List Char
  | c :: rest =>
    let grown := significand * 10 + digitValue c
    if c.isDigit && grown ≤ maxUnsigned then
      let (value, count, left) := takeDigits grown rest
      (value, count + 1, left)
    else (significand, 0, c :: rest)
  | [] => (significand, 0, [])

/-- A power of ten as a double. -/
def powerOfTen (exponent : Nat) : Float := Float.ofScientific 1 false exponent

/-- The double `f · 10^exponent`, by steps that each stay in range; nothing if it is too large. -/
def scale (f : Float) (exponent : Int) : Nat → Option Float
  | 0 => some f
  | fuel + 1 =>
    if exponent.natAbs ≤ 308 then
      if 0 ≤ exponent then
        let scaled := f * powerOfTen exponent.toNat
        if scaled.isInf then none else some scaled
      else some (f / powerOfTen exponent.natAbs)
    else if f == 0.0 then some f
    else if 0 ≤ exponent then none
    else scale (f / powerOfTen 308) (exponent + 308) fuel

/-- The number of given digits and exponent. -/
def double (positive : Bool) (significand : Nat) (exponent : Int) : Reader Json.Number := do
  match scale (significand.toUInt64.toFloat) exponent (exponent.natAbs / 308 + 2) with
  | some f => return .double (if positive then f else -f)
  | none => failHere .numberTooLarge

/-- The largest exponent that is read digit by digit: the largest integer of 32 bits. -/
def maxExponent : Nat := 2147483647

/-- Takes the digits of an exponent; nothing if it grows too large, which is seen when the digit that
does it has been passed. -/
def takeExponent (value : Nat) : List Char → Option Nat × List Char
  | c :: rest =>
    if c.isDigit then
      let grown := value * 10 + digitValue c
      if maxExponent < grown then (none, rest) else takeExponent grown rest
    else (some value, c :: rest)
  | [] => (some value, [])

/-- Reads an exponent from its letter on. -/
def exponent (positive : Bool) (significand : Nat) (start : Int) : Reader Json.Number := do
  skip
  let sign ← peek
  if sign == some '+' || sign == some '-' then skip
  let upwards := sign != some '-'
  match ← next with
  | none => failHere .endInValue
  | some c =>
    if !c.isDigit then failHere .invalidNumber
    else
      let (value, rest) := takeExponent (digitValue c) (← get)
      set rest
      match value with
      | some value =>
        double positive significand (if upwards then start + value else start - value)
      | none =>
        if significand != 0 && upwards then failHere .numberTooLarge
        else
          skipDigits
          return .double (if positive then 0.0 else -0.0)

/-- Reads an exponent, if there is one, behind digits with a given exponent. -/
def exponent? (positive : Bool) (significand : Nat) (start : Int) : Reader Json.Number := do
  let mark ← peek
  if mark == some 'e' || mark == some 'E' then exponent positive significand start
  else double positive significand start

/-- Reads the digits after a point, and an exponent. Digits that do not fit are passed over. -/
def fraction (positive : Bool) (significand : Nat) (start : Int) : Reader Json.Number := do
  skip
  let (value, count, rest) := takeDigits significand (← get)
  set rest
  if ← atDigit then
    skipDigits
    exponent? positive value (start - count)
  else if count == 0 then
    match ← peek with
    | some _ => failAhead .invalidNumber
    | none => failAhead .endInValue
  else exponent? positive value (start - count)

/-- Reads what follows the leading digits of a number. -/
def numberRest (positive : Bool) (significand : Nat) : Reader Json.Number := do
  match ← peek with
  | some '.' => fraction positive significand 0
  | some 'e' | some 'E' => exponent positive significand 0
  | _ =>
    if positive then return .nonnegative significand.toUInt64
    else if significand == 0 || UInt64.size / 2 < significand then
      return .double (-significand.toUInt64.toFloat)
    else return .negative significand.toUInt64

/-- Reads a number after its sign. -/
def number (positive : Bool) : Reader Json.Number := do
  match ← next with
  | none => failHere .endInValue
  | some c =>
    if c == '0' then
      if ← atDigit then failAhead .invalidNumber else numberRest positive 0
    else if c.isDigit then
      let (significand, _, rest) := takeDigits (digitValue c) (← get)
      set rest
      if ← atDigit then
        let digits := rest.takeWhile Char.isDigit
        skipDigits
        let extra := Int.ofNat digits.length
        if (← peek) == some '.' then fraction positive significand extra
        else exponent? positive significand extra
      else numberRest positive significand
    else failHere .invalidNumber

/-- Passes an exponent from its letter on. -/
def skipExponent : Reader Unit := do
  skip
  let sign ← peek
  if sign == some '+' || sign == some '-' then skip
  if (← next).any Char.isDigit then skipDigits else failHere .invalidNumber

/-- Passes an exponent, if there is one. -/
def skipExponent? : Reader Unit := do
  let mark ← peek
  if mark == some 'e' || mark == some 'E' then skipExponent

/-- Passes a number after its sign. -/
def skipNumber : Reader Unit := do
  let first ← next
  if first == some '0' then
    if ← atDigit then failAhead .invalidNumber
  else if first.any Char.isDigit then skipDigits
  else failHere .invalidNumber
  if (← peek) == some '.' then
    skip
    unless ← atDigit do failAhead .invalidNumber
    skipDigits
  skipExponent?

/-! ### Lists and objects -/

/-- Whether another item of a list follows; `first` says that none was read yet. -/
def moreItems (first : Bool) : Reader Bool := do
  match ← peekValue with
  | none => failAhead .endInList
  | some ']' => return false
  | some c =>
    if first then return true
    else if c == ',' then
      skip
      match ← peekValue with
      | some ']' => failAhead .trailingComma
      | some _ => return true
      | none => failAhead .endInValue
    else failAhead .listEndExpected

/-- Whether another member of an object follows; `first` says that none was read yet. -/
def moreMembers (first : Bool) : Reader Bool := do
  match ← peekValue with
  | none => failAhead .endInObject
  | some '}' => return false
  | some c =>
    if first then
      if c == '"' then return true else failAhead .keyExpected
    else if c == ',' then
      skip
      match ← peekValue with
      | some '"' => return true
      | some '}' => failAhead .trailingComma
      | some _ => failAhead .keyExpected
      | none => failAhead .endInValue
    else failAhead .objectEndExpected

/-- Reads a key, from its quote on. -/
def key : Reader String := do
  skip
  string

/-- Passes the colon between a key and its value. -/
def colon : Reader Unit := do
  match ← peekValue with
  | some ':' => skip
  | some _ => failAhead .colonExpected
  | none => failAhead .endInObject

/-- Passes the end of a list. -/
def listEnd : Reader Unit := do
  match ← peekValue with
  | some ']' => skip
  | some ',' =>
    skip
    match ← peekValue with
    | some ']' => failAhead .trailingComma
    | _ => failAhead .trailingText
  | some _ => failAhead .trailingText
  | none => failAhead .endInList

/-- Passes the end of an object. -/
def objectEnd : Reader Unit := do
  match ← peekValue with
  | some '}' => skip
  | some ',' => failAhead .trailingComma
  | some _ => failAhead .trailingText
  | none => failAhead .endInObject

/-- Reads the items that are left of a list, at most `fuel` of them. -/
def itemsFrom {α : Type} (item : Reader α) (first : Bool) : Nat → Reader (List α)
  | 0 => return []
  | fuel + 1 => do
    if ← moreItems first then
      let found ← item
      return found :: (← itemsFrom item false fuel)
    else return []

/-- Reads the members that are left of an object, at most `fuel` of them. -/
def membersFrom {α : Type} (value : Reader α) (first : Bool) : Nat → Reader (List (String × α))
  | 0 => return []
  | fuel + 1 => do
    if ← moreMembers first then
      let name ← key
      colon
      let found ← value
      return (name, found) :: (← membersFrom value false fuel)
    else return []

/-! ### Values -/

/-- Reads any value, where `inner` reads what stands inside brackets; without it brackets nest too
deep. -/
def valueWith (inner : Option (Reader Json)) : Reader Json := do
  match ← peekValue with
  | none => failAhead .endInValue
  | some 'n' =>
    skip
    word "ull".toList
    return .null
  | some 't' =>
    skip
    word "rue".toList
    return .bool true
  | some 'f' =>
    skip
    word "alse".toList
    return .bool false
  | some '"' =>
    skip
    return .string (← string)
  | some '-' =>
    skip
    return .number (← number false)
  | some c =>
    if c == '[' || c == '{' then
      match inner with
      | none => failAhead .tooDeep
      | some inner =>
        skip
        let fuel := (← get).length + 1
        if c == '[' then return .array (← enclosed (itemsFrom inner true fuel) listEnd)
        else return .object (← enclosed (membersFrom inner true fuel) objectEnd)
    else if c.isDigit then return .number (← number true)
    else failAhead .valueExpected

/-- Reads any value with at most `depth` brackets inside each other. A repeated member is kept. -/
def value : Nat → Reader Json
  | 0 => valueWith none
  | depth + 1 => valueWith (some (value depth))

/-- A bracket that is open while a value is passed over. -/
inductive Bracket
  | list
  | object
deriving DecidableEq

/-- Passes values and brackets until the brackets in `opened`, innermost first, are closed; `inside`
says that the innermost bracket has just been opened and `atValue` that a value comes next. -/
def skipFrom : Nat → List Bracket → Bool → Bool → Reader Unit
  | 0, _, _, _ => failHere .endInValue
  | fuel + 1, opened, inside, atValue => do
    if atValue then
      match ← peekValue with
      | none => failAhead .endInValue
      | some '[' =>
        skip
        skipFrom fuel (.list :: opened) true false
      | some '{' =>
        skip
        skipFrom fuel (.object :: opened) true false
      | some c =>
        scalar c
        skipFrom fuel opened false false
    else
      match opened with
      | [] => return ()
      | bracket :: outer =>
        match bracket, ← peekValue with
        | .list, some ']' =>
          skip
          skipFrom fuel outer false false
        | .object, some '}' =>
          skip
          skipFrom fuel outer false false
        | .list, none => failAhead .endInList
        | .object, none => failAhead .endInObject
        | bracket, some c =>
          if inside then pure ()
          else if c == ',' then skip
          else failAhead (if bracket = .list then .listEndExpected else .objectEndExpected)
          if bracket = .object then skipKey
          skipFrom fuel opened false true
where
  /-- Passes a value without brackets that begins with `c`. -/
  scalar (c : Char) : Reader Unit := do
    match c with
    | 'n' =>
      skip
      word "ull".toList
    | 't' =>
      skip
      word "rue".toList
    | 'f' =>
      skip
      word "alse".toList
    | '"' =>
      skip
      skipString
    | '-' =>
      skip
      skipNumber
    | c => if c.isDigit then skipNumber else failAhead .valueExpected
  /-- Passes a key and its colon. -/
  skipKey : Reader Unit := do
    match ← peekValue with
    | some '"' =>
      skip
      skipString
      colon
    | some _ => failAhead .keyExpected
    | none => failAhead .endInObject

/-- Passes over any value, however deep its brackets nest. -/
def skipValue : Reader Unit := do skipFrom (2 * (← get).length + 2) [] false true

/-! ### Values of a given form -/

/-- Fails because the next value is not of the form that `expected` describes. The value is named as
far as it was read. -/
def wrongType {α : Type} (expected : String) : Reader α := located do
  let refuse (found : Found) : Reader α := fail (.wrongType found expected)
  match ← peek with
  | some 'n' =>
    skip
    word "ull".toList
    refuse .null
  | some 't' =>
    skip
    word "rue".toList
    refuse (.bool true)
  | some 'f' =>
    skip
    word "alse".toList
    refuse (.bool false)
  | some '"' =>
    skip
    refuse (.string (← string))
  | some '-' =>
    skip
    refuse (.number (← number false))
  | some '[' => refuse .sequence
  | some '{' => refuse .map
  | some c => if c.isDigit then refuse (.number (← number true)) else failAhead .valueExpected
  | none => failAhead .valueExpected

/-- Reads a string. -/
def stringValue : Reader String := do
  match ← peekValue with
  | none => failAhead .endInValue
  | some '"' =>
    skip
    string
  | some _ => wrongType "a string"

/-- Reads a value that may be null. -/
def optional {α : Type} (reader : Reader α) : Reader (Option α) := do
  if (← peekValue) == some 'n' then
    skip
    word "ull".toList
    return none
  else some <$> reader

/-- Passes the end of a document. -/
def documentEnd : Reader Unit := do
  if (← peekValue).isSome then failAhead .trailingText

/-- How deep brackets may nest in a document. -/
def maxDepth : Nat := 127

end Reader

/-- Of repeated members the last value is kept, in the place of the first. -/
def settleMembers (members : List (String × Json)) : List (String × Json) :=
  members.foldl (fun settled (key, value) => setMember settled key value) []

mutual

/-- A value in which no object repeats a member. -/
def settle : Json → Json
  | .array items => .array (settleItems items)
  | .object members => .object (settleMembers (settleValues members))
  | value => value

/-- The items of a list, settled. -/
def settleItems : List Json → List Json
  | [] => []
  | item :: rest => settle item :: settleItems rest

/-- Members with their values settled. -/
def settleValues : List (String × Json) → List (String × Json)
  | [] => []
  | (key, value) :: rest => (key, settle value) :: settleValues rest

end

/-- Reads a document. -/
def parse (text : String) : Except Problem Json :=
  let reader : Reader Json := do
    let value ← Reader.value Reader.maxDepth
    Reader.documentEnd
    return value.settle
  match reader text.toList with
  | .ok value _ => .ok value
  | .error problem _ => .error problem

end ModPackager.Json
