import ModPackager.Shell.FileTools

/-!
# Tools for text

The programs that print text, put values into formats and take names apart, and the one that sleeps.
-/

namespace ModPackager.Shell

/-! ### Escapes -/

/-- The bytes of a character. -/
def charBytes (c : Char) : List UInt8 := (String.singleton c).toUTF8.toList

/-- The bytes of single-letter escapes. -/
def letterEscapes : List (Char × UInt8) :=
  [('a', 7), ('b', 8), ('f', 12), ('n', 10), ('r', 13), ('t', 9), ('v', 11), ('\\', 92)]

/-- Whether a character is an octal digit. -/
def isOctal (c : Char) : Bool := '0' ≤ c && c ≤ '7'

/-- The number that octal digits stand for. -/
def octalValue (digits : List Char) : Nat :=
  digits.foldl (fun value c => 8 * value + (c.toNat - '0'.toNat)) 0

/-- The octal digits of an escape, and what follows: behind a zero up to three more, or, where no zero
is needed, up to three. -/
def octalDigits? (needsZero : Bool) (text : List Char) : Option (List Char × List Char) :=
  let body := if needsZero then text.drop 1 else text
  let digits := (body.take 3).takeWhile isOctal
  let enough := if needsZero then text.head? == some '0' else !digits.isEmpty
  if enough then some (digits, body.drop digits.length) else none

/-- The bytes of a text with escapes, of which there are at most `fuel`, and whether it goes on to the
end rather than being cut off by an escape. -/
def unescape (needsZero : Bool) : Nat → List Char → List UInt8 × Bool
  | 0, _ => ([], true)
  | _ + 1, [] => ([], true)
  | fuel + 1, '\\' :: rest =>
    match octalDigits? needsZero rest, rest with
    | some (digits, after), _ =>
      let (bytes, whole) := unescape needsZero fuel after
      (UInt8.ofNat (octalValue digits) :: bytes, whole)
    | none, 'c' :: _ => ([], false)
    | none, c :: after =>
      let (bytes, whole) := unescape needsZero fuel after
      match letterEscapes.lookup c with
      | some byte => (byte :: bytes, whole)
      | none => (92 :: charBytes c ++ bytes, whole)
    | none, [] => ([92], true)
  | fuel + 1, c :: rest =>
    let (bytes, whole) := unescape needsZero fuel rest
    (charBytes c ++ bytes, whole)

/-! ### Printing -/

/-- Prints arguments with blanks between them, and a line end unless told otherwise. -/
def echo : Tool := fun arguments => do
  let silent := arguments.head? == some "-n"
  let text := " ".intercalate (if silent then arguments.tail else arguments)
  let (bytes, whole) := unescape true (text.length + 1) text.toList
  Script.print ⟨(if whole && !silent then bytes ++ [10] else bytes).toArray⟩
  return 0

/-- Fills a text up to a width, on the left or on the right. -/
def pad (left zero : Bool) (width : Nat) (bytes : List UInt8) : List UInt8 :=
  let missing := width - bytes.length
  if left then bytes ++ List.replicate missing 32
  else List.replicate missing (if zero then 48 else 32) ++ bytes

/-- The number that an argument stands for. -/
def numberOf (argument : String) : Int := argument.toInt?.getD 0

/-- What a conversion makes of an argument. -/
def convert (kind : Char) (places : Option Nat) (argument : String) : List UInt8 :=
  let number := numberOf argument
  match kind with
  | 's' => (places.map argument.toUTF8.toList.take).getD argument.toUTF8.toList
  | 'b' => (unescape true (argument.length + 1) argument.toList).1
  | 'c' => argument.toUTF8.toList.take 1
  | 'x' => (String.ofList (Nat.toDigits 16 number.toNat)).toUTF8.toList
  | 'X' => (String.ofList (Nat.toDigits 16 number.toNat)).toUpper.toUTF8.toList
  | 'o' => (String.ofList (Nat.toDigits 8 number.toNat)).toUTF8.toList
  | _ => (toString number).toUTF8.toList

/-- Puts arguments into a format once; gives the bytes and the arguments that are left. -/
def fill : Nat → List Char → List String → List UInt8 × List String
  | 0, _, arguments => ([], arguments)
  | _ + 1, [], arguments => ([], arguments)
  | fuel + 1, '%' :: '%' :: rest, arguments =>
    let (bytes, arguments) := fill fuel rest arguments
    (37 :: bytes, arguments)
  | fuel + 1, '%' :: rest, arguments =>
    let flags := rest.takeWhile fun c => "-+ 0#".toList.contains c
    let rest := rest.drop flags.length
    let width := rest.takeWhile Char.isDigit
    let rest := rest.drop width.length
    let places := if rest.head? == some '.' then some (rest.tail.takeWhile Char.isDigit) else none
    let rest := (places.map fun digits => rest.drop (digits.length + 1)).getD rest
    match rest with
    | [] => ([], arguments)
    | kind :: after =>
      let value := (places.map fun digits => ((String.ofList digits).toNat?).getD 0)
      let bytes := convert kind value (arguments.headD "")
      let padded :=
        pad (flags.contains '-') (flags.contains '0') (((String.ofList width).toNat?).getD 0) bytes
      let (others, left) := fill fuel after arguments.tail
      (padded ++ others, left)
  | fuel + 1, '\\' :: rest, arguments =>
    match octalDigits? false rest, rest with
    | some (digits, after), _ =>
      let (bytes, arguments) := fill fuel after arguments
      (UInt8.ofNat (octalValue digits) :: bytes, arguments)
    | none, c :: after =>
      let (bytes, arguments) := fill fuel after arguments
      match letterEscapes.lookup c with
      | some byte => (byte :: bytes, arguments)
      | none => (92 :: charBytes c ++ bytes, arguments)
    | none, [] => ([92], arguments)
  | fuel + 1, c :: rest, arguments =>
    let (bytes, arguments) := fill fuel rest arguments
    (charBytes c ++ bytes, arguments)

/-- Puts arguments into a format as often as it takes to use them up. -/
def fillAll (format : List Char) : Nat → List String → List UInt8
  | 0, _ => []
  | fuel + 1, arguments =>
    let (bytes, left) := fill (format.length + 1) format arguments
    if left.isEmpty || left.length = arguments.length then bytes
    else bytes ++ fillAll format fuel left

/-- Prints arguments in a format. -/
def printf : Tool := fun arguments => do
  match (if arguments.head? == some "--" then arguments.tail else arguments) with
  | [] =>
    Script.complain "printf" "missing operand"
    return 2
  | format :: values =>
    Script.print ⟨(fillAll format.toList (values.length + 1) values).toArray⟩
    return 0

/-! ### Names -/

/-- Prints the last name of a path, without an ending if one is given. -/
def basename : Tool := fun arguments => do
  let name := lastName (arguments.headD "")
  let ending := (arguments[1]?).getD ""
  let chars := name.toList
  let cut := chars.length - ending.length
  let short := if ending.toList.isSuffixOf chars && 0 < cut then String.ofList (chars.take cut) else name
  Script.printText (short ++ "\n")
  return 0

/-- Prints the directory that a path lies in. -/
def dirname : Tool := fun arguments => do
  let path : Path := ⟨arguments.headD ""⟩
  let dir := (path.parent?.map (·.text)).getD path.text
  Script.printText ((if dir.isEmpty then "." else dir) ++ "\n")
  return 0

/-- Prints the working directory. -/
def pwd : Tool := fun _ => do
  Script.printText ((← Script.state).workingDir.text ++ "\n")
  return 0

/-! ### Time -/

/-- The milliseconds in units of time. -/
def unitMs : List (Char × Nat) := [('s', 1000), ('m', 60000), ('h', 3600000), ('d', 86400000)]

/-- The milliseconds that a time with a decimal point and perhaps a unit stands for. -/
def duration? (text : String) : Option Nat := do
  let chars := text.toList
  let whole := chars.takeWhile Char.isDigit
  let (fraction, ending) : List Char × List Char :=
    match chars.drop whole.length with
    | '.' :: rest => (rest.takeWhile Char.isDigit, rest.dropWhile Char.isDigit)
    | rest => ([], rest)
  let scale ←
    match ending with
    | [] => some 1000
    | [c] => unitMs.lookup c
    | _ => none
  let digits ← (String.ofList (whole ++ fraction)).toNat?
  return digits * scale / Nat.pow 10 fraction.length

/-- Sleeps for the sum of times. -/
def sleep : Tool := fun arguments => do
  match if arguments.isEmpty then none else arguments.mapM duration? with
  | none =>
    Script.complain "sleep" (if arguments.isEmpty then "missing operand" else "invalid time interval")
    return 1
  | some times =>
    let milliseconds := times.foldl (· + ·) 0
    if 0 < milliseconds then Script.sleep milliseconds
    return 0

end ModPackager.Shell
