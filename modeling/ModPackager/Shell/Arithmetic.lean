/-!
# Arithmetic in words

Whole numbers with the usual operators, which are held from the loosest to the tightest; operators of
one level are taken from left to right. A truth is one and a falsehood zero. A name stands for the
number that is its value, and for zero if it has none.
-/

namespace ModPackager.Shell.Arithmetic

/-- Reads something from the front of a text. -/
abbrev Reader := StateT (List Char) Option

/-- A truth as a number. -/
def ofBool (b : Bool) : Int := if b then 1 else 0

/-- An operation on whole numbers, which may have no result. -/
abbrev Operation := Int → Int → Option Int

/-- The operators of each level. -/
def levels : List (List (String × Operation)) :=
  [[("||", fun a b => some (ofBool (a != 0 || b != 0)))],
    [("&&", fun a b => some (ofBool (a != 0 && b != 0)))],
    [("|", fun a b => some (a.toNat ||| b.toNat : Nat))],
    [("^", fun a b => some (a.toNat ^^^ b.toNat : Nat))],
    [("&", fun a b => some (a.toNat &&& b.toNat : Nat))],
    [("==", fun a b => some (ofBool (a == b))), ("!=", fun a b => some (ofBool (a != b)))],
    [("<=", fun a b => some (ofBool (a ≤ b))), (">=", fun a b => some (ofBool (b ≤ a))),
      ("<", fun a b => some (ofBool (a < b))), (">", fun a b => some (ofBool (b < a)))],
    [("<<", fun a b => some (a * Nat.pow 2 b.toNat)), (">>", fun a b => some (a >>> b.toNat))],
    [("+", fun a b => some (a + b)), ("-", fun a b => some (a - b))],
    [("*", fun a b => some (a * b)), ("/", fun a b => if b = 0 then none else some (a.tdiv b)),
      ("%", fun a b => if b = 0 then none else some (a.tmod b))]]

/-- The operator in front of a text: the longest one. -/
def operator? (text : List Char) : Option String :=
  let fitting := (levels.flatten.map (·.1)).filter fun symbol => symbol.toList.isPrefixOf text
  fitting.foldl (fun best symbol =>
    match best with
    | some other => if other.length < symbol.length then some symbol else best
    | none => some symbol) none

/-- Whether a character can stand in a name. -/
def isNameChar (c : Char) : Bool := c.isAlphanum || c == '_'

/-- The number that digits of a base stand for, if they all are digits of it. -/
def digits? (base : Nat) (text : List Char) : Option Int :=
  if text.isEmpty then none
  else
    text.foldl (fun value c => do
      let digit := if c.isDigit then c.toNat - '0'.toNat else c.toLower.toNat - 'a'.toNat + 10
      if (c.isDigit || c.isAlpha) && digit < base then some ((← value) * base + digit) else none)
      (some 0)

/-- The number that a text without a sign stands for. -/
def number? : List Char → Option Int
  | '0' :: 'x' :: rest => digits? 16 rest
  | '0' :: 'X' :: rest => digits? 16 rest
  | ['0'] => some 0
  | '0' :: rest => digits? 8 rest
  | text => digits? 10 text

/-- Skips blanks. -/
def blanks : Reader Unit := modify fun text => text.dropWhile fun c => " \t\n".toList.contains c

mutual

/-- Reads an expression of a level and the tighter ones. -/
def expression (value : String → Int) : Nat → Nat → Reader Int
  | 0, _ => failure
  | fuel + 1, level => do
    match levels[level]? with
    | none => operand value fuel
    | some operators => operatorsFrom value fuel level operators (← expression value fuel (level + 1))

/-- Reads operators of a level with their right operands. -/
def operatorsFrom (value : String → Int) :
    Nat → Nat → List (String × Operation) → Int → Reader Int
  | 0, _, _, _ => failure
  | fuel + 1, level, operators, left => do
    blanks
    match (operator? (← get)).bind fun symbol => (operators.lookup symbol).map (symbol, ·) with
    | none => return left
    | some (symbol, operation) =>
      modify (·.drop symbol.length)
      let right ← expression value fuel (level + 1)
      operatorsFrom value fuel level operators (← operation left right)

/-- Reads an operand with the signs before it. -/
def operand (value : String → Int) : Nat → Reader Int
  | 0 => failure
  | fuel + 1 => do
    blanks
    match ← get with
    | '(' :: rest =>
      set rest
      let inside ← expression value fuel 0
      blanks
      match ← get with
      | ')' :: rest =>
        set rest
        return inside
      | _ => failure
    | '-' :: rest =>
      set rest
      return -(← operand value fuel)
    | '+' :: rest =>
      set rest
      operand value fuel
    | '!' :: rest =>
      set rest
      return ofBool ((← operand value fuel) == 0)
    | text =>
      let word := text.takeWhile isNameChar
      set (text.drop word.length)
      match word with
      | [] => failure
      | c :: _ => if c.isDigit then number? word else return value (String.ofList word)

end

/-- The value of an expression, where `value` gives that of a name. -/
def evaluate? (value : String → Int) (text : List Char) : Option Int := do
  let reader : Reader Int := do
    let result ← expression value (12 * (text.length + 2)) 0
    blanks
    return result
  match ← reader text with
  | (result, []) => return result
  | _ => none

end ModPackager.Shell.Arithmetic
