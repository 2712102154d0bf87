import ModPackager.Glob.Pattern

/-!
# Regular expressions

An expression is matched from a place of a line on. What is repeated takes as much as the rest of the
expression allows, and of two alternatives the first one that leads to a match counts. A group
remembers what it matched.
-/

namespace ModPackager.Shell

/-- A regular expression. -/
inductive Regex
  | empty
  | char (c : Char)
  | any
  | oneOf (negated : Bool) (sets : List Glob.CharSet)
  | lineStart
  | lineEnd
  | seq (first second : Regex)
  | either (first second : Regex)
  | group (number : Nat) (inside : Regex)
  /-- What a group has matched. -/
  | same (number : Nat)
  /-- A number of times, of which the greatest may be missing. -/
  | repeated (inside : Regex) (least : Nat) (most : Option Nat)
deriving DecidableEq, Repr

namespace Regex

/-! ### Matching -/

/-- A place in a line, with what the groups have matched on the way to it. -/
structure Spot where
  rest : List Char
  /-- Whether nothing of the line lies before it. -/
  atStart : Bool
  groups : List (Nat × List Char) := []

/-- The text between a place and a later one. -/
def Spot.upTo (spot later : Spot) : List Char :=
  spot.rest.take (spot.rest.length - later.rest.length)

/-- Passes one character that a test accepts. -/
def Spot.pass? (spot : Spot) (test : Char → Bool) : Option Spot :=
  match spot.rest with
  | c :: rest => if test c then some { spot with rest, atStart := false } else none
  | [] => none

/-- How many parts an expression has. -/
def size : Regex → Nat
  | seq a b => a.size + b.size + 1
  | either a b => a.size + b.size + 1
  | group _ inside => inside.size + 1
  | repeated inside least _ => inside.size + least + 1
  | _ => 1

/-- Matches an expression at a place and goes on from where the match ends. The steps bound how deep
parts nest and how often they repeat. -/
def run : Nat → Regex → Spot → (Spot → Option Spot) → Option Spot
  | 0, _, _, _ => none
  | steps + 1, regex, spot, next =>
    match regex with
    | .empty => next spot
    | .char c => (spot.pass? (· == c)).bind next
    | .any => (spot.pass? fun _ => true).bind next
    | .oneOf negated sets => (spot.pass? fun c => sets.any (·.contains c) != negated).bind next
    | .lineStart => if spot.atStart then next spot else none
    | .lineEnd => if spot.rest.isEmpty then next spot else none
    | .seq first second => run steps first spot fun spot => run steps second spot next
    | .either first second => run steps first spot next <|> run steps second spot next
    | .group number inside =>
      run steps inside spot fun later =>
        next { later with groups := (number, spot.upTo later) :: later.groups }
    | .same number =>
      let found := (spot.groups.lookup number).getD []
      if found.isPrefixOf spot.rest then
        next { spot with
          rest := spot.rest.drop found.length
          atStart := spot.atStart && found.isEmpty }
      else none
    | .repeated inside least most =>
      let again :=
        if most == some 0 then none
        else run steps inside spot fun later =>
          if later.rest.length < spot.rest.length || 0 < least then
            run steps (.repeated inside (least - 1) (most.map (· - 1))) later next
          else none
      again <|> (if least = 0 then next spot else none)

/-- Matches an expression at a place. -/
def matchAt? (regex : Regex) (spot : Spot) : Option Spot :=
  regex.run (regex.size + spot.rest.length + 2) spot some

/-- Whether an expression matches somewhere in what is left of a line. -/
def occursFrom (regex : Regex) (atStart : Bool) : List Char → Bool
  | [] => (regex.matchAt? ⟨[], atStart, []⟩).isSome
  | c :: rest => (regex.matchAt? ⟨c :: rest, atStart, []⟩).isSome || regex.occursFrom false rest

/-- Whether an expression matches somewhere in a line. -/
def occursIn (regex : Regex) (line : List Char) : Bool := regex.occursFrom true line

/-! ### Signs -/

/-- What an expression is written with. -/
inductive Sign
  | atom (regex : Regex)
  | opening
  | closing
  | bar
  | times (least : Nat) (most : Option Nat)

/-- How expressions are written. -/
structure Style where
  /-- Whether brackets and the like have their meaning without a backslash. -/
  extended : Bool
  /-- Whether small and capital letters are the same. -/
  anyCase : Bool

/-- The classes of characters that have names. -/
def namedClasses : List (String × List Glob.CharSet) :=
  let upper : Glob.CharSet := .range 'A' 'Z'
  let lower : Glob.CharSet := .range 'a' 'z'
  let digit : Glob.CharSet := .range '0' '9'
  [("alpha", [upper, lower]), ("digit", [digit]), ("alnum", [upper, lower, digit]), ("upper", [upper]),
    ("lower", [lower]), ("space", " \t\n\r".toList.map .single), ("blank", " \t".toList.map .single)]

/-- Puts sets in front of others. -/
def withSets (sets : List Glob.CharSet) :
    Option (List Glob.CharSet × List Char) → Option (List Glob.CharSet × List Char)
  | some (others, rest) => some (sets ++ others, rest)
  | none => none

/-- The sets inside a bracket and what follows it, with at most `fuel` members. A closing bracket that
comes first is a member. -/
def setsFrom : Nat → Bool → List Char → Option (List Glob.CharSet × List Char)
  | 0, _, _ => none
  | _ + 1, _, [] => none
  | fuel + 1, _, '[' :: ':' :: rest =>
    let name := rest.takeWhile Char.isAlpha
    match namedClasses.lookup (String.ofList name), rest.drop name.length with
    | some sets, ':' :: ']' :: after => withSets sets (setsFrom fuel false after)
    | _, _ => none
  | fuel + 1, first, c :: rest =>
    if c == ']' && !first then some ([], rest)
    else
      match rest with
      | '-' :: last :: after =>
        if last == ']' then withSets [.single c] (setsFrom fuel false rest)
        else withSets [.range c last] (setsFrom fuel false after)
      | _ => withSets [.single c] (setsFrom fuel false rest)

/-- The bracket after its opening sign, and what follows it. -/
def bracket? (text : List Char) : Option (Regex × List Char) :=
  let (negated, inside) : Bool × List Char :=
    match text with
    | '^' :: inside => (true, inside)
    | _ => (false, text)
  (setsFrom (inside.length + 1) true inside).map fun (sets, rest) => (.oneOf negated sets, rest)

/-- The numbers of an interval after its opening sign, and what follows its closing one. -/
def interval? (closing : List Char) (text : List Char) : Option (Sign × List Char) := do
  let digits := text.takeWhile Char.isDigit
  let least ← if digits.isEmpty then some 0 else (String.ofList digits).toNat?
  match text.drop digits.length with
  | ',' :: rest =>
    let digits := rest.takeWhile Char.isDigit
    let after ← closing.isPrefixOf? (rest.drop digits.length)
    return (.times least (String.ofList digits).toNat?, after)
  | rest =>
    let after ← closing.isPrefixOf? rest
    return (.times least (some least), after)

/-- The character as an expression. -/
def ofChar (style : Style) (c : Char) : Regex :=
  if style.anyCase && c.isAlpha then .oneOf false [.single c.toLower, .single c.toUpper] else .char c

/-- The sign that a character is with its special meaning, and what follows it. -/
def special? (c : Char) (closing : List Char) (rest : List Char) : Option (Sign × List Char) :=
  match c with
  | '(' => some (.opening, rest)
  | ')' => some (.closing, rest)
  | '|' => some (.bar, rest)
  | '+' => some (.times 1 none, rest)
  | '?' => some (.times 0 (some 1), rest)
  | '{' => interval? closing rest
  | _ => none

/-- What a character behind a backslash stands for, unless it is a sign. -/
def escaped (style : Style) (c : Char) : Regex :=
  if c == 'n' then .char '\n'
  else if c == 't' then .char '\t'
  else if '1' ≤ c && c ≤ '9' then .same (c.toNat - '0'.toNat)
  else ofChar style c

/-- Whether a line end is meant by a dollar sign in front of a text. -/
def endsPart (extended : Bool) (rest : List Char) : Bool :=
  extended || rest.isEmpty || ['\\', ')'].isPrefixOf rest || ['\\', '|'].isPrefixOf rest

/-- The sign in front of a text and what follows it; `first` says whether the text begins an expression
or a part of one. -/
def sign? (style : Style) (first : Bool) : List Char → Option (Sign × List Char)
  | [] => none
  | '\\' :: c :: rest =>
    match if style.extended then none else special? c ['\\', '}'] rest with
    | some found => some found
    | none => some (.atom (escaped style c), rest)
  | '.' :: rest => some (.atom .any, rest)
  | '[' :: rest => (bracket? rest).map fun (regex, after) => (.atom regex, after)
  | '*' :: rest => some (if first then .atom (.char '*') else .times 0 none, rest)
  | '^' :: rest => some (.atom (if first || style.extended then .lineStart else .char '^'), rest)
  | '$' :: rest => some (.atom (if endsPart style.extended rest then .lineEnd else .char '$'), rest)
  | c :: rest =>
    match if style.extended then special? c ['}'] rest else none with
    | some found => some found
    | none => some (.atom (ofChar style c), rest)

/-- The signs of a text, of which there are at most `fuel`. -/
def signsFrom (style : Style) : Nat → Bool → List Char → Option (List Sign)
  | 0, _, _ => none
  | _ + 1, _, [] => some []
  | fuel + 1, first, text => do
    let (sign, rest) ← sign? style first text
    let begins := match sign with
      | .opening | .bar => true
      | .atom regex => first && regex == .lineStart
      | _ => false
    return sign :: (← signsFrom style fuel begins rest)

/-! ### Reading -/

/-- Repeats an expression as the signs behind it say. -/
def repeatedBy : Regex → List Sign → Regex × List Sign
  | regex, .times least most :: rest => repeatedBy (.repeated regex least most) rest
  | regex, rest => (regex, rest)

mutual

/-- Reads alternatives; `number` is that of the next group. -/
def alternatives : Nat → Nat → List Sign → Option (Regex × Nat × List Sign)
  | 0, _, _ => none
  | fuel + 1, number, signs => do
    let (first, number, rest) ← sequence fuel number signs
    match rest with
    | .bar :: rest =>
      let (second, number, rest) ← alternatives fuel number rest
      return (.either first second, number, rest)
    | _ => return (first, number, rest)

/-- Reads parts up to the end of an alternative. -/
def sequence : Nat → Nat → List Sign → Option (Regex × Nat × List Sign)
  | 0, _, _ => none
  | fuel + 1, number, signs =>
    match signs with
    | .atom regex :: rest => do
      let (part, rest) := repeatedBy regex rest
      let (others, number, rest) ← sequence fuel number rest
      return (.seq part others, number, rest)
    | .opening :: rest => do
      let (inside, after, rest) ← alternatives fuel (number + 1) rest
      match rest with
      | .closing :: rest =>
        let (part, rest) := repeatedBy (.group number inside) rest
        let (others, number, rest) ← sequence fuel after rest
        return (.seq part others, number, rest)
      | _ => none
    | .times _ _ :: _ => none
    | _ => some (.empty, number, signs)

end

/-- Reads a regular expression. -/
def parse? (style : Style) (text : List Char) : Option Regex := do
  let signs ← signsFrom style (text.length + 1) true text
  match ← alternatives (2 * signs.length + 2) 1 signs with
  | (regex, _, []) => return regex
  | _ => none

end Regex

end ModPackager.Shell
