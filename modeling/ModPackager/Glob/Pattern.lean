import ModPackager.Error

/-!
# Patterns of file names

A pattern is a list of tokens. Two stars stand for any number of directories and must be a whole
component; one star stands for any characters, a question mark for one, a bracket for one of a set.
-/

namespace ModPackager.Glob

/-- A character, or the characters between two. -/
inductive CharSet
  | single (c : Char)
  | range (first last : Char)
deriving DecidableEq, Repr

/-- Whether a set holds a character. -/
def CharSet.contains (c : Char) : CharSet → Bool
  | .single d => c == d
  | .range first last => first ≤ c && c ≤ last

/-- A part of a pattern. -/
inductive Token
  | char (c : Char)
  | anyChar
  | anySequence
  /-- Any number of directories. -/
  | anyDepth
  | within (sets : List CharSet)
  | outside (sets : List CharSet)
deriving DecidableEq, Repr

/-- The sets that the inside of a bracket stands for. -/
def charSets : List Char → List CharSet
  | first :: '-' :: last :: rest => .range first last :: charSets rest
  | c :: rest => .single c :: charSets rest
  | [] => []

/-- A bracket that has been opened. -/
structure Bracket where
  start : Nat
  negated : Bool
  /-- The characters inside so far. -/
  inside : List Char

/-- The token of a bracket. -/
def Bracket.token (bracket : Bracket) : Token :=
  if bracket.negated then .outside (charSets bracket.inside) else .within (charSets bracket.inside)

/-- Reads the tokens of a pattern. `previous` is the character before the text, and the bracket is the
one that the text stands in; the first character in a bracket does not close it. -/
def tokensFrom (position : Nat) (previous : Option Char) :
    Option Bracket → List Char → Except PatternFault (List Token)
  | some bracket, [] => .error ⟨bracket.start, .range⟩
  | some bracket, c :: rest =>
    if c == ']' && !bracket.inside.isEmpty then do
      return bracket.token :: (← tokensFrom (position + 1) (some c) none rest)
    else if c == '!' && position = bracket.start + 1 then
      tokensFrom (position + 1) (some c) (some { bracket with negated := true }) rest
    else
      tokensFrom (position + 1) (some c) (some { bracket with inside := bracket.inside ++ [c] }) rest
  | none, [] => .ok []
  | none, '*' :: '*' :: '*' :: _ => .error ⟨position + 2, .wildcards⟩
  | none, '*' :: '*' :: '/' :: rest =>
    if previous.all (· == '/') then do
      return .anyDepth :: (← tokensFrom (position + 3) (some '/') none rest)
    else .error ⟨position - 1, .recursion⟩
  | none, '*' :: '*' :: rest =>
    if previous.any (· != '/') then .error ⟨position - 1, .recursion⟩
    else if rest.isEmpty then .ok [.anyDepth]
    else .error ⟨position + 2, .recursion⟩
  | none, c :: rest =>
    if c == '[' then tokensFrom (position + 1) (some c) (some ⟨position, false, []⟩) rest
    else do
      let token : Token := if c == '?' then .anyChar else if c == '*' then .anySequence else .char c
      return token :: (← tokensFrom (position + 1) (some c) none rest)

/-- A pattern. -/
abbrev Pattern := List Token

/-- Reads a pattern. -/
def Pattern.parse (text : List Char) : Except PatternFault Pattern := tokensFrom 0 none none text

/-- Whether a pattern stands for any number of directories. -/
def Pattern.isRecursive (pattern : Pattern) : Bool := pattern.contains .anyDepth

/-- The text that a pattern without wildcards stands for. -/
def Pattern.literal? (pattern : Pattern) : Option String :=
  String.ofList <$> pattern.mapM fun
    | .char c => some c
    | _ => none

/-- Whether a test holds for what is left of a text after some characters of it. -/
def afterSome (test : List Char → Bool) : List Char → Bool
  | [] => test []
  | c :: rest => test (c :: rest) || afterSome test rest

/-- Whether a token stands for a character. -/
def Token.accepts (c : Char) : Token → Bool
  | .char d => c == d
  | .within sets => sets.any (·.contains c)
  | .outside sets => !sets.any (·.contains c)
  | _ => true

/-- Whether a pattern matches a name. -/
def Pattern.matches : Pattern → List Char → Bool
  | [], text => text.isEmpty
  | .anySequence :: pattern, text => afterSome (Pattern.matches pattern) text
  | .anyDepth :: pattern, text => afterSome (Pattern.matches pattern) text
  | _ :: _, [] => false
  | token :: pattern, c :: rest => token.accepts c && Pattern.matches pattern rest

/-- The pattern that matches a text and nothing else. -/
def escape (text : List Char) : List Char :=
  text.flatMap fun c =>
    if c == '?' || c == '*' || c == '[' || c == ']' then ['[', c, ']'] else [c]

end ModPackager.Glob
