/-!
# Similarity of words

The Jaro similarity of two words: how many characters they share at places that are not too far apart,
and how many of these stand in another order. It is a fraction between zero and one.
-/

namespace ModPackager.Text

/-- A fraction; the denominator of a similarity is positive. -/
structure Fraction where
  numerator : Nat
  denominator : Nat
deriving DecidableEq, Repr

/-- The order of fractions with positive denominators. -/
def Fraction.isLess (a b : Fraction) : Bool :=
  a.numerator * b.denominator < b.numerator * a.denominator

/-- Marks the first character in a range that is the given one and not marked yet. The word is given
from place `index` on, with its marks. -/
def markFirst (c : Char) (first last : Nat) : Nat → List (Char × Bool) → Option (List (Char × Bool))
  | _, [] => none
  | index, (d, marked) :: rest =>
    if last ≤ index then none
    else if first ≤ index && c == d && !marked then some ((d, true) :: rest)
    else (markFirst c first last (index + 1) rest).map ((d, marked) :: ·)

/-- The characters of the first word that find a partner within the range, and the second word with its
partners marked. -/
def findPartners (range : Nat) : Nat → List Char → List (Char × Bool) → List Char × List (Char × Bool)
  | _, [], marks => ([], marks)
  | index, c :: rest, marks =>
    match markFirst c (index - range) (index + range + 1) 0 marks with
    | some marks =>
      let (found, marks) := findPartners range (index + 1) rest marks
      (c :: found, marks)
    | none => findPartners range (index + 1) rest marks

/-- The Jaro similarity of two words. -/
def similarity (a b : List Char) : Fraction :=
  if a.isEmpty && b.isEmpty then ⟨1, 1⟩
  else
    let range := max a.length b.length / 2 - 1
    let (found, marks) := findPartners range 0 a (b.map fun c => (c, false))
    let partners := (marks.filter (·.2)).map (·.1)
    let shared := found.length
    let swaps := ((found.zip partners).filter fun (c, d) => c != d).length / 2
    if shared = 0 then ⟨0, 1⟩
    else
      ⟨shared * shared * (a.length + b.length) + (shared - swaps) * a.length * b.length,
        3 * a.length * b.length * shared⟩

/-- The least similarity of a word that is worth mentioning. -/
def mentionedAbove : Fraction := ⟨7, 10⟩

/-- Puts a word behind those that are no more similar. -/
def insertByScore (entry : Fraction × String) :
    List (Fraction × String) → List (Fraction × String)
  | [] => [entry]
  | other :: rest =>
    if entry.1.isLess other.1 then entry :: other :: rest else other :: insertByScore entry rest

/-- The words similar to a given one, the most similar one last. -/
def similarWords (word : String) (candidates : List String) : List String :=
  let scored := candidates.map fun candidate =>
    (similarity word.toList candidate.toList, candidate)
  let near := scored.filter fun entry => mentionedAbove.isLess entry.1
  (near.foldl (fun sorted entry => insertByScore entry sorted) []).map (·.2)

end ModPackager.Text
