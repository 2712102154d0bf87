/-!
# The shortest decimal of a binary fraction

A finite double is `m · 2^q`. Every real number nearer to it than to its neighbours reads back as
that double; the interval of those numbers includes its ends exactly when `m` is even. The shortest
decimal is found grid by grid: for one digit, two digits, and so on, the two grid points around the
value are tried, and the first grid with a point inside the interval gives the digits. Of two points
the nearer one wins, and of two equally near points the even one. All arithmetic is exact.
-/

namespace ModPackager

/-- A positive decimal `digits · 10^exponent`. -/
structure Decimal where
  digits : Nat
  exponent : Int
deriving DecidableEq, Repr

namespace Decimal

/-- A positive rational value with the ends of the interval that reads back as it, all over one
denominator. -/
structure Interval where
  low : Nat
  value : Nat
  high : Nat
  denominator : Nat
  /-- Whether the ends belong to the interval. -/
  closed : Bool

/-- The scale of a grid: ten to the power, and one below the units. -/
def tenTo (exponent : Int) : Nat := Nat.pow 10 exponent.toNat

/-- The weight of a bit: two to the power, and one below the units. -/
def twoTo (exponent : Int) : Nat := Nat.pow 2 exponent.toNat

/-- The interval of the double `m · 2^q`, where `narrow` says that the neighbour below is only half
as far as the one above. -/
def Interval.ofBinary (m : Nat) (q : Int) (narrow : Bool) : Interval :=
  let scale := twoTo (q - 2)
  { low := (4 * m - if narrow then 1 else 2) * scale
    value := 4 * m * scale
    high := (4 * m + 2) * scale
    denominator := twoTo (2 - q)
    closed := m % 2 == 0 }

/-- Whether `point · 10^exponent` lies in the interval. -/
def Interval.contains (i : Interval) (point : Nat) (exponent : Int) : Bool :=
  let scaled := point * tenTo exponent * i.denominator
  let low := i.low * tenTo (-exponent)
  let high := i.high * tenTo (-exponent)
  if i.closed then low ≤ scaled && scaled ≤ high else low < scaled && scaled < high

/-- The exponent of the leading decimal digit, searched upwards from `start`. -/
def leadingExponent (value denominator : Nat) : Nat → Int → Int
  | 0, start => start
  | fuel + 1, start =>
    if denominator * tenTo (start + 1) ≤ value * tenTo (-(start + 1)) then
      leadingExponent value denominator fuel (start + 1)
    else start

/-- The best point of the grid with spacing `10^exponent`, if the interval holds one. -/
def Interval.gridPoint? (i : Interval) (exponent : Int) : Option Nat :=
  let value := i.value * tenTo (-exponent)
  let spacing := i.denominator * tenTo exponent
  let below := value / spacing
  let twiceRest := 2 * (value % spacing)
  let preferBelow := twiceRest < spacing || (twiceRest == spacing && below % 2 == 0)
  let nearer := if preferBelow then below else below + 1
  let farther := if preferBelow then below + 1 else below
  if 0 < nearer && i.contains nearer exponent then some nearer
  else if 0 < farther && i.contains farther exponent then some farther
  else none

/-- Tries finer and finer grids. -/
def Interval.searchGrids (i : Interval) : Nat → Int → Decimal
  | 0, exponent => ⟨0, exponent⟩
  | fuel + 1, exponent =>
    match i.gridPoint? exponent with
    | some point => ⟨point, exponent⟩
    | none => i.searchGrids fuel (exponent - 1)

/-- Removes trailing zeros from the digits. -/
def dropZeros : Nat → Decimal → Decimal
  | 0, d => d
  | fuel + 1, d =>
    if 0 < d.digits && d.digits % 10 == 0 then dropZeros fuel ⟨d.digits / 10, d.exponent + 1⟩ else d

/-- The shortest decimal that reads back as `m · 2^q`, for positive `m`. -/
def shortest (m : Nat) (q : Int) (narrow : Bool) : Decimal :=
  let i := Interval.ofBinary m q narrow
  let leading := leadingExponent i.value i.denominator 700 (-330)
  dropZeros 20 (i.searchGrids 18 leading)

/-- The shortest decimal of a positive finite double. -/
def ofFloat (x : Float) : Decimal :=
  let bits := x.toBits.toNat
  let fraction := bits % twoTo 52
  let biased := bits / twoTo 52 % twoTo 11
  if biased == 0 then shortest fraction (-1074) false
  else shortest (fraction + twoTo 52) (Int.ofNat biased - 1075) (fraction == 0 && biased != 1)

end Decimal

end ModPackager
