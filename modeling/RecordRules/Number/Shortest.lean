import RecordRules.Number.Binary64

/-! The shortest decimal text of a 64-bit number: of all decimals that are nearest to no other
64-bit number, those with the fewest digits, and of these the one nearest to the number, the larger
one in a tie. It is found on decimal grids, each ten times finer than the one before, in exact
arithmetic: if any point of a grid reads back as the number, then one of the two points around the
number does. The text is positional, without an exponent and without a fraction that is zero. -/

namespace RecordRules.Number.Binary64

/-! ### The decimals that read back -/

/-- The distance to the next larger magnitude, in units. -/
def gap (x : Binary64) : Nat :=
  Nat.pow 2 x.shift

/-- At a power of two the next smaller magnitude is only half as far away as the next larger one. -/
def narrowBelow (x : Binary64) : Bool :=
  x.fraction == 0 && 1 < x.exponentField

/-- The upper end of the decimals that read back, in quarter units. -/
def upperEnd (x : Binary64) : Nat :=
  4 * x.units + 2 * x.gap

/-- The lower end of the decimals that read back, in quarter units. -/
def lowerEnd (x : Binary64) : Nat :=
  4 * x.units - (if x.narrowBelow then x.gap else 2 * x.gap)

/-! ### Decimal grids -/

/-- The coarsest grid holds the multiples of `10 ^ coarsestExponent`; it is beyond every finite
number. -/
def coarsestExponent : Nat :=
  309

/-- The number of grids. The last one holds the multiples of `10 ^ -1074`, and so every number
itself. -/
def finestGrid : Nat :=
  coarsestExponent + 1074

/-- The distance of two points of the coarsest grid, in quarter units. -/
def coarsestStep : Nat :=
  Nat.pow 10 coarsestExponent * (4 * unitsPerOne)

/-- Whether a point of a grid reads back as the number. The ends belong to an even significand. -/
def readsBack (x : Binary64) (grid point : Nat) : Bool :=
  let place := point * coarsestStep
  let lower := x.lowerEnd * Nat.pow 10 grid
  let upper := x.upperEnd * Nat.pow 10 grid
  if x.significand % 2 = 0 then lower ≤ place && place ≤ upper else lower < place && place < upper

/-- The largest point of a grid that is not above the number. -/
def pointBelow (x : Binary64) (grid : Nat) : Nat :=
  4 * x.units * Nat.pow 10 grid / coarsestStep

/-- Whether the point below is nearer than the one above. -/
def nearerBelow (x : Binary64) (grid : Nat) : Bool :=
  2 * (4 * x.units * Nat.pow 10 grid % coarsestStep) < coarsestStep

/-- The point of a grid that reads back, the nearer one of two. -/
def pointReadingBack? (x : Binary64) (grid : Nat) : Option Nat :=
  let below := x.pointBelow grid
  if x.readsBack grid below then
    if x.readsBack grid (below + 1) && !x.nearerBelow grid then some (below + 1) else some below
  else if x.readsBack grid (below + 1) then some (below + 1)
  else none

/-- The coarsest grid with a point that reads back, and that point. -/
def shortestPoint (x : Binary64) : Nat × Nat :=
  let found := (List.range finestGrid).findSome? fun grid =>
    (x.pointReadingBack? grid).map fun point => (grid, point)
  found.getD (finestGrid, x.pointBelow finestGrid)

/-! ### The text -/

/-- A point of a grid in positional notation. -/
def positional (grid point : Nat) : List Char :=
  let digits := decimalDigits point
  if grid ≤ coarsestExponent then digits ++ List.replicate (coarsestExponent - grid) '0'
  else
    let places := grid - coarsestExponent
    let padded := List.replicate (places + 1 - digits.length) '0' ++ digits
    let wholeLength := padded.length - places
    padded.take wholeLength ++ '.' :: padded.drop wholeLength

/-- The text of the magnitude of a number that is not NaN. -/
def magnitudeText (x : Binary64) : String :=
  if x.isInfinite then "inf"
  else if x.magnitude = 0 then "0"
  else
    let (grid, point) := x.shortestPoint
    String.ofList (positional grid point)

/-- The shortest positional text that reads back; zero keeps its sign. -/
def toText (x : Binary64) : String :=
  if x.isNaN then "NaN"
  else if x.negative then "-" ++ x.magnitudeText
  else x.magnitudeText

end RecordRules.Number.Binary64
