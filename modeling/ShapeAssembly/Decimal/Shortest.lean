import ShapeAssembly.Decimal

namespace ShapeAssembly

namespace Double

/-- Twice the magnitude of a rank in units of 10⁻¹⁰⁷⁴, in which all doubles and all their
midpoints are whole. -/
def twice (rank : Nat) : Nat := 2 * units rank * Nat.pow 5 1074

/-- Whether a number in the units of `twice` is nearest to a rank. The midpoints to both
neighbours round to the even rank. -/
def roundsTo (rank x : Nat) : Bool :=
  let low := (units (rank - 1) + units rank) * Nat.pow 5 1074
  let high := (units rank + units (rank + 1)) * Nat.pow 5 1074
  (low < x && x < high) || (rank % 2 = 0 && (x = low || x = high))

/-- The multiple of a grid that is nearest to a rank among those that round to it. Half way
between two the even one is taken. -/
def onGrid? (rank grid : Nat) : Option Nat :=
  let nearer := roundHalfEven (twice rank) grid
  let farther := if nearer * grid ≤ twice rank then nearer + 1 else nearer - 1
  [nearer, farther].find? fun m => roundsTo rank (m * grid)

/-- Digits and exponent on the coarsest grid `10 ^ j` that has a number rounding to the rank, for
`j` up to a limit. In units of 10⁻¹⁰⁷⁴ the magnitude itself is whole. -/
def coarsest (rank limit : Nat) : Nat × Nat :=
  let found? := (List.range limit).reverse.findSome? fun j =>
    (onGrid? rank (2 * Nat.pow 10 (j + 1))).map fun m => (m, j + 1)
  found?.getD (twice rank / 2, 0)

/-- The decimal with fewest digits that reads back as the double, the nearest of several. -/
def shortest (d : Double) : Decimal :=
  if d.rank = 0 then ⟨d.negative, 0, 0⟩
  else
    let (digits, j) := coarsest d.rank ((twice d.rank).log2 / 3 + 1)
    ⟨d.negative, digits, j - 1074⟩

end Double

/-- Which decimal exponents are written out in places. -/
structure Decimal.Layout where
  least : Int
  greatest : Int

namespace Decimal

/-- One digit stands before the point in front of an exponent, which has a sign. A number that
is written out in places has at least one place after the point. -/
def text (layout : Layout) (d : Decimal) : List Char :=
  let ds := Nat.toDigits 10 d.digits
  let leading := d.exponent + ds.length - 1
  let sign := if d.negative then ['-'] else []
  sign ++
    if layout.least ≤ leading ∧ leading ≤ layout.greatest then
      if 0 ≤ d.exponent then ds ++ List.replicate d.exponent.toNat '0' ++ ['.', '0']
      else if 0 ≤ leading then ds.take (leading.toNat + 1) ++ '.' :: ds.drop (leading.toNat + 1)
      else '0' :: '.' :: List.replicate (-leading - 1).toNat '0' ++ ds
    else
      ds.take 1 ++ (if ds.length = 1 then [] else '.' :: ds.drop 1) ++
        'e' :: (if leading < 0 then '-' else '+') :: Nat.toDigits 10 leading.natAbs

end Decimal

end ShapeAssembly
