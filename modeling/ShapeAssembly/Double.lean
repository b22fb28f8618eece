namespace ShapeAssembly

/-- How many significands there are for each exponent. -/
def Double.binade : Nat := Nat.pow 2 52

/-- A finite binary64 number. The magnitudes are numbered in ascending order from zero, so that
the rank is also the lower 63 bits of the encoding. -/
structure Double where
  negative : Bool
  rank : Nat
  rank_lt : rank < 2047 * Double.binade
  deriving DecidableEq

namespace Double

def zero (negative : Bool) : Double := ⟨negative, 0, by decide⟩

def ofRank? (negative : Bool) (rank : Nat) : Option Double :=
  if h : rank < 2047 * binade then some ⟨negative, rank, h⟩ else none

/-- The magnitude of a rank in units of 2⁻¹⁰⁷⁴, the least magnitude above zero. -/
def units (rank : Nat) : Nat :=
  if rank < binade then rank else (binade + rank % binade) * Nat.pow 2 (rank / binade - 1)

def bits (d : Double) : Nat := (if d.negative then Nat.pow 2 63 else 0) + d.rank

/-- The nearest natural number to `n / d`, a tie to the even one. -/
def roundHalfEven (n d : Nat) : Nat :=
  let q := n / d
  let r := n % d
  if 2 * r < d ∨ (2 * r = d ∧ q % 2 = 0) then q else q + 1

/-- The rank whose magnitude is nearest to `n / d` units, a tie to the even one. The scale
leaves 53 bits before the point, or all of them below that. -/
def nearestRank (n d : Nat) : Nat :=
  let scale := (n / d).log2 - 52
  scale * binade + roundHalfEven n (d * Nat.pow 2 scale)

end Double

end ShapeAssembly
