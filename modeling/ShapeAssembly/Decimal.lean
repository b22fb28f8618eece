import ShapeAssembly.Double

namespace ShapeAssembly

/-- The number `± digits · 10 ^ exponent`, with a sign for zero too. -/
structure Decimal where
  negative : Bool
  digits : Nat
  exponent : Int
  deriving DecidableEq

namespace Decimal

def ofDigits (ds : List Char) : Nat := ds.foldl (fun n d => 10 * n + (d.toNat - '0'.toNat)) 0

def splitSign : List Char → Bool × List Char
  | '-' :: cs => (true, cs)
  | '+' :: cs => (false, cs)
  | cs => (false, cs)

def readExponent? : List Char → Option Int
  | [] => some 0
  | e :: cs =>
    let (negative, ds) := splitSign cs
    if (e = 'e' ∨ e = 'E') ∧ ds ≠ [] ∧ ds.all Char.isDigit then
      some (if negative then -ofDigits ds else ofDigits ds)
    else none

/-- Reads an optional sign, digits with an optional point, at least one digit, and an optional
exponent. Nothing else may stand in the text. -/
def read? (cs : List Char) : Option Decimal :=
  let (negative, body) := splitSign cs
  let whole := body.takeWhile Char.isDigit
  let (fraction, rest) := match body.dropWhile Char.isDigit with
    | '.' :: rest => (rest.takeWhile Char.isDigit, rest.dropWhile Char.isDigit)
    | rest => ([], rest)
  if whole = [] ∧ fraction = [] then none
  else (readExponent? rest).map fun exponent =>
    ⟨negative, ofDigits (whole ++ fraction), exponent - fraction.length⟩

/-- The nearest double, a tie to the even one; none if the magnitude rounds past the largest.
The first two tests decide what lies far outside the range of doubles without its digits. -/
def toDouble? (d : Decimal) : Option Double :=
  if d.digits = 0 ∨ d.exponent + d.digits.log2 + 1 < -330 then some (.zero d.negative)
  else if 310 < d.exponent then none
  else
    let rank := match d.exponent with
      | .ofNat e => Double.nearestRank (d.digits * Nat.pow 10 e * Nat.pow 2 1074) 1
      | .negSucc e => Double.nearestRank (d.digits * Nat.pow 2 1074) (Nat.pow 10 (e + 1))
    Double.ofRank? d.negative rank

end Decimal

end ShapeAssembly
