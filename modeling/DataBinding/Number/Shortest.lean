import DataBinding.Number.Rounding

/-! The shortest decimal that reads back as a given number. On the grid of 1, 2, … 17
digits the two neighbours of the number are tried; the first grid with a neighbour that
reads back wins, and of two such neighbours the nearer. -/
namespace DataBinding

/-- The decimal `coefficient * 10^exponent`. -/
structure Decimal where
  coefficient : Nat
  exponent : Int
  deriving DecidableEq

/-- Which of two equally near decimals is taken. -/
inductive Tie where
  | up
  | even
  deriving DecidableEq

namespace Decimal

/-- The same decimal without trailing zeros in its coefficient. -/
def trim (d : Decimal) : Decimal :=
  if 0 < d.coefficient ∧ d.coefficient % 10 = 0 then
    trim ⟨d.coefficient / 10, d.exponent + 1⟩
  else d
  termination_by d.coefficient
  decreasing_by omega

def digits (d : Decimal) : List Char := Nat.toDigits 10 d.coefficient

/-- The exponent of the first digit. -/
def leading (d : Decimal) : Int := d.exponent + (d.digits.length - 1 : Nat)

def readsBack (rank : Nat) (d : Decimal) : Bool :=
  Number.ofDecimal false d.coefficient d.exponent == Number.ofRank false rank

/-- The exponent of the first digit of the positive quotient `num / den`, which is at
least 10^-330. -/
def leadingExponent (num den : Nat) : Int :=
  if den ≤ num then ((Nat.toDigits 10 (num / den)).length : Int) - 1
  else ((Nat.toDigits 10 (num * Nat.pow 10 330 / den)).length : Int) - 331

/-- The neighbour of `num / den` on the grid of multiples of 10^`exponent` that reads
back as the given rank, if there is one. -/
def onGrid? (tie : Tie) (rank num den : Nat) (exponent : Int) : Option Decimal :=
  let num := if exponent < 0 then num * Nat.pow 10 (-exponent).toNat else num
  let den := if exponent < 0 then den else den * Nat.pow 10 exponent.toNat
  let below : Decimal := ⟨num / den, exponent⟩
  let above : Decimal := ⟨num / den + 1, exponent⟩
  let rest := num % den
  let takeAbove := 2 * rest > den ||
    (2 * rest == den && (tie == .up || below.coefficient % 2 == 1))
  match readsBack rank below, readsBack rank above with
  | true, true => some (if takeAbove then above else below)
  | true, false => some below
  | false, true => some above
  | false, false => none

/-- Every digit of a finite magnitude. -/
def exact (rank : Nat) : Decimal := ⟨rankUnits rank * Nat.pow 5 1074, -1074⟩

/-- The shortest decimal for a finite positive magnitude. -/
def shortest (tie : Tie) (rank : Nat) : Decimal :=
  let units := rankUnits rank
  let leading := leadingExponent units oneUnits
  let grids := (List.range 17).map fun (places : Nat) => leading - places
  ((grids.findSome? (onGrid? tie rank units oneUnits)).getD (exact rank)).trim

end Decimal
end DataBinding
