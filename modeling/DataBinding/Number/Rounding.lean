import DataBinding.Number.Basic

/-! Rounding of exact quotients to the nearest binary64 number, ties to the even rank.
A number read from decimal digits and a sum of two numbers are both such quotients. -/
namespace DataBinding

/-- The rank nearest to `num / den` units of 2^-1074. The quotient is cut to 53 bits by
`shift` halvings; each halving passes one block of ranks, and a carry out of the
block is the first rank of the next one. -/
def nearestRank (num den : Nat) : Nat :=
  let shift := Nat.log2 (num / den) - 52
  let unit := den <<< shift
  let significand := num / unit
  let rest := num % unit
  let up := 2 * rest > unit || (2 * rest == unit && significand % 2 == 1)
  shift * blockRanks + (if up then significand + 1 else significand)

namespace Number

def ofUnits (negative : Bool) (num den : Nat) : Number := ofRank negative (nearestRank num den)

def ofRatio (negative : Bool) (num den : Nat) : Number := ofUnits negative (num * oneUnits) den

/-- The number nearest to `coefficient * 10^exponent`. Exponents that leave the range
whatever the coefficient are answered without the power. -/
def ofDecimal (negative : Bool) (coefficient : Nat) (exponent : Int) : Number :=
  if coefficient = 0 then zero negative
  else if 400 < exponent then infinite negative
  else if exponent < -400 - (Nat.log2 coefficient : Int) then zero negative
  else if 0 ≤ exponent then ofRatio negative (coefficient * Nat.pow 10 exponent.toNat) 1
  else ofRatio negative coefficient (Nat.pow 10 (-exponent).toNat)

/-- The nearest number to a nonnegative or negative whole number. -/
def ofInt (n : Int) : Number := ofRatio (n < 0) n.natAbs 1

def ofNat (n : Nat) : Number := ofRatio false n 1

/-- The rounded sum. An exact zero is negative only if both summands are. -/
def add (a b : Number) : Number :=
  match a, b with
  | .nan, _ => .nan
  | _, .nan => .nan
  | .ranked s x, .ranked t y =>
    if x.val = infinityRank then
      if y.val = infinityRank && s != t then .nan else infinite s
    else if y.val = infinityRank then infinite t
    else
      let sum := a.signedUnits + b.signedUnits
      if sum = 0 then zero (s && t) else ofUnits (sum < 0) sum.natAbs 1

end Number
end DataBinding
