/-! Binary64 numbers. A magnitude is kept as its rank, its place when all nonnegative
magnitudes are counted from zero upward, so equal ranks are equal magnitudes and the
next larger magnitude has the next rank. All NaN encodings are one number. -/
namespace DataBinding

/-- The rank of infinity, the one after the last finite magnitude. -/
def infinityRank : Nat := 0x7ff0000000000000

inductive Number where
  | nan
  | ranked (negative : Bool) (rank : Fin (infinityRank + 1))
  deriving DecidableEq

/-- The 2^52 ranks of one spacing. -/
def blockRanks : Nat := 0x10000000000000

/-- A finite magnitude as a whole number of units of 2^-1074. Ranks of the first block are
subnormal; above, each block doubles the spacing. -/
def rankUnits (rank : Nat) : Nat :=
  if rank < blockRanks then rank
  else (blockRanks + rank % blockRanks) <<< (rank / blockRanks - 1)

/-- How many units make one. -/
def oneUnits : Nat := 1 <<< 1074

namespace Number

def zero (negative : Bool) : Number := .ranked negative 0

def infinite (negative : Bool) : Number := .ranked negative (Fin.last infinityRank)

instance : Inhabited Number := ⟨zero false⟩

/-- Ranks past infinity are infinity. -/
def ofRank (negative : Bool) (rank : Nat) : Number :=
  .ranked negative ⟨min rank infinityRank, by omega⟩

def isNaN : Number → Bool
  | .nan => true
  | .ranked .. => false

def isZero : Number → Bool
  | .nan => false
  | .ranked _ rank => rank.val == 0

def isFinite : Number → Bool
  | .nan => false
  | .ranked _ rank => rank.val < infinityRank

def isNegative : Number → Bool
  | .nan => false
  | .ranked negative _ => negative

/-- The magnitude in units of 2^-1074; zero for what is not finite. -/
def units : Number → Nat
  | .nan => 0
  | .ranked _ rank => if rank.val < infinityRank then rankUnits rank.val else 0

/-- A finite number as a signed count of units. -/
def signedUnits (n : Number) : Int := if n.isNegative then -(n.units : Int) else n.units

/-- Numeric equality: the two zeros are equal, NaN is equal to nothing. -/
def equals : Number → Number → Bool
  | .ranked a r, .ranked b s => r == s && (a == b || r.val == 0)
  | _, _ => false

/-- A finite number without a fraction. -/
def isIntegral (n : Number) : Bool := n.isFinite && n.units % oneUnits == 0

/-- The whole part of a finite magnitude. -/
def wholePart (n : Number) : Nat := n.units / oneUnits

/-- The 64 bits of the interchange format; NaN has the quiet encoding. -/
def toBits : Number → Nat
  | .nan => 0x7ff8000000000000
  | .ranked negative rank => (if negative then 0x8000000000000000 else 0) + rank.val

/-- The number with the given 64 bits; higher bits are ignored. -/
def ofBits (bits : Nat) : Number :=
  let rank := bits % 0x8000000000000000
  if h : rank ≤ infinityRank then
    .ranked (bits / 0x8000000000000000 % 2 == 1) ⟨rank, by omega⟩
  else .nan

end Number
end DataBinding
