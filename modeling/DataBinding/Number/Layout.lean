import DataBinding.Number.Shortest

/-! Texts of numbers. All use the shortest digits that read back; a `Layout` says how the
digits are set out. -/
namespace DataBinding

structure Layout where
  nan : String
  infinity : String
  negativeInfinity : String
  zero : String
  negativeZero : String
  /-- The least exponent of the first digit that is written in positional form. -/
  lowest : Int
  /-- The least exponent above `lowest` that is not. -/
  limit : Int
  /-- Written after a positional number that has no fraction. -/
  wholeEnding : String
  /-- Written before a nonnegative exponent. -/
  exponentSign : String
  tie : Tie

namespace Layout

/-- Digits with the point after the first. -/
def scientific (layout : Layout) (digits : List Char) (leading : Int) : List Char :=
  let mantissa := match digits with
    | [] => []
    | [d] => [d]
    | d :: rest => d :: '.' :: rest
  let sign := if leading < 0 then ['-'] else layout.exponentSign.toList
  mantissa ++ 'e' :: (sign ++ Nat.toDigits 10 leading.natAbs)

def positional (layout : Layout) (digits : List Char) (leading : Int) : List Char :=
  if leading < 0 then
    '0' :: '.' :: (List.replicate (-leading - 1).toNat '0' ++ digits)
  else
    let places := leading.toNat + 1
    let whole := digits.take places ++ List.replicate (places - digits.length) '0'
    match digits.drop places with
    | [] => whole ++ layout.wholeEnding.toList
    | fraction => whole ++ '.' :: fraction

/-- The text of a finite positive magnitude. -/
def magnitude (layout : Layout) (rank : Nat) : List Char :=
  let decimal := Decimal.shortest layout.tie rank
  if layout.lowest ≤ decimal.leading && decimal.leading < layout.limit then
    layout.positional decimal.digits decimal.leading
  else layout.scientific decimal.digits decimal.leading

def chars (layout : Layout) : Number → List Char
  | .nan => layout.nan.toList
  | .ranked negative rank =>
    if rank.val = infinityRank then
      (if negative then layout.negativeInfinity else layout.infinity).toList
    else if rank.val = 0 then (if negative then layout.negativeZero else layout.zero).toList
    else if negative then '-' :: layout.magnitude rank.val
    else layout.magnitude rank.val

end Layout

/-- Numbers as property keys and in program text: positional from 10^-6 up to 10^21. -/
def keyLayout : Layout :=
  ⟨"NaN", "Infinity", "-Infinity", "0", "0", -6, 21, "", "+", .up⟩

/-- Numbers in JSON: positional from 10^-5 up to 10^16, a whole number marked by `.0`. -/
def jsonLayout : Layout :=
  ⟨"null", "null", "null", "0.0", "-0.0", -5, 16, ".0", "+", .even⟩

/-- Numbers for inspection: positional from 10^-4 up to 10^16, always with a fraction. -/
def debugLayout : Layout :=
  ⟨"NaN", "inf", "-inf", "0.0", "-0.0", -4, 16, ".0", "", .up⟩

/-- The property key that a number stands for. -/
def Number.key (n : Number) : String := String.ofList (keyLayout.chars n)

end DataBinding
