import DataBinding.Number.Rounding

/-! Written numbers: digits, an optional fraction and an optional exponent. -/
namespace DataBinding

/-- An unsigned number as it is written. `exponent` holds the sign as written and the
digits after it. -/
structure Numeral where
  whole : List Char
  fraction : List Char
  exponent : Option (List Char × List Char)
  deriving DecidableEq

namespace Numeral

/-- The written form, with a small `e`. -/
def chars (n : Numeral) : List Char :=
  n.whole ++ (if n.fraction.isEmpty then [] else '.' :: n.fraction) ++
    match n.exponent with
    | none => []
    | some (sign, digits) => 'e' :: (sign ++ digits)

def exponentValue (n : Numeral) : Int :=
  match n.exponent with
  | none => 0
  | some (['-'], digits) => -(Nat.ofDigitChars 10 digits 0 : Int)
  | some (_, digits) => Nat.ofDigitChars 10 digits 0

/-- The nearest number to what the numeral denotes. -/
def number (n : Numeral) (negative : Bool) : Number :=
  .ofDecimal negative (Nat.ofDigitChars 10 (n.whole ++ n.fraction) 0)
    (n.exponentValue - n.fraction.length)

/-- The digits after the point, if there is one, and what comes after them. -/
def splitPoint : List Char → List Char × List Char
  | '.' :: rest => (rest.takeWhile Char.isDigit, rest.dropWhile Char.isDigit)
  | rest => ([], rest)

/-- The sign, if there is one, at the front of an exponent. -/
def splitSign : List Char → List Char × List Char
  | '+' :: rest => (['+'], rest)
  | '-' :: rest => (['-'], rest)
  | rest => ([], rest)

/-- The exponent that a whole text writes, if it is one; without a text there is none. -/
def exponentOf? : List Char → Option (Option (List Char × List Char))
  | [] => some none
  | mark :: rest =>
    let (sign, digits) := splitSign rest
    if (mark = 'e' ∨ mark = 'E') ∧ digits ≠ [] ∧ digits.all Char.isDigit then
      some (some (sign, digits))
    else none

/-- The numeral that a whole text writes. The point may stand first or last, but a digit has
to be on one side of it. -/
def ofChars? (cs : List Char) : Option Numeral :=
  let whole := cs.takeWhile Char.isDigit
  let (fraction, rest) := splitPoint (cs.dropWhile Char.isDigit)
  if whole.isEmpty && fraction.isEmpty then none
  else (exponentOf? rest).map fun exponent => ⟨whole, fraction, exponent⟩

end Numeral

/-- The nearest number to what an unsigned decimal text denotes. -/
def Number.ofDecimalText? (cs : List Char) : Option Number :=
  (Numeral.ofChars? cs).map fun numeral => numeral.number false

end DataBinding
