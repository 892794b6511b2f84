import DataBinding.Number.Numeral

/-! Tokens of binding expressions. -/
namespace DataBinding

/-- What a number or string token stands for. -/
inductive Constant where
  | number (n : Number)
  | string (s : String)
  deriving DecidableEq

/-- A token keeps its text as it is written, strings with their quotes, so that a quoted
keyword is not taken for the keyword. -/
structure Token where
  text : String
  value : Option Constant
  identifier : Bool
  deriving DecidableEq

namespace Token

def isPunctuation (c : Char) : Bool := ['[', ']', '\x7b', '\x7d', ':', ',', '.'].contains c

def punctuation (c : Char) : Token := ⟨String.singleton c, none, false⟩

/-- The value is read from the written form; what does not read as a number would be NaN. -/
def ofNumeral (n : Numeral) : Token :=
  ⟨String.ofList n.chars, some (.number ((Number.ofDecimalText? n.chars).getD .nan)), false⟩

def ofString (written : List Char) (value : List Char) : Token :=
  ⟨String.ofList written, some (.string (String.ofList value)), false⟩

def ofName (name : List Char) : Token := ⟨String.ofList name, none, true⟩

end Token
end DataBinding
