/-! Why a text cannot be split into tokens. -/
namespace DataBinding

/-- A fault in the characters; places are counted in characters from zero. -/
inductive LexError where
  | unexpectedCharacter (c : Char) (index : Nat)
  | invalidExponent (index : Nat)
  | invalidUnicodeEscape (index : Nat)
  | unterminatedString (index : Nat)
  deriving DecidableEq

def LexError.message : LexError → String
  | .unexpectedCharacter c index =>
    "unexpected next character '" ++ String.singleton c ++ "' at " ++ toString index
  | .invalidExponent index => "invalid exponent in number literal at " ++ toString index
  | .invalidUnicodeEscape index => "invalid unicode escape at " ++ toString index
  | .unterminatedString index =>
    "unmatched quote: string starting at " ++ toString index ++ " is not terminated"

end DataBinding
