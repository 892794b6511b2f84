import DataBinding.Text.Units
import DataBinding.Token.Basic
import DataBinding.Token.Error

/-! Splitting text into tokens, always the longest one that the text starts with. -/
namespace DataBinding.Token

def isNameStart (c : Char) : Bool := c.isAlpha || c == '_' || c == '$'

def isNamePart (c : Char) : Bool := isNameStart c || c.isDigit

def isBlank (c : Char) : Bool :=
  c == ' ' || c == '\r' || c == '\t' || c == '\n' || c.toNat == 0x0B || c.toNat == 0xA0

def startsWithDigit (cs : List Char) : Bool := cs.head?.any Char.isDigit

/-- A point belongs to a number only if a digit follows it. -/
def fraction (cs : List Char) : List Char × List Char :=
  match cs with
  | '.' :: rest =>
    if startsWithDigit rest then (rest.takeWhile Char.isDigit, rest.dropWhile Char.isDigit)
    else ([], cs)
  | cs => ([], cs)

/-- The exponent of a number whose earlier part ends at `index`. Once `e` is read there
has to be an exponent. -/
def exponent (index : Nat) (cs : List Char) :
    Except LexError (Option (List Char × List Char)) :=
  match cs with
  | [] => .ok none
  | mark :: rest =>
    if mark = 'e' ∨ mark = 'E' then
      match rest with
      | [] => .error (.invalidExponent index)
      | sign :: digits =>
        if sign = '+' ∨ sign = '-' then
          if startsWithDigit digits then .ok (some ([sign], digits.takeWhile Char.isDigit))
          else .error (.invalidExponent (index + 1))
        else if sign.isDigit then .ok (some ([], rest.takeWhile Char.isDigit))
        else .error (.invalidExponent index)
    else .ok none

def numeral (index : Nat) (cs : List Char) : Except LexError Numeral := do
  let whole := cs.takeWhile Char.isDigit
  let (fraction, rest) := fraction (cs.dropWhile Char.isDigit)
  let mantissa : Numeral := ⟨whole, fraction, none⟩
  let exponent ← exponent (index + mantissa.chars.length) rest
  return ⟨whole, fraction, exponent⟩

def unescape (c : Char) : Char :=
  match c with
  | 'n' => '\n'
  | 'f' => Char.ofNat 0x0C
  | 'r' => '\r'
  | 't' => '\t'
  | 'v' => Char.ofNat 0x0B
  | c => c

/-- The value of a string after its opening quote, which is at `start`, and the number of
characters up to the closing quote, this included. -/
def stringTail (quote : Char) (start index : Nat) : List Char → Except LexError (List Char × Nat)
  | [] => .error (.unterminatedString start)
  | c :: rest =>
    if c = quote then .ok ([], 1)
    else if c = '\\' then
      match rest with
      | [] => .error (.unterminatedString start)
      | 'u' :: rest =>
        match Text.escaped? rest with
        | none => .error (.invalidUnicodeEscape (index + 1))
        | some (read, used) => do
          let (value, length) ← stringTail quote start (index + 2 + used) (rest.drop used)
          return (read :: value, length + 2 + used)
      | mark :: rest => do
        let (value, length) ← stringTail quote start (index + 2) rest
        return (unescape mark :: value, length + 2)
    else do
      let (value, length) ← stringTail quote start (index + 1) rest
      return (c :: value, length + 1)
  termination_by cs => cs.length
  decreasing_by all_goals simp +arith

/-- Whether a number starts with `c`, which `rest` follows. -/
def numberStarts (c : Char) (rest : List Char) : Bool :=
  c.isDigit || (c == '.' && startsWithDigit rest)

def isQuote (c : Char) : Bool := c == '\x27' || c == '\x22'

/-- The token that a text starting with `c`, which is not blank, begins with. -/
def first (index : Nat) (c : Char) (rest : List Char) : Except LexError Token :=
  if numberStarts c rest then do
    let numeral ← numeral index (c :: rest)
    return .ofNumeral numeral
  else if isQuote c then do
    let (value, length) ← stringTail c index (index + 1) rest
    return .ofString (c :: rest.take length) value
  else if isPunctuation c then return .punctuation c
  else if isNameStart c then return .ofName (c :: rest.takeWhile isNamePart)
  else .error (.unexpectedCharacter c index)

/-- The tokens of a text that starts at `index`. -/
def scanFrom (index : Nat) : List Char → Except LexError (List Token)
  | [] => .ok []
  | c :: rest =>
    if isBlank c then scanFrom (index + 1) rest
    else do
      let token ← first index c rest
      let length := token.text.length
      let tokens ← scanFrom (index + length) (rest.drop (length - 1))
      return token :: tokens
  termination_by cs => cs.length
  decreasing_by all_goals simp +arith

/-- The tokens of a text. -/
def scan (text : String) : Except LexError (List Token) := scanFrom 0 text.toList

end DataBinding.Token
