import DataBinding.Json.Basic
import DataBinding.Number.Numeral

/-! Reading JSON text. A reader takes one thing from the front of the text and returns it
with the rest. The argument `lone` says what an unpaired surrogate escape reads as; with
none it is refused. -/
namespace DataBinding.Json

def isBlank (c : Char) : Bool := c == ' ' || c == '\n' || c == '\t' || c == '\r'

def skipBlanks (cs : List Char) : List Char := cs.dropWhile isBlank

/-- One or more digits. -/
def digits? (cs : List Char) : Option (List Char × List Char) :=
  match cs.takeWhile Char.isDigit with
  | [] => none
  | digits => some (digits, cs.dropWhile Char.isDigit)

def fraction? : List Char → Option (List Char × List Char)
  | '.' :: rest => digits? rest
  | cs => some ([], cs)

def exponent? (cs : List Char) : Option (Option (List Char × List Char) × List Char) :=
  match cs with
  | [] => some (none, cs)
  | mark :: rest =>
    if mark = 'e' ∨ mark = 'E' then
      let (sign, rest) := match rest with
        | '+' :: rest => (['+'], rest)
        | '-' :: rest => (['-'], rest)
        | rest => ([], rest)
      (digits? rest).map fun (digits, rest) => (some (sign, digits), rest)
    else some (none, cs)

/-- An unsigned number; its whole part has no leading zeros. -/
def numeral? (cs : List Char) : Option (Numeral × List Char) := do
  let (whole, rest) ← digits? cs
  guard (whole = ['0'] ∨ whole.head? ≠ some '0')
  let (fraction, rest) ← fraction? rest
  let (exponent, rest) ← exponent? rest
  some (⟨whole, fraction, exponent⟩, rest)

/-- A number is whole if it has neither fraction nor exponent and fits 64 bits; there is
no whole negative zero. -/
def ofNumeral (negative : Bool) (numeral : Numeral) : Json :=
  let whole := Nat.ofDigitChars 10 numeral.whole 0
  if numeral.fraction.isEmpty && numeral.exponent.isNone &&
      (if negative then 0 < whole && whole ≤ 0x8000000000000000
        else whole < 0x10000000000000000) then
    .integer (if negative then -(whole : Int) else whole)
  else .number (numeral.number negative)

def number? (cs : List Char) : Option (Json × List Char) :=
  match cs with
  | '-' :: rest => (numeral? rest).map fun (numeral, rest) => (ofNumeral true numeral, rest)
  | cs => (numeral? cs).map fun (numeral, rest) => (ofNumeral false numeral, rest)

def simpleEscape? (c : Char) : Option Char :=
  match c with
  | '\x22' => some '\x22'
  | '\\' => some '\\'
  | '/' => some '/'
  | 'b' => some (Char.ofNat 8)
  | 'f' => some (Char.ofNat 12)
  | 'n' => some '\n'
  | 'r' => some '\r'
  | 't' => some '\t'
  | _ => none

/-- The rest of a string after its opening quote. -/
def stringTail? (lone : Option Char) : List Char → Option (List Char × List Char)
  | [] => none
  | c :: rest =>
    if c = '\x22' then some ([], rest)
    else if c.toNat < 32 then none
    else if c = '\\' then
      match rest with
      | [] => none
      | 'u' :: rest => do
        let (read, used) ← (Text.escaped? rest).or do
          let _ ← Text.unit? rest
          let read ← lone
          some (read, 4)
        let (tail, rest) ← stringTail? lone (rest.drop used)
        some (read :: tail, rest)
      | mark :: rest => do
        let read ← simpleEscape? mark
        let (tail, rest) ← stringTail? lone rest
        some (read :: tail, rest)
    else do
      let (tail, rest) ← stringTail? lone rest
      some (c :: tail, rest)
  termination_by cs => cs.length
  decreasing_by all_goals simp +arith

def string? (lone : Option Char) : List Char → Option (String × List Char)
  | '\x22' :: rest => (stringTail? lone rest).map fun (s, rest) => (String.ofList s, rest)
  | _ => none

/-- A member name and the colon after it. -/
def key? (lone : Option Char) (cs : List Char) : Option (String × List Char) := do
  let (key, rest) ← string? lone (skipBlanks cs)
  match skipBlanks rest with
  | ':' :: rest => some (key, rest)
  | _ => none

mutual

/-- A value after blanks; `fuel` bounds the reading steps. -/
def value? (lone : Option Char) : Nat → List Char → Option (Json × List Char)
  | 0, _ => none
  | fuel + 1, cs =>
    match skipBlanks cs with
    | 'n' :: 'u' :: 'l' :: 'l' :: rest => some (.null, rest)
    | 't' :: 'r' :: 'u' :: 'e' :: rest => some (.bool true, rest)
    | 'f' :: 'a' :: 'l' :: 's' :: 'e' :: rest => some (.bool false, rest)
    | '[' :: rest =>
      match skipBlanks rest with
      | ']' :: rest => some (.array [], rest)
      | rest => (items? lone fuel rest).map fun (items, rest) => (.array items, rest)
    | '\x7b' :: rest =>
      match skipBlanks rest with
      | '\x7d' :: rest => some (.object [], rest)
      | rest => (members? lone fuel rest).map fun (members, rest) => (.object members, rest)
    | '\x22' :: rest =>
      (stringTail? lone rest).map fun (s, rest) => (.string (String.ofList s), rest)
    | cs => number? cs

/-- One or more items and the closing bracket. -/
def items? (lone : Option Char) : Nat → List Char → Option (List Json × List Char)
  | 0, _ => none
  | fuel + 1, cs => do
    let (item, rest) ← value? lone fuel cs
    match skipBlanks rest with
    | ',' :: rest =>
      let (items, rest) ← items? lone fuel rest
      some (item :: items, rest)
    | ']' :: rest => some ([item], rest)
    | _ => none

/-- One or more members and the closing brace. -/
def members? (lone : Option Char) : Nat → List Char → Option (List (String × Json) × List Char)
  | 0, _ => none
  | fuel + 1, cs => do
    let (key, rest) ← key? lone cs
    let (item, rest) ← value? lone fuel rest
    match skipBlanks rest with
    | ',' :: rest =>
      let (members, rest) ← members? lone fuel rest
      some ((key, item) :: members, rest)
    | '\x7d' :: rest => some ([(key, item)], rest)
    | _ => none

end

/-- A value at the front of a text. Every step takes a character or starts an item, so
the text's length bounds the steps. -/
def take? (lone : Option Char) (cs : List Char) : Option (Json × List Char) :=
  value? lone (2 * cs.length + 2) cs

/-- The document written by a whole text. -/
def ofText? (text : String) : Option Json :=
  match take? none text.toList with
  | some (json, rest) => if (skipBlanks rest).isEmpty then some json else none
  | none => none

end DataBinding.Json
