/-! UTF-16 units and the escapes that write them with four hexadecimal digits. -/
namespace DataBinding.Text

/-- The UTF-16 units of a character: one below U+10000, else a high and a low surrogate. -/
def units16 (c : Char) : List Nat :=
  let code := c.toNat
  if code < 0x10000 then [code]
  else [0xD800 + (code - 0x10000) / 0x400, 0xDC00 + (code - 0x10000) % 0x400]

/-- At least `width` digits to the base 16. -/
def hex (width n : Nat) : List Char :=
  let digits := Nat.toDigits 16 n
  List.replicate (width - digits.length) '0' ++ digits

def hexDigit? (c : Char) : Option Nat :=
  if '0' ≤ c ∧ c ≤ '9' then some (c.toNat - 48)
  else if 'a' ≤ c ∧ c ≤ 'f' then some (c.toNat - 87)
  else if 'A' ≤ c ∧ c ≤ 'F' then some (c.toNat - 55)
  else none

/-- The unit written by the first four characters. -/
def unit? : List Char → Option Nat
  | a :: b :: c :: d :: _ => do
    let a ← hexDigit? a
    let b ← hexDigit? b
    let c ← hexDigit? c
    let d ← hexDigit? d
    some (((a * 16 + b) * 16 + c) * 16 + d)
  | _ => none

/-- The character escaped after a backslash and `u`, and how many characters write it. A
surrogate is read only as a high one directly followed by an escaped low one. -/
def escaped? (cs : List Char) : Option (Char × Nat) :=
  match unit? cs with
  | none => none
  | some high =>
    if high < 0xD800 ∨ 0xE000 ≤ high then some (Char.ofNat high, 4)
    else if 0xDC00 ≤ high then none
    else
      match cs.drop 4 with
      | '\\' :: 'u' :: rest =>
        match unit? rest with
        | none => none
        | some low =>
          if 0xDC00 ≤ low ∧ low < 0xE000 then
            some (Char.ofNat (0x10000 + (high - 0xD800) * 0x400 + (low - 0xDC00)), 10)
          else none
      | _ => none

end DataBinding.Text
