import DataBinding.Number.Layout
import DataBinding.Text.Units

/-! JSON documents and their compact text. Whole numbers and other numbers are kept apart,
and members keep the order in which they are written. -/
namespace DataBinding

inductive Json where
  | null
  | bool (b : Bool)
  | integer (n : Int)
  | number (n : Number)
  | string (s : String)
  | array (items : List Json)
  | object (members : List (String × Json))

namespace Json

instance : Inhabited Json := ⟨.null⟩

/-- A character inside a JSON string. -/
def stringChar (c : Char) : List Char :=
  if c = '\x22' then ['\\', '\x22']
  else if c = '\\' then ['\\', '\\']
  else if c = '\n' then ['\\', 'n']
  else if c = '\r' then ['\\', 'r']
  else if c = '\t' then ['\\', 't']
  else if c.toNat = 8 then ['\\', 'b']
  else if c.toNat = 12 then ['\\', 'f']
  else if c.toNat < 32 then '\\' :: 'u' :: Text.hex 4 c.toNat
  else [c]

def stringChars (s : String) : List Char :=
  '\x22' :: (s.toList.flatMap stringChar ++ ['\x22'])

def integerChars (n : Int) : List Char :=
  if n < 0 then '-' :: Nat.toDigits 10 n.natAbs else Nat.toDigits 10 n.natAbs

mutual

/-- The text without any blanks. -/
def chars : Json → List Char
  | .null => "null".toList
  | .bool b => (if b then "true" else "false").toList
  | .integer n => integerChars n
  | .number n => jsonLayout.chars n
  | .string s => stringChars s
  | .array items => '[' :: (itemsChars items ++ [']'])
  | .object members => '\x7b' :: (membersChars members ++ ['\x7d'])

def itemsChars : List Json → List Char
  | [] => []
  | [item] => chars item
  | item :: rest => chars item ++ ',' :: itemsChars rest

def membersChars : List (String × Json) → List Char
  | [] => []
  | [(key, item)] => stringChars key ++ ':' :: chars item
  | (key, item) :: rest => stringChars key ++ ':' :: (chars item ++ ',' :: membersChars rest)

end

def text (json : Json) : String := String.ofList json.chars

def member? (json : Json) (key : String) : Option Json :=
  match json with
  | .object members => members.lookup key
  | _ => none

end Json
end DataBinding
