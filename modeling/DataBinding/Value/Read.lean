import DataBinding.Value.Basic

/-! Reads that never fail: what is not there reads as undefined. -/
namespace DataBinding

/-- Indices are words of 64 bits. -/
def indexLimit : Nat := 0x10000000000000000

/-- The index that a name stands for: decimal digits without leading zeros that fit a word. -/
def arrayIndex? (key : String) : Option Nat :=
  let index := Nat.ofDigitChars 10 key.toList 0
  if index < indexLimit ∧ Nat.toDigits 10 index = key.toList then some index else none

/-- The whole part of a nonnegative number as an index; what does not fit is the last one. -/
def Number.toIndex (n : Number) : Nat := min n.wholePart (indexLimit - 1)

def boolName (b : Bool) : String := if b then "true" else "false"

namespace Value

/-- Undefined, null, false, the zeros, NaN and the empty string are falsy. -/
def isTruthy : Value → Bool
  | .undefined => false
  | .null => false
  | .bool b => b
  | .number n => !n.isZero && !n.isNaN
  | .string s => !s.isEmpty
  | .container _ => true

/-- The property name that a value stands for; containers have none. -/
def key? : Value → Option String
  | .undefined => some "undefined"
  | .null => some "null"
  | .bool b => some (boolName b)
  | .number n => some n.key
  | .string s => some s
  | .container _ => none

/-- The numeric value, taken as zero for what is not a number. -/
def numberOrZero : Value → Number
  | .number n => n
  | _ => .zero false

end Value

namespace Heap

def typeName (heap : Heap) : Value → String
  | .undefined => "undefined"
  | .null => "null"
  | .bool _ => "boolean"
  | .number _ => "number"
  | .string _ => "string"
  | .container h =>
    match heap.cell h with
    | .array _ => "array"
    | .object _ => "object"

/-- Objects have their member names, whatever is stored there; arrays have `length` and
the indices of their elements; nothing else has keys. -/
def hasKey (heap : Heap) (v : Value) (key : String) : Bool :=
  match v with
  | .container h =>
    match heap.cell h with
    | .object members => members.contains key
    | .array items => key == "length" || (arrayIndex? key).any (· < items.length)
  | _ => false

def member (heap : Heap) (v : Value) (key : String) : Value :=
  match v with
  | .container h =>
    match heap.cell h with
    | .object members => (members.get? key).getD .undefined
    | .array items =>
      if key = "length" then .number (.ofNat items.length)
      else ((arrayIndex? key).bind fun index => items[index]?).getD .undefined
  | .string s =>
    if key = "length" then .number (.ofNat s.toList.length)
    else (((arrayIndex? key).bind fun index => s.toList[index]?).map
      fun c => Value.string (String.singleton c)).getD .undefined
  | _ => .undefined

/-- A read through the name that a value stands for. -/
def memberNamed (heap : Heap) (v key : Value) : Value :=
  match key.key? with
  | some name => heap.member v name
  | none => .undefined

/-- A read through a computed key. An array takes a nonnegative whole number as an index
at once; any other key is read by its name. -/
def memberAt (heap : Heap) (v key : Value) : Value :=
  match v, key with
  | .container h, .number n =>
    match heap.cell h with
    | .array items =>
      if n.isIntegral && (!n.isNegative || n.isZero) then (items[n.toIndex]?).getD .undefined
      else heap.memberNamed v key
    | .object _ => heap.memberNamed v key
  | _, _ => heap.memberNamed v key

end Heap
end DataBinding
