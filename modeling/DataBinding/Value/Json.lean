import DataBinding.Json.Basic
import DataBinding.Value.Unfolding
import DataBinding.Value.Walking

/-! Values as JSON. Undefined members are left out and any other undefined is null, as are
NaN and the infinities. A container inside itself has no JSON form. -/
namespace DataBinding

namespace Number

/-- Whole numbers below 2^53 are written as integers. -/
def toJson (n : Number) : Json :=
  if n.isIntegral && n.wholePart < 0x20000000000000 then
    .integer (if n.isNegative then -(n.wholePart : Int) else n.wholePart)
  else if n.isFinite then .number n
  else .null

end Number

namespace Tree

def isUndefined : Tree → Bool
  | .undefined => true
  | _ => false

mutual

/-- The JSON form, unless a container is met inside itself. -/
def json? : Tree → Option Json
  | .undefined => some .null
  | .null => some .null
  | .bool b => some (.bool b)
  | .number n => some n.toJson
  | .string s => some (.string s)
  | .array items => (itemsJson? items).map .array
  | .object members => (membersJson? members).map .object
  | .arrayAbove _ => none
  | .objectAbove _ => none

def itemsJson? : List Tree → Option (List Json)
  | [] => some []
  | item :: rest => do
    let item ← json? item
    let rest ← itemsJson? rest
    some (item :: rest)

def membersJson? : List (String × Tree) → Option (List (String × Json))
  | [] => some []
  | (key, item) :: rest =>
    if item.isUndefined then membersJson? rest
    else do
      let item ← json? item
      let rest ← membersJson? rest
      some ((key, item) :: rest)

end

end Tree

namespace Json

/-- One member for each name, in the order of the names' code points; of members with one
name the last counts. -/
def sortMembers {α : Type} (members : List (String × α)) : List (String × α) :=
  (Members.ofEntries members).entries.mergeSort fun a b => decide (a.1 ≤ b.1)

mutual

/-- The same document with the members of every object sorted. -/
def sorted : Json → Json
  | .array items => .array (sortedItems items)
  | .object members => .object (sortMembers (sortedMembers members))
  | json => json

def sortedItems : List Json → List Json
  | [] => []
  | item :: rest => sorted item :: sortedItems rest

def sortedMembers : List (String × Json) → List (String × Json)
  | [] => []
  | (key, item) :: rest => (key, sorted item) :: sortedMembers rest

end

end Json

/-- Why a value has no JSON form. -/
inductive JsonError where
  | cyclic
  deriving DecidableEq

def JsonError.message : JsonError → String
  | .cyclic => "cyclic value"

/-- Writes values as JSON, members in their own order. -/
def serializer : Visitor JsonError Json where
  undefined := .ok .null
  null := .ok .null
  bool b := .ok (.bool b)
  number n := .ok n.toJson
  string s := .ok (.string s)
  array items := .ok (.array items)
  object members := .ok (.object members)
  circularArray := .error .cyclic
  circularObject := .error .cyclic
  skipsUndefined := true

namespace Heap

/-- The walk that converts a value to JSON with its members sorted. -/
def tryToJson (heap : Heap) (v : Value) : Walk (Except JsonError Json) := do
  let outcome ← heap.visit serializer v
  return outcome.map Json.sorted

/-- The JSON form with members in their own order. -/
def serialize? (heap : Heap) (v : Value) : Option Json := (heap.visit serializer v).answer?

/-- The JSON form with members sorted. -/
def toJson? (heap : Heap) (v : Value) : Option Json := (heap.tryToJson v).answer?

/-- The sorted JSON form, null for a value that has none. -/
def toJson (heap : Heap) (v : Value) : Json := (heap.toJson? v).getD .null

mutual

/-- Builds the value of a document whose members are sorted. -/
def build (heap : Heap) : Json → Value × Heap
  | .null => (.null, heap)
  | .bool b => (.bool b, heap)
  | .integer n => (.number (.ofInt n), heap)
  | .number n => (.number n, heap)
  | .string s => (.string s, heap)
  | .array items =>
    let (items, heap) := heap.buildItems items
    heap.newArray items
  | .object members =>
    let (members, heap) := heap.buildMembers members
    heap.newObject members

def buildItems (heap : Heap) : List Json → List Value × Heap
  | [] => ([], heap)
  | item :: rest =>
    let (item, heap) := heap.build item
    let (rest, heap) := heap.buildItems rest
    (item :: rest, heap)

def buildMembers (heap : Heap) : List (String × Json) → List (String × Value) × Heap
  | [] => ([], heap)
  | (key, item) :: rest =>
    let (item, heap) := heap.build item
    let (rest, heap) := heap.buildMembers rest
    ((key, item) :: rest, heap)

end

/-- A fresh value for a document, its members sorted. -/
def ofJson (heap : Heap) (json : Json) : Value × Heap := heap.build json.sorted

end Heap
end DataBinding
