import DataBinding.Text.Outline
import DataBinding.Value.Read
import DataBinding.Value.Unfolding
import DataBinding.Value.Walking

/-! Values for inspection: each under the name of its type, with a mark where a container
is met inside itself. -/
namespace DataBinding

open Text (Outline)

namespace Tree

mutual

/-- A value under the name of its type. -/
def outline : Tree → Outline
  | .undefined => .word "Undefined".toList
  | .null => .word "Null".toList
  | .bool b => .call "Bool" (.word (boolName b).toList)
  | .number n => .call "Number" (.word (debugLayout.chars n))
  | .string s => .call "String" (.word (Text.debug s.toList))
  | .array items => .call "Array" (.group "[" "]" (itemOutlines items))
  | .object members => .call "Object" (.group "\x7b" "\x7d" (memberOutlines members))
  | .arrayAbove _ => .call "Array" (.word "[Circular]".toList)
  | .objectAbove _ => .call "Object" (.word "\x7bCircular\x7d".toList)

def itemOutlines : List Tree → List (List Char × Outline)
  | [] => []
  | item :: rest => ([], outline item) :: itemOutlines rest

def memberOutlines : List (String × Tree) → List (List Char × Outline)
  | [] => []
  | (key, item) :: rest => (Text.debug key.toList ++ [':', ' '], outline item) :: memberOutlines rest

end

/-- The contents of an array or object without the name of its type. -/
def bareOutline : Tree → Outline
  | .array items => .group "[" "]" (itemOutlines items)
  | .object members => .group "\x7b" "\x7d" (memberOutlines members)
  | tree => tree.outline

end Tree

/-- Outlines values. Nothing of it can fail. -/
def inspector : Visitor Empty Outline where
  undefined := .ok Tree.undefined.outline
  null := .ok Tree.null.outline
  bool b := .ok (Tree.bool b).outline
  number n := .ok (Tree.number n).outline
  string s := .ok (Tree.string s).outline
  array items := .ok (.call "Array" (.group "[" "]" (items.map fun item => ([], item))))
  object members := .ok (.call "Object" (.group "\x7b" "\x7d"
    (members.map fun member => (Text.debug member.1.toList ++ [':', ' '], member.2))))
  circularArray := .ok (Tree.arrayAbove 0).outline
  circularObject := .ok (Tree.objectAbove 0).outline
  skipsUndefined := false

namespace Heap

/-- What a value is printed as for inspection. -/
def debugOutline (heap : Heap) (v : Value) : Outline :=
  ((heap.visit inspector v).answer?).getD default

def debugText (heap : Heap) (v : Value) : String := String.ofList (heap.debugOutline v).inline

def debugIndented (heap : Heap) (v : Value) : String :=
  String.ofList ((heap.debugOutline v).indented [])

end Heap
end DataBinding
