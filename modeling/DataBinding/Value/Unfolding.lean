import DataBinding.Value.Copy

/-! A value as a tree. Shared containers are written out wherever they are met; a container
met inside itself is written as how many levels up it is, so every value has a finite tree
and the tree tells nothing about handles. -/
namespace DataBinding

inductive Tree where
  | undefined
  | null
  | bool (b : Bool)
  | number (n : Number)
  | string (s : String)
  | array (items : List Tree)
  | object (members : List (String × Tree))
  /-- The array that encloses this place `levels` levels up. -/
  | arrayAbove (levels : Nat)
  /-- The object that encloses this place `levels` levels up. -/
  | objectAbove (levels : Nat)

instance : Inhabited Tree := ⟨.undefined⟩

namespace Heap

theorem enclosing_measure {heap : Heap} {enclosing : List Handle} {h : Handle} {child : Value}
    (fresh : h ∉ enclosing) (inside : child ∈ heap.children h) :
    unvisited heap.handles (h :: enclosing) < unvisited heap.handles enclosing := by
  apply unvisited_cons_lt _ fresh
  rw [mem_handles]
  false_or_by_contra
  rename_i outside
  rw [children_outside outside] at inside
  exact List.not_mem_nil inside

theorem item_mem_children {heap : Heap} {h : Handle} {items : List Value} {v : Value}
    (cell : heap.cell h = .array items) (mem : v ∈ items) : v ∈ heap.children h := by
  rw [children, cell]
  exact mem

theorem member_mem_children {heap : Heap} {h : Handle} {members : Members Value}
    {entry : String × Value} (cell : heap.cell h = .object members)
    (mem : entry ∈ members.entries) : entry.2 ∈ heap.children h := by
  rw [children, cell]
  exact List.mem_map_of_mem mem

/-- The tree of a value inside the given containers, the nearest first. -/
def unfoldWithin (heap : Heap) (enclosing : List Handle) : Value → Tree
  | .undefined => .undefined
  | .null => .null
  | .bool b => .bool b
  | .number n => .number n
  | .string s => .string s
  | .container h =>
    match _cell : heap.cell h with
    | .array items =>
      if _open : h ∈ enclosing then .arrayAbove (enclosing.idxOf h + 1)
      else .array (items.attach.map fun item => heap.unfoldWithin (h :: enclosing) item.val)
    | .object members =>
      if _open : h ∈ enclosing then .objectAbove (enclosing.idxOf h + 1)
      else .object (members.entries.attach.map fun entry =>
        (entry.val.1, heap.unfoldWithin (h :: enclosing) entry.val.2))
  termination_by unvisited heap.handles enclosing
  decreasing_by
    · exact enclosing_measure _open (item_mem_children _cell item.property)
    · exact enclosing_measure _open (member_mem_children _cell entry.property)

def unfold (heap : Heap) (v : Value) : Tree := heap.unfoldWithin [] v

end Heap
end DataBinding
