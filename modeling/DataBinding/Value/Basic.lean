import DataBinding.Number.Layout
import DataBinding.Value.Members

/-! Dynamic values over a heap of shared containers. A container is known by its handle, so
a change made through one handle is seen through every copy of it. -/
namespace DataBinding

/-- The identity of a container. -/
structure Handle where
  index : Nat
  deriving DecidableEq

inductive Value where
  | undefined
  | null
  | bool (b : Bool)
  | number (n : Number)
  | string (s : String)
  | container (h : Handle)
  deriving DecidableEq

instance : Inhabited Value := ⟨.undefined⟩

/-- What a container holds. -/
inductive Cell where
  | array (items : List Value)
  | object (members : Members Value)

namespace Cell

instance : Inhabited Cell := ⟨.array []⟩

/-- The elements or member values in order. -/
def children : Cell → List Value
  | .array items => items
  | .object members => members.values

def map (f : Value → Value) : Cell → Cell
  | .array items => .array (items.map f)
  | .object members => .object (members.map f)

end Cell

structure Heap where
  cells : Array Cell

namespace Heap

def empty : Heap := ⟨#[]⟩

def size (heap : Heap) : Nat := heap.cells.size

/-- The contents of a container; a handle from outside the heap reads as an empty array. -/
def cell (heap : Heap) (h : Handle) : Cell := heap.cells[h.index]?.getD (.array [])

/-- A fresh container. -/
def alloc (heap : Heap) (cell : Cell) : Handle × Heap :=
  (⟨heap.size⟩, ⟨heap.cells.push cell⟩)

def newArray (heap : Heap) (items : List Value) : Value × Heap :=
  let (h, heap) := heap.alloc (.array items)
  (.container h, heap)

/-- A fresh object with the entries inserted one after another. -/
def newObject (heap : Heap) (entries : List (String × Value)) : Value × Heap :=
  let (h, heap) := heap.alloc (.object (Members.ofEntries entries))
  (.container h, heap)

def replace (heap : Heap) (h : Handle) (cell : Cell) : Heap :=
  ⟨heap.cells.setIfInBounds h.index cell⟩

def items? (heap : Heap) (h : Handle) : Option (List Value) :=
  match heap.cell h with
  | .array items => some items
  | .object _ => none

def members? (heap : Heap) (h : Handle) : Option (Members Value) :=
  match heap.cell h with
  | .array _ => none
  | .object members => some members

def children (heap : Heap) (h : Handle) : List Value := (heap.cell h).children

/-- Changes the elements of an array; other containers stay as they are. -/
def modifyItems (heap : Heap) (h : Handle) (f : List Value → List Value) : Heap :=
  match heap.items? h with
  | some items => heap.replace h (.array (f items))
  | none => heap

/-- Changes the members of an object; other containers stay as they are. -/
def modifyMembers (heap : Heap) (h : Handle) (f : Members Value → Members Value) : Heap :=
  match heap.members? h with
  | some members => heap.replace h (.object (f members))
  | none => heap

def push (heap : Heap) (h : Handle) (v : Value) : Heap := heap.modifyItems h (· ++ [v])

def pop (heap : Heap) (h : Handle) : Heap := heap.modifyItems h List.dropLast

/-- Stores at an index; a gap before it is filled with undefined. -/
def store (heap : Heap) (h : Handle) (index : Nat) (v : Value) : Heap :=
  heap.modifyItems h fun items =>
    (items ++ List.replicate (index + 1 - items.length) Value.undefined).set index v

def insert (heap : Heap) (h : Handle) (key : String) (v : Value) : Heap :=
  heap.modifyMembers h fun members => members.insert key v

def erase (heap : Heap) (h : Handle) (key : String) : Heap :=
  heap.modifyMembers h fun members => members.erase key

theorem size_alloc (heap : Heap) (cell : Cell) : (heap.alloc cell).2.size = heap.size + 1 := by
  simp [size, alloc]

theorem cell_alloc (heap : Heap) (cell : Cell) (h : Handle) :
    (heap.alloc cell).2.cell h = if h.index = heap.size then cell else heap.cell h := by
  simp only [Heap.cell, alloc, size, Array.getElem?_push]
  by_cases last : h.index = heap.cells.size <;> simp [last]

theorem cell_replace (heap : Heap) (h other : Handle) (cell : Cell) (inside : h.index < heap.size) :
    (heap.replace h cell).cell other = if other = h then cell else heap.cell other := by
  simp only [Heap.cell, replace, Array.getElem?_setIfInBounds]
  by_cases same : other = h
  · subst same
    have bound : other.index < heap.cells.size := inside
    simp only [if_true, if_pos bound, Option.getD_some]
  · have apart : h.index ≠ other.index := fun eq => same (by cases other; cases h; simp_all)
    simp only [if_neg same, if_neg apart]

theorem size_replace (heap : Heap) (h : Handle) (cell : Cell) :
    (heap.replace h cell).size = heap.size := by
  simp [size, replace]

end Heap
end DataBinding
