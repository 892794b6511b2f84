import DataBinding.Value.Equality

/-! Copies of what values reach. A deep copy is made container by container: an empty one of
the same kind is registered as the copy of each container that is met, and filled afterwards,
so that sharing and cycles are kept. An extract lists the containers reached, once each, in the
order of a walk that takes every container before its children, and renumbers references to
places in that list. -/
namespace DataBinding

namespace Heap

theorem children_outside {heap : Heap} {h : Handle} (outside : ¬ h.index < heap.size) :
    heap.children h = [] := by
  rw [children, cell_outside outside]
  rfl

/-- The containers found by a walk, after those already `found`. -/
def walk (heap : Heap) (found : List Handle) : List Value → List Handle
  | [] => found
  | .container h :: todo =>
    if _known : h ∈ found then heap.walk found todo
    else heap.walk (found ++ [h]) (heap.children h ++ todo)
  | _ :: todo => heap.walk found todo
  termination_by todo => (unvisited heap.handles found, todo.length)
  decreasing_by
    · exact Prod.Lex.right _ (Nat.lt_succ_self _)
    · have same : unvisited heap.handles (found ++ [h]) = unvisited heap.handles (h :: found) :=
        unvisited_congr fun a => by simp [or_comm]
      rw [same]
      by_cases inside : h.index < heap.size
      · exact Prod.Lex.left _ _ (unvisited_cons_lt ((heap.mem_handles h).2 inside) _known)
      · rw [children_outside inside]
        rcases Nat.lt_or_eq_of_le (unvisited_cons_le heap.handles found h) with less | eq
        · exact Prod.Lex.left _ _ less
        · rw [eq]
          exact Prod.Lex.right _ (Nat.lt_succ_self _)
    · exact Prod.Lex.right _ (Nat.lt_succ_self _)

/-- The containers that the values reach. -/
def reached (heap : Heap) (roots : List Value) : List Handle := heap.walk [] roots

end Heap

/-- A value with its handle moved to the place of that handle in a list. -/
def Value.renumber (order : List Handle) (start : Nat) : Value → Value
  | .container h => .container ⟨start + order.idxOf h⟩
  | v => v

namespace Heap

/-- Copies what the roots reach to the end of another heap. -/
def copyInto (source target : Heap) (roots : List Value) : List Value × Heap :=
  let order := source.reached roots
  let renumber := Value.renumber order target.size
  (roots.map renumber,
    ⟨target.cells ++ (order.map fun h => (source.cell h).map renumber).toArray⟩)

/-- What the roots reach, in a heap of its own. The handles count the containers in the
order of the walk, so they tell nothing about the heap the values came from. -/
def extract (heap : Heap) (roots : List Value) : List Value × Heap :=
  heap.copyInto .empty roots

end Heap

/-- Where in a container a value goes: to the end of an array, or under a name in an object. -/
inductive Slot where
  | element
  | member (key : String)

namespace Cell

/-- An empty container of the same kind. -/
def emptied : Cell → Cell
  | .array _ => .array []
  | .object _ => .object .empty

/-- The elements or members in order. -/
def slots : Cell → List (Slot × Value)
  | .array items => items.map fun item => (.element, item)
  | .object members => members.entries.map fun entry => (.member entry.1, entry.2)

end Cell

/-- The copy of `value` is still to be put into `target`. -/
structure Filling where
  target : Handle
  slot : Slot
  value : Value

namespace Heap

def put (heap : Heap) (target : Handle) (slot : Slot) (v : Value) : Heap :=
  match slot with
  | .element => heap.push target v
  | .member key => heap.insert target key v

/-- What is to be put into the copy of a container of `source`. -/
def fillings (source : Heap) (h copy : Handle) : List Filling :=
  (source.cell h).slots.map fun entry => ⟨copy, entry.1, entry.2⟩

theorem fillings_outside {source : Heap} {h : Handle} (outside : ¬ h.index < source.size)
    (copy : Handle) : source.fillings h copy = [] := by
  rw [fillings, cell_outside outside]
  rfl

/-- Fills copies of containers of `source` in `heap`. A container that is met for the first
time gets an empty copy, which is registered at once and filled next. -/
def fill (source : Heap) (copies : List (Handle × Handle)) (heap : Heap) : List Filling → Heap
  | [] => heap
  | ⟨target, slot, .container h⟩ :: todo =>
    match _known : copies.lookup h with
    | some copy => source.fill copies (heap.put target slot (.container copy)) todo
    | none =>
      let (copy, heap) := heap.alloc (source.cell h).emptied
      source.fill ((h, copy) :: copies) (heap.put target slot (.container copy))
        (source.fillings h copy ++ todo)
  | ⟨target, slot, v⟩ :: todo => source.fill copies (heap.put target slot v) todo
  termination_by todo => (unvisited source.handles (copies.map Prod.fst), todo.length)
  decreasing_by
    · exact Prod.Lex.right _ (Nat.lt_succ_self _)
    · have fresh : h ∉ copies.map Prod.fst := by
        intro mem
        obtain ⟨entry, inside, rfl⟩ := List.mem_map.1 mem
        simpa using List.lookup_eq_none_iff.1 _known entry inside
      by_cases inside : h.index < source.size
      · exact Prod.Lex.left _ _ (unvisited_cons_lt ((source.mem_handles h).2 inside) fresh)
      · rw [fillings_outside inside]
        rcases Nat.lt_or_eq_of_le (unvisited_cons_le source.handles (copies.map Prod.fst) h)
          with less | same
        · exact Prod.Lex.left _ _ less
        · simp only [List.map_cons, same]
          exact Prod.Lex.right _ (Nat.lt_succ_self _)
    · exact Prod.Lex.right _ (Nat.lt_succ_self _)

/-- A copy of a value that shares no container with it. -/
def deepCopy (heap : Heap) (v : Value) : Value × Heap :=
  match v with
  | .container h =>
    let (copy, fresh) := heap.alloc (heap.cell h).emptied
    (.container copy, heap.fill [(h, copy)] fresh (heap.fillings h copy))
  | v => (v, heap)

end Heap
end DataBinding
