import DataBinding.Value.Basic
import DataBinding.Value.Unvisited

/-! The two equalities of values. `identical` compares containers by identity.
`Heap.deepEqual` compares them by structure: it works off a list of pairs that must agree,
and a pair of containers met again inside itself is taken to agree, so cyclic values are
compared too. -/
namespace DataBinding

/-- Equality of primitives, with NaN equal to NaN, and identity of containers. -/
def Value.identical : Value → Value → Bool
  | .undefined, .undefined => true
  | .null, .null => true
  | .bool a, .bool b => a == b
  | .number a, .number b => a.equals b || (a.isNaN && b.isNaN)
  | .string a, .string b => a == b
  | .container a, .container b => a == b
  | _, _ => false

/-- The pairs of children that must agree for two cells to agree: by place in arrays of
equal length, by name in objects with the same names. -/
def Cell.childPairs? : Cell → Cell → Option (List (Value × Value))
  | .array xs, .array ys => if xs.length = ys.length then some (xs.zip ys) else none
  | .object m, .object n =>
    if m.size = n.size then
      m.entries.mapM fun entry => (n.get? entry.1).map fun other => (entry.2, other)
    else none
  | _, _ => none

namespace Heap

def handles (heap : Heap) : List Handle := (List.range heap.size).map Handle.mk

def handlePairs (heap : Heap) : List (Handle × Handle) :=
  heap.handles.flatMap fun a => heap.handles.map fun b => (a, b)

theorem mem_handles (heap : Heap) (h : Handle) : h ∈ heap.handles ↔ h.index < heap.size := by
  simp only [handles, List.mem_map, List.mem_range]
  exact ⟨fun ⟨i, hi, same⟩ => same ▸ hi, fun hi => ⟨h.index, hi, rfl⟩⟩

theorem cell_outside {heap : Heap} {h : Handle} (outside : ¬ h.index < heap.size) :
    heap.cell h = .array [] := by
  have none : heap.cells[h.index]? = none := Array.getElem?_eq_none (Nat.not_lt.1 outside)
  simp [cell, none]

theorem childPairs?_nil_left {b : Cell} {pairs : List (Value × Value)}
    (agree : (Cell.array []).childPairs? b = some pairs) : pairs = [] := by
  cases b <;> simp_all [Cell.childPairs?]

theorem childPairs?_nil_right {a : Cell} {pairs : List (Value × Value)}
    (agree : a.childPairs? (Cell.array []) = some pairs) : pairs = [] := by
  cases a <;> simp_all [Cell.childPairs?]

/-- Two containers with children to compare are both in the heap, so a walk that enters
their pair has fewer pairs left to enter. -/
theorem childPairs?_measure {heap : Heap} {entered : List (Handle × Handle)} {x y : Handle}
    {pairs : List (Value × Value)} (fresh : (x, y) ∉ entered)
    (agree : (heap.cell x).childPairs? (heap.cell y) = some pairs) :
    unvisited heap.handlePairs ((x, y) :: entered) < unvisited heap.handlePairs entered ∨
      pairs = [] := by
  by_cases left : x.index < heap.size
  · by_cases right : y.index < heap.size
    · refine .inl (unvisited_cons_lt ?_ fresh)
      simp only [handlePairs, List.mem_flatMap, List.mem_map]
      exact ⟨x, (heap.mem_handles x).2 left, y, (heap.mem_handles y).2 right, rfl⟩
    · rw [cell_outside right] at agree
      exact .inr (childPairs?_nil_right agree)
  · rw [cell_outside left] at agree
    exact .inr (childPairs?_nil_left agree)

/-- Whether all pairs agree. A pair of containers in `entered`, inside which the pairs are,
is taken to agree; it is forgotten again where the walk leaves it. -/
def agree (heap : Heap) (entered : List (Handle × Handle)) : List (Value × Value) → Bool
  | [] => true
  | (a, b) :: todo =>
    match a, b with
    | .container x, .container y =>
      if _known : x = y ∨ (x, y) ∈ entered then heap.agree entered todo
      else
        match _pairs : (heap.cell x).childPairs? (heap.cell y) with
        | none => false
        | some pairs => heap.agree ((x, y) :: entered) pairs && heap.agree entered todo
    | a, b => a.identical b && heap.agree entered todo
  termination_by todo => (unvisited heap.handlePairs entered, todo.length)
  decreasing_by
    · exact Prod.Lex.right _ (Nat.lt_succ_self _)
    · rcases childPairs?_measure (fun seen => _known (.inr seen)) _pairs with less | empty
      · exact Prod.Lex.left _ _ less
      · subst empty
        rcases Nat.lt_or_eq_of_le (unvisited_cons_le heap.handlePairs entered (x, y)) with less | same
        · exact Prod.Lex.left _ _ less
        · rw [same]
          exact Prod.Lex.right _ (Nat.succ_pos _)
    · exact Prod.Lex.right _ (Nat.lt_succ_self _)
    · exact Prod.Lex.right _ (Nat.lt_succ_self _)

/-- Structural equality. -/
def deepEqual (heap : Heap) (a b : Value) : Bool := heap.agree [] [(a, b)]

end Heap
end DataBinding
