import DataBinding.Proofs.Copying

/-! What values reach, stated without a walk, and values written with other containers. -/
namespace DataBinding

/-- The same value with its container replaced. -/
def Value.rename (f : Handle → Handle) : Value → Value
  | .container h => .container (f h)
  | v => v

/-- The containers that are found from a value by passing from containers to their children. -/
inductive Heap.Reaches (heap : Heap) (v : Value) : Handle → Prop where
  | root {h : Handle} : v = .container h → heap.Reaches v h
  | child {h c : Handle} : heap.Reaches v h → .container c ∈ heap.children h → heap.Reaches v c

namespace Heap

variable {heap : Heap} {v : Value}

/-- The walk finds exactly what a value reaches. -/
theorem mem_reached_iff (h : Handle) : h ∈ heap.reached [v] ↔ heap.Reaches v h := by
  constructor
  · refine walk_least [] [v] (by simp) ?_ ?_ h
    · intro w mem h same
      rw [List.mem_singleton] at mem
      exact .root (mem ▸ same)
    · rintro h reaches child inside c rfl
      exact .child reaches inside
  · intro reaches
    induction reaches with
    | root same => exact reached_roots List.mem_cons_self _ same
    | child _ inside ih => exact reached_children ih inside _ rfl

theorem Reaches.within_of_mem {h : Handle} (reaches : heap.Reaches v h) {w : Value}
    (mem : w ∈ heap.children h) : w.Within (heap.Reaches v) := by
  rintro c rfl
  exact .child reaches mem

/-- A set of containers that holds a value's and is closed under children holds what it reaches. -/
theorem Reaches.least {kept : Handle → Prop} (root : v.Within kept)
    (closed : ∀ h, kept h → ∀ w ∈ heap.children h, w.Within kept) {h : Handle}
    (reaches : heap.Reaches v h) : kept h := by
  induction reaches with
  | root same => exact root _ same
  | child _ inside ih => exact closed _ ih _ inside _ rfl

end Heap
end DataBinding
