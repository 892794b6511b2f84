import DataBinding.Proofs.Copying

/-! Zones of a heap: sets of containers that reach no others. What a heap keeps in a zone is all
that matters to the values in it. -/
namespace DataBinding

variable {ρ : Pairing}

theorem Value.Alike.within_left {v w : Value} (alike : v.Alike ρ w) :
    v.Within fun a => ∃ b, ρ.pairs a b := by
  cases alike with
  | container pair =>
    rintro _ ⟨rfl⟩
    exact ⟨_, pair⟩
  | leaf plain =>
    rintro _ rfl
    cases plain

theorem Value.Alike.within_right {v w : Value} (alike : v.Alike ρ w) :
    w.Within fun b => ∃ a, ρ.pairs a b := by
  cases alike with
  | container pair =>
    rintro _ ⟨rfl⟩
    exact ⟨_, pair⟩
  | leaf plain =>
    rintro _ rfl
    cases plain

namespace Heap

/-- Containers of the heap that reach no others. -/
structure Zone (heap : Heap) (zone : Handle → Prop) : Prop where
  inside : ∀ h, zone h → h.index < heap.size
  closed : ∀ h, zone h → ∀ child ∈ heap.children h, child.Within zone

variable {heap heap' l r : Heap} {zone other : Handle → Prop}

namespace Zone

theorem alike (here : heap.Zone zone) : Heap.Alike (.identity zone) heap heap :=
  alike_identity here.inside here.closed

theorem union (here : heap.Zone zone) (there : heap.Zone other) :
    heap.Zone fun h => zone h ∨ other h where
  inside := fun h mem => mem.elim (here.inside h) (there.inside h)
  closed := by
    rintro h (mem | mem) child inside
    · intro a same
      exact .inl (here.closed h mem child inside a same)
    · intro a same
      exact .inr (there.closed h mem child inside a same)

theorem holds (here : heap.Zone zone) {roots : List Value} (within : ∀ v ∈ roots, v.Within zone) :
    heap.Holds roots := by
  have known := walk_least [] roots (by simp) within here.closed
  intro h mem
  exact here.inside h (known h mem)

/-- What a heap keeps in a zone is the same before and after. -/
theorem alike_of_keeps (here : heap.Zone zone) (keeps : heap.Keeps zone heap') :
    Heap.Alike (.identity zone) heap heap' where
  left := fun pair => here.inside _ pair.2
  right := by
    rintro a _ ⟨rfl, mem⟩
    exact Nat.lt_of_lt_of_le (here.inside a mem) keeps.size
  cells := by
    rintro a _ ⟨rfl, mem⟩
    rw [keeps.cell (here.inside a mem) mem]
    exact Cell.alike_identity (here.closed a mem)

theorem keeps (here : heap.Zone zone) (keeps : heap.Keeps zone heap') : heap'.Zone zone where
  inside := fun h mem => Nat.lt_of_lt_of_le (here.inside h mem) keeps.size
  closed := by
    intro h mem child inside
    rw [children, keeps.cell (here.inside h mem) mem] at inside
    exact here.closed h mem child inside

theorem similar (here : heap.Zone zone) (keeps : heap.Keeps zone heap') {v : Value}
    (within : v.Within zone) : heap.Similar v heap' v :=
  (here.alike_of_keeps keeps).similar (Value.alike_identity within)

end Zone

/-- A fresh container without children. -/
theorem zone_alloc (heap : Heap) {cell : Cell} (empty : cell.children = []) :
    (heap.alloc cell).2.Zone (· = (heap.alloc cell).1) where
  inside := by
    rintro h rfl
    rw [size_alloc]
    exact Nat.lt_succ_self _
  closed := by
    rintro h rfl child mem
    rw [children, cell_alloc_self, empty] at mem
    cases mem

theorem Alike.zone_left (alike : Heap.Alike ρ l r) : l.Zone fun a => ∃ b, ρ.pairs a b where
  inside := fun _ ⟨_, pair⟩ => alike.left pair
  closed := by
    rintro a ⟨b, pair⟩ child mem
    obtain ⟨_, _, values⟩ := List.exists_of_mem_left (alike.children pair) mem
    exact values.within_left

theorem Alike.zone_right (alike : Heap.Alike ρ l r) : r.Zone fun b => ∃ a, ρ.pairs a b where
  inside := fun _ ⟨_, pair⟩ => alike.right pair
  closed := by
    rintro b ⟨a, pair⟩ child mem
    obtain ⟨_, _, values⟩ := List.exists_of_mem_right (alike.children pair) mem
    exact values.within_right

end Heap

end DataBinding
