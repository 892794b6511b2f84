import DataBinding.Proofs.Reachability
import Mathlib.Data.Set.Function

/-! A deep copy is an isolated isomorphic image of its original. Each container that the original
reaches has one copy, which holds the copies of what it holds, so sharing and cycles come back as
they were; the copies are all new, and nothing that was there before has changed. -/
namespace DataBinding

/-- `copy`, in the heap `after`, is a copy of `v`, in the heap `before`, that shares nothing. -/
structure Heap.IsolatedCopy (before after : Heap) (v copy : Value) : Prop where
  /-- The containers there were hold what they held. -/
  unchanged : ∀ h : Handle, h.index < before.size → after.cell h = before.cell h
  /-- The containers of the copy were not there before. -/
  fresh : ∀ h, after.Reaches copy h → before.size ≤ h.index ∧ h.index < after.size
  /-- The containers of the original and those of the copy correspond one to one, and those that
  correspond are of one kind and have equal primitives and corresponding containers in the same
  places, under the same names. -/
  isomorphic : ∃ f : Handle → Handle,
    Set.BijOn f {h | before.Reaches v h} {h | after.Reaches copy h} ∧ copy = v.rename f ∧
      ∀ h, before.Reaches v h → after.cell (f h) = (before.cell h).map (Value.rename f)
  /-- The copy is structurally equal to the original. -/
  equal : after.deepEqual v copy = true

theorem Value.renumber_eq_rename (order : List Handle) (start : Nat) :
    Value.renumber order start = Value.rename fun h => ⟨start + order.idxOf h⟩ := by
  funext v
  cases v <;> rfl

theorem Cell.children_map (c : Cell) (f : Value → Value) :
    (c.map f).children = c.children.map f := by
  cases c with
  | array items => rfl
  | object members => simp [Cell.map, Cell.children, Members.map, Members.values]

theorem Value.container_mem_map_rename {f : Handle → Handle} {vs : List Value} {c : Handle} :
    Value.container c ∈ vs.map (Value.rename f) ↔ ∃ h, Value.container h ∈ vs ∧ f h = c := by
  rw [List.mem_map]
  constructor
  · rintro ⟨v, mem, same⟩
    cases v with
    | container h => exact ⟨h, mem, by cases same; rfl⟩
    | _ => cases same
  · rintro ⟨h, mem, rfl⟩
    exact ⟨.container h, mem, rfl⟩

namespace Heap

/-- What an image of a value reaches is the image of what the value reaches. -/
theorem reaches_rename_iff {before after : Heap} {v : Value} {f : Handle → Handle}
    (cells : ∀ h, before.Reaches v h → after.cell (f h) = (before.cell h).map (Value.rename f))
    (c : Handle) : after.Reaches (v.rename f) c ↔ ∃ h, before.Reaches v h ∧ f h = c := by
  have children : ∀ h, before.Reaches v h →
      after.children (f h) = (before.children h).map (Value.rename f) := by
    intro h reaches
    rw [Heap.children, cells h reaches, Cell.children_map]
    rfl
  constructor
  · intro reaches
    induction reaches with
    | root same =>
      cases v with
      | container h => exact ⟨h, .root rfl, by cases same; rfl⟩
      | _ => cases same
    | child _ inside ih =>
      obtain ⟨h, reaches, rfl⟩ := ih
      rw [children h reaches, Value.container_mem_map_rename] at inside
      obtain ⟨c, inside, rfl⟩ := inside
      exact ⟨c, .child reaches inside, rfl⟩
  · rintro ⟨h, reaches, rfl⟩
    induction reaches with
    | root same =>
      subst same
      exact .root rfl
    | @child h c reaches inside ih =>
      refine .child ih ?_
      rw [children h reaches, Value.container_mem_map_rename]
      exact ⟨c, inside, rfl⟩

/-- A deep copy of a value without dangling references shares nothing with what was there before,
and has the shape of the value. -/
theorem deepCopy_isolated (heap : Heap) (v : Value)
    (present : ∀ h, heap.Reaches v h → h.index < heap.size) :
    heap.IsolatedCopy (heap.deepCopy v).2 v (heap.deepCopy v).1 := by
  have holds : heap.Holds [v] := fun h mem => present h ((mem_reached_iff h).1 mem)
  have grows := heap.grows_deepCopy v
  let place : Handle → Handle := fun h => ⟨heap.size + (heap.reached [v]).idxOf h⟩
  have copy : (heap.deepCopy v).1 = v.rename place := by
    rw [deepCopy_eq, Value.renumber_eq_rename]
  have size : (heap.deepCopy v).2.size = heap.size + (heap.reached [v]).length := by
    rw [deepCopy_eq, size_copyInto]
  have cells : ∀ h, heap.Reaches v h →
      (heap.deepCopy v).2.cell (place h) = (heap.cell h).map (Value.rename place) := by
    intro h reaches
    have listed := List.idxOf_lt_length_of_mem ((mem_reached_iff h).2 reaches)
    rw [deepCopy_eq, cell_copyInto heap heap [v] listed, List.getElem_idxOf,
      Value.renumber_eq_rename]
  have image := reaches_rename_iff cells
  rw [← copy] at image
  exact {
    unchanged := fun h old => grows.cell old trivial
    fresh := by
      intro c reaches
      obtain ⟨h, inside, rfl⟩ := (image c).1 reaches
      have listed := List.idxOf_lt_length_of_mem ((mem_reached_iff h).2 inside)
      exact ⟨Nat.le_add_right _ _, by rw [size]; exact Nat.add_lt_add_left listed _⟩
    isomorphic := by
      refine ⟨place, ⟨fun h reaches => (image _).2 ⟨h, reaches, rfl⟩, ?_, fun c reaches => ?_⟩,
        copy, cells⟩
      · intro a reaches b _ same
        have places : (heap.reached [v]).idxOf a = (heap.reached [v]).idxOf b := by
          simpa [place] using same
        exact (List.idxOf_inj ((mem_reached_iff a).2 reaches)).1 places
      · obtain ⟨h, inside, same⟩ := (image c).1 reaches
        exact ⟨h, inside, same⟩
    equal := by
      -- The original reads the same in the grown heap, so the two can be compared there.
      have kept : heap.Similar v (heap.deepCopy v).2 v :=
        (holds.alike.grow (.refl _ _) grows).similar
          (Value.alike_identity (reached_roots List.mem_cons_self))
      exact (similar_iff_deepEqual _ _).1 (kept.symm.trans (similar_deepCopy holds)) }

/-- An object that leads back to itself and to an array with one object in two places. -/
def knot : Heap :=
  ⟨#[.object (.ofEntries [("self", .container ⟨0⟩), ("pair", .container ⟨1⟩)]),
    .array [.container ⟨2⟩, .number .nan, .container ⟨2⟩],
    .object (.ofEntries [("up", .container ⟨0⟩)])]⟩

theorem knot_present (h : Handle) (reaches : knot.Reaches (.container ⟨0⟩) h) :
    h.index < knot.size := by
  have root : (Value.container ⟨0⟩).Within (·.index < 3) := by
    rintro _ ⟨rfl⟩
    decide
  refine reaches.least root ?_
  rintro ⟨index⟩ inside _ mem c rfl
  match index, inside with
  | 0, _ =>
    change Value.container c ∈ [.container ⟨0⟩, .container ⟨1⟩] at mem
    have here : c = ⟨0⟩ ∨ c = ⟨1⟩ := by simpa using mem
    rcases here with rfl | rfl <;> decide
  | 1, _ =>
    change Value.container c ∈ [.container ⟨2⟩, .number .nan, .container ⟨2⟩] at mem
    have here : c = ⟨2⟩ := by simpa using mem
    rw [here]
    decide
  | 2, _ =>
    change Value.container c ∈ [.container ⟨0⟩] at mem
    have here : c = ⟨0⟩ := by simpa using mem
    rw [here]
    decide

theorem deepCopy_isolated_knot :
    (∀ h, knot.Reaches (.container ⟨0⟩) h → h.index < knot.size) ∧
      knot.IsolatedCopy (knot.deepCopy (.container ⟨0⟩)).2 (.container ⟨0⟩)
        (knot.deepCopy (.container ⟨0⟩)).1 :=
  ⟨knot_present, deepCopy_isolated knot (.container ⟨0⟩) knot_present⟩

end Heap
end DataBinding
