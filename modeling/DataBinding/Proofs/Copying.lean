import DataBinding.Proofs.Filling
import DataBinding.Proofs.Lockstep
import DataBinding.Proofs.Similarity

/-! Copies. The walk lists every container that its roots reach, once, so a copy has a
container for each of them and no reference out of the copy: the original and the copy are
alike under the pairing of each container with its copy. Alike values are copied alike. -/
namespace DataBinding

namespace Heap

variable {heap : Heap}

theorem walk_closed (found : List Handle) (todo : List Value) :
    found ⊆ heap.walk found todo ∧ (∀ v ∈ todo, v.Within (· ∈ heap.walk found todo)) ∧
      ∀ h ∈ heap.walk found todo, h ∉ found →
        ∀ child ∈ heap.children h, child.Within (· ∈ heap.walk found todo) := by
  fun_induction walk heap found todo with
  | case1 found => exact ⟨List.Subset.refl _, by simp, fun h mem fresh => absurd mem fresh⟩
  | case2 found h todo known ih =>
    obtain ⟨more, pending, step⟩ := ih
    refine ⟨more, List.forall_mem_cons.2 ⟨?_, pending⟩, step⟩
    rintro _ ⟨rfl⟩
    exact more known
  | case3 found h todo fresh ih =>
    obtain ⟨more, pending, step⟩ := ih
    have here := more (List.mem_append_right found (List.mem_singleton_self h))
    refine ⟨fun a mem => more (List.mem_append_left _ mem), List.forall_mem_cons.2 ⟨?_, fun v mem =>
      pending v (List.mem_append_right _ mem)⟩, fun a mem new child inside => ?_⟩
    · rintro _ ⟨rfl⟩
      exact here
    · by_cases last : a = h
      · exact pending child (List.mem_append_left _ (last ▸ inside))
      · refine step a mem (fun old => ?_) child inside
        exact (List.mem_append.1 old).elim new fun same => last (List.mem_singleton.1 same)
  | case4 found head todo plain ih =>
    obtain ⟨more, pending, step⟩ := ih
    exact ⟨more, List.forall_mem_cons.2 ⟨fun h same => (plain h same).elim, pending⟩, step⟩

theorem reached_roots {roots : List Value} {v : Value} (mem : v ∈ roots) :
    v.Within (· ∈ heap.reached roots) :=
  (walk_closed [] roots).2.1 v mem

theorem reached_children {roots : List Value} {h : Handle} (mem : h ∈ heap.reached roots)
    {child : Value} (inside : child ∈ heap.children h) : child.Within (· ∈ heap.reached roots) :=
  (walk_closed [] roots).2.2 h mem List.not_mem_nil child inside

/-- The walk finds nothing but what its roots reach. -/
theorem walk_least {kept : Handle → Prop} (found : List Handle) (todo : List Value)
    (old : ∀ h ∈ found, kept h) (pending : ∀ v ∈ todo, v.Within kept)
    (closed : ∀ h, kept h → ∀ child ∈ heap.children h, child.Within kept) :
    ∀ h ∈ heap.walk found todo, kept h := by
  fun_induction walk heap found todo with
  | case1 => exact old
  | case2 found h todo known ih => exact ih old fun v mem => pending v (List.mem_cons_of_mem _ mem)
  | case3 found h todo fresh ih =>
    have here : kept h := pending _ List.mem_cons_self h rfl
    apply ih
    · intro a mem
      rcases List.mem_append.1 mem with before | last
      · exact old a before
      · exact List.mem_singleton.1 last ▸ here
    · intro v mem
      rcases List.mem_append.1 mem with child | later
      · exact closed h here v child
      · exact pending v (List.mem_cons_of_mem _ later)
  | case4 found head todo plain ih =>
    exact ih old fun v mem => pending v (List.mem_cons_of_mem _ mem)

/-- Everything that the values reach is in the heap. -/
def Holds (heap : Heap) (roots : List Value) : Prop := ∀ h ∈ heap.reached roots, h.index < heap.size

theorem holds_of_closed {roots : List Value}
    (pending : ∀ v ∈ roots, v.Within (·.index < heap.size))
    (closed : ∀ h : Handle, h.index < heap.size →
      ∀ child ∈ heap.children h, child.Within (·.index < heap.size)) :
    heap.Holds roots :=
  walk_least [] roots (by simp) pending closed

theorem Holds.alike {roots : List Value} (holds : heap.Holds roots) :
    Heap.Alike (.identity (· ∈ heap.reached roots)) heap heap :=
  alike_identity holds fun _ mem _ inside => reached_children mem inside

/-! Alike values, walked and copied. -/

variable {ρ : Pairing} {l r : Heap}

theorem mem_iff_of_pairs {xs ys : List Handle} (pairs : List.Forall₂ ρ.pairs xs ys) {a b : Handle}
    (pair : ρ.pairs a b) : a ∈ xs ↔ b ∈ ys := by
  induction pairs with
  | nil => simp
  | cons head _ ih =>
    simp only [List.mem_cons, ih]
    refine or_congr ⟨?_, ?_⟩ Iff.rfl
    · rintro rfl
      exact ρ.functional pair head
    · rintro rfl
      exact ρ.injective pair head

theorem idxOf_eq_of_pairs {xs ys : List Handle} (pairs : List.Forall₂ ρ.pairs xs ys) {a b : Handle}
    (pair : ρ.pairs a b) : xs.idxOf a = ys.idxOf b := by
  induction pairs with
  | nil => rfl
  | @cons x y _ _ head _ ih =>
    simp only [List.idxOf_cons]
    have same : (x == a) = (y == b) := by
      rw [Bool.eq_iff_iff, beq_iff_eq, beq_iff_eq]
      constructor
      · rintro rfl
        exact ρ.functional head pair
      · rintro rfl
        exact ρ.injective head pair
    rw [same, ih]

theorem Alike.children (alike : Heap.Alike ρ l r) {a b : Handle} (pair : ρ.pairs a b) :
    List.Forall₂ (Value.Alike ρ) (l.children a) (r.children b) := by
  have cells := alike.cells pair
  unfold Heap.children
  generalize l.cell a = c at cells
  generalize r.cell b = d at cells
  cases cells with
  | array items => exact items
  | @object m n members =>
    exact List.rel_map (fun _ _ entry => entry.2) members

/-- The walks of alike values find paired containers in one order. -/
theorem Alike.walk (alike : Heap.Alike ρ l r) {found found' : List Handle}
    (sofar : List.Forall₂ ρ.pairs found found') {todo todo' : List Value}
    (pending : List.Forall₂ (Value.Alike ρ) todo todo') :
    List.Forall₂ ρ.pairs (l.walk found todo) (r.walk found' todo') := by
  fun_induction Heap.walk l found todo generalizing found' todo' with
  | case1 =>
    cases pending
    rw [Heap.walk]
    exact sofar
  | case2 found h todo known ih =>
    cases pending with
    | cons head tail =>
      cases head with
      | leaf plain => cases plain
      | container pair =>
        rw [Heap.walk, dif_pos ((mem_iff_of_pairs sofar pair).1 known)]
        exact ih sofar tail
  | case3 found h todo fresh ih =>
    cases pending with
    | cons head tail =>
      cases head with
      | leaf plain => cases plain
      | container pair =>
        rw [Heap.walk, dif_neg fun known => fresh ((mem_iff_of_pairs sofar pair).2 known)]
        exact ih (List.rel_append sofar (.cons pair .nil))
          (List.rel_append (alike.children pair) tail)
  | case4 found head todo plain ih =>
    cases pending with
    | cons first tail =>
      cases first with
      | container => exact (plain _ rfl).elim
      | leaf _ =>
        rw [Heap.walk]
        · exact ih sofar tail
        · exact plain

theorem Alike.reached (alike : Heap.Alike ρ l r) {roots roots' : List Value}
    (values : List.Forall₂ (Value.Alike ρ) roots roots') :
    List.Forall₂ ρ.pairs (l.reached roots) (r.reached roots') := alike.walk .nil values

end Heap

/-- Renumbering along an order that lists a value's container. -/
theorem Value.Alike.renumber {ρ ρ' : Pairing} {order order' : List Handle}
    (pairs : List.Forall₂ ρ.pairs order order') (start start' : Nat)
    (includes : Pairing.shifted start start' order.length ≤ ρ') {v w : Value}
    (listed : v.Within (· ∈ order)) (values : v.Alike ρ w) :
    (v.renumber order start).Alike ρ' (w.renumber order' start') := by
  cases values with
  | @container a b pair =>
    have place := List.idxOf_lt_length_of_mem (listed a rfl)
    apply Value.Alike.container
    apply includes
    refine ⟨order.idxOf a, place, rfl, ?_⟩
    rw [Heap.idxOf_eq_of_pairs pairs pair]
  | leaf plain => cases v <;> first | exact .leaf rfl | cases plain

theorem Value.renumber_eq {ρ : Pairing} {order order' : List Handle}
    (pairs : List.Forall₂ ρ.pairs order order') (start : Nat) {v w : Value}
    (values : v.Alike ρ w) : v.renumber order start = w.renumber order' start := by
  cases values with
  | container pair => simp only [Value.renumber, Heap.idxOf_eq_of_pairs pairs pair]
  | leaf plain => cases v <;> first | rfl | cases plain

namespace Cell.Alike

variable {ρ ρ' : Pairing} {c d : Cell} {f g : Value → Value}

theorem map_eq (same : ∀ v w, v.Alike ρ w → f v = g w) (cells : c.Alike ρ d) :
    c.map f = d.map g := by
  cases cells with
  | array items =>
    have mapped : List.Forall₂ (· = ·) (List.map f _) (List.map g _) :=
      List.rel_map (fun v w values => same v w values) items
    rw [List.forall₂_eq_eq_eq] at mapped
    simp only [Cell.map, mapped]
  | object members =>
    have mapped : List.Forall₂ (· = ·) (List.map (fun e : String × Value => (e.1, f e.2)) _)
        (List.map (fun e : String × Value => (e.1, g e.2)) _) :=
      List.rel_map (fun _ _ entry => Prod.ext entry.1 (same _ _ entry.2)) members
    rw [List.forall₂_eq_eq_eq] at mapped
    simp only [Cell.map, Members.map, mapped]

theorem map (related : ∀ v ∈ c.children, ∀ w, v.Alike ρ w → (f v).Alike ρ' (g w))
    (cells : c.Alike ρ d) : (c.map f).Alike ρ' (d.map g) := by
  cases cells with
  | @array xs ys items =>
    apply Cell.Alike.array
    rw [List.forall₂_map_left_iff, List.forall₂_map_right_iff]
    have placed := (List.forall₂_and_left xs ys).2 ⟨fun _ mem => mem, items⟩
    exact placed.imp fun v w both => related v both.1 w both.2
  | @object m n members =>
    apply Cell.Alike.object
    simp only [Members.map, List.forall₂_map_left_iff, List.forall₂_map_right_iff]
    have placed := (List.forall₂_and_left m.entries n.entries).2 ⟨fun _ mem => mem, members⟩
    exact placed.imp fun e f both =>
      ⟨both.2.1, related e.2 (List.mem_map_of_mem both.1) f.2 both.2.2⟩

end Cell.Alike

namespace Heap

variable {ρ : Pairing} {l r : Heap}

/-! What a copy adds to its heap. -/

theorem size_copyInto (source target : Heap) (roots : List Value) :
    (source.copyInto target roots).2.size = target.size + (source.reached roots).length := by
  simp [copyInto, size]

theorem grows_copyInto (source target : Heap) (roots : List Value) :
    target.Grows (source.copyInto target roots).2 where
  size := by
    rw [size_copyInto]
    exact Nat.le_add_right _ _
  cell := by
    intro h inside _
    have bound : h.index < target.cells.size := inside
    simp [copyInto, Heap.cell, Array.getElem?_append, bound]

theorem cell_copyInto (source target : Heap) (roots : List Value) {i : Nat}
    (small : i < (source.reached roots).length) :
    (source.copyInto target roots).2.cell ⟨target.size + i⟩ =
      (source.cell (source.reached roots)[i]).map
        (Value.renumber (source.reached roots) target.size) := by
  simp [copyInto, Heap.cell, size, small]

/-- What is extracted from alike values is the same. -/
theorem Alike.extract_eq (alike : Heap.Alike ρ l r) {roots roots' : List Value}
    (values : List.Forall₂ (Value.Alike ρ) roots roots') :
    l.extract roots = r.extract roots' := by
  have order := alike.reached values
  have same : ∀ v w : Value, v.Alike ρ w → v.renumber (l.reached roots) Heap.empty.size =
      w.renumber (r.reached roots') Heap.empty.size := fun _ _ => Value.renumber_eq order _
  have cells : (l.reached roots).map (fun h => (l.cell h).map
      (Value.renumber (l.reached roots) Heap.empty.size)) = (r.reached roots').map fun h =>
        (r.cell h).map (Value.renumber (r.reached roots') Heap.empty.size) := by
    rw [← List.forall₂_eq_eq_eq, List.forall₂_map_left_iff, List.forall₂_map_right_iff]
    exact order.imp fun a b pair => (alike.cells pair).map_eq same
  have copies : roots.map (Value.renumber (l.reached roots) Heap.empty.size) =
      roots'.map (Value.renumber (r.reached roots') Heap.empty.size) := by
    rw [← List.forall₂_eq_eq_eq, List.forall₂_map_left_iff, List.forall₂_map_right_iff]
    exact values.imp same
  simp only [extract, copyInto, cells, copies]

theorem ext_cell {l r : Heap} (size : l.size = r.size)
    (cells : ∀ h : Handle, h.index < l.size → l.cell h = r.cell h) : l = r := by
  obtain ⟨as⟩ := l
  obtain ⟨bs⟩ := r
  congr 1
  refine Array.ext size fun i left right => ?_
  simpa [Heap.cell, left, right] using cells ⟨i⟩ left

/-- A deep copy is what its value reaches, renumbered and put after the containers there were. -/
theorem deepCopy_eq (heap : Heap) (v : Value) :
    heap.deepCopy v = (v.renumber (heap.reached [v]) heap.size, (heap.copyInto heap [v]).2) := by
  cases v with
  | container h =>
    have order : heap.reached [.container h] = heap.walk [h] (heap.children h) := by
      rw [reached, walk, dif_neg List.not_mem_nil, List.nil_append, List.append_nil]
    have filled := deepCopy_filled heap h
    rw [← order] at filled
    have first : (Value.container h).renumber (heap.reached [.container h]) heap.size =
        .container ⟨heap.size⟩ := by
      rw [order, Value.renumber_found (prefix_walk heap [h] _) (List.mem_singleton_self h)]
      simp
    refine Prod.ext first.symm (ext_cell (filled.size.trans (size_copyInto _ _ _).symm) ?_)
    intro other inside
    by_cases old : other.index < heap.size
    · rw [filled.settled other old, (grows_copyInto heap heap _).cell old trivial]
      rfl
    · obtain ⟨i, place⟩ := Nat.exists_eq_add_of_le (Nat.not_lt.1 old)
      obtain rfl : other = ⟨heap.size + i⟩ := by rw [← place]
      have small : i < (heap.reached [.container h]).length := by
        rw [filled.size] at inside
        exact Nat.lt_of_add_lt_add_left inside
      rw [filled.complete i small (Nat.le_add_right _ _), cell_copyInto _ _ _ small]
  | _ => simp [deepCopy, Value.renumber, copyInto, reached, walk]

theorem grows_deepCopy (heap : Heap) (v : Value) : heap.Grows (heap.deepCopy v).2 := by
  rw [deepCopy_eq]
  exact grows_copyInto heap heap [v]

/-- Alike values are copied alike. -/
theorem Alike.deepCopy (alike : Heap.Alike ρ l r) {v w : Value} (values : v.Alike ρ w) :
    ∃ ρ', Lockstep ρ ρ' l (l.deepCopy v).2 r (r.deepCopy w).2 ∧
      (l.deepCopy v).1.Alike ρ' (r.deepCopy w).1 := by
  rw [deepCopy_eq, deepCopy_eq]
  have order := alike.reached (.cons values .nil)
  have count := order.length_eq
  obtain ⟨ρ', step, includes⟩ := alike.append (grows_copyInto l l [v]) (grows_copyInto r r [w])
    (size_copyInto l l [v]) (count ▸ size_copyInto r r [w]) fun ρ' larger includes i small => by
      rw [cell_copyInto l l [v] small, cell_copyInto r r [w] (count ▸ small)]
      have pair : ρ.pairs (l.reached [v])[i] (r.reached [w])[i] :=
        (List.forall₂_iff_get.1 order).2 i small (count ▸ small)
      apply (alike.cells pair).map
      intro child inside other related
      have listed := reached_children (List.getElem_mem small) inside
      exact related.renumber order _ _ includes listed
  exact ⟨ρ', step, values.renumber order _ _ includes (reached_roots List.mem_cons_self)⟩

end Heap

/-- The containers of a list, paired with consecutive ones from `start` on. -/
def Pairing.copied (order : List Handle) (start : Nat) : Pairing where
  pairs a b := a ∈ order ∧ b = ⟨start + order.idxOf a⟩
  functional := by
    rintro a b c ⟨_, rfl⟩ ⟨_, rfl⟩
    rfl
  injective := by
    rintro a b c ⟨here, rfl⟩ ⟨_, same⟩
    have places : order.idxOf a = order.idxOf b := by simpa using same
    exact (List.idxOf_inj here).1 places

theorem Value.alike_renumber {order : List Handle} {v : Value} (listed : v.Within (· ∈ order))
    (start : Nat) : v.Alike (.copied order start) (v.renumber order start) := by
  cases v with
  | container h => exact .container ⟨listed h rfl, rfl⟩
  | _ => exact .leaf rfl

theorem Cell.alike_renumber {order : List Handle} {c : Cell}
    (listed : ∀ child ∈ c.children, child.Within (· ∈ order)) (start : Nat) :
    c.Alike (.copied order start) (c.map (Value.renumber order start)) := by
  cases c with
  | array items =>
    apply Cell.Alike.array
    rw [List.forall₂_map_right_iff]
    exact List.forall₂_same.2 fun v mem => Value.alike_renumber (listed v mem) start
  | object members =>
    apply Cell.Alike.object
    simp only [Members.map, List.forall₂_map_right_iff]
    exact List.forall₂_same.2 fun entry mem =>
      ⟨rfl, Value.alike_renumber (listed entry.2 (List.mem_map_of_mem mem)) start⟩

namespace Heap

variable {ρ : Pairing} {l r : Heap}

/-- A value is alike to its copy, container by container. -/
theorem alike_deepCopy {v : Value} (inside : ∀ h ∈ l.reached [v], h.index < l.size) :
    Heap.Alike (.copied (l.reached [v]) l.size) l (l.deepCopy v).2 where
  left := fun pair => inside _ pair.1
  right := by
    rintro a _ ⟨mem, rfl⟩
    have place := List.idxOf_lt_length_of_mem mem
    rw [deepCopy_eq, size_copyInto]
    exact Nat.add_lt_add_left place _
  cells := by
    rintro a _ ⟨mem, rfl⟩
    have place := List.idxOf_lt_length_of_mem mem
    rw [deepCopy_eq, cell_copyInto l l [v] place, List.getElem_idxOf]
    exact Cell.alike_renumber (fun child => reached_children mem) _

theorem value_alike_deepCopy (heap : Heap) (v : Value) :
    v.Alike (.copied (heap.reached [v]) heap.size) (heap.deepCopy v).1 := by
  rw [deepCopy_eq]
  exact Value.alike_renumber (reached_roots List.mem_cons_self) _

theorem similar_deepCopy {v : Value} (inside : ∀ h ∈ l.reached [v], h.index < l.size) :
    l.Similar v (l.deepCopy v).2 (l.deepCopy v).1 :=
  (alike_deepCopy inside).similar (value_alike_deepCopy l v)

/-- Whether two values are equal is the same for alike ones. -/
theorem Alike.deepEqual_eq (alike : Heap.Alike ρ l r) {v v' w w' : Value} (values : v.Alike ρ w)
    (values' : v'.Alike ρ w') : l.deepEqual v v' = r.deepEqual w w' := by
  have one := alike.similar values
  have two := alike.similar values'
  rw [Bool.eq_iff_iff, ← similar_iff_deepEqual, ← similar_iff_deepEqual]
  constructor
  · intro same
    exact (one.symm.trans same).trans two
  · intro same
    exact (one.trans same).trans two.symm

end Heap
end DataBinding
