import DataBinding.Proofs.Pairing
import DataBinding.Value.Copy

/-! Heaps that change together. A step on two alike heaps may pair fresh containers, it
keeps the pairs there were, and it leaves every container alone that is not paired. -/
namespace DataBinding

namespace Heap

/-- The containers of `kept` stay as they are, and none is lost. -/
structure Keeps (kept : Handle → Prop) (before after : Heap) : Prop where
  size : before.size ≤ after.size
  cell : ∀ {h : Handle}, h.index < before.size → kept h → after.cell h = before.cell h

/-- Containers are added and those there were stay as they are. -/
abbrev Grows (before after : Heap) : Prop := before.Keeps (fun _ => True) after

namespace Keeps

variable {kept : Handle → Prop} {a b c : Heap}

theorem refl (kept : Handle → Prop) (a : Heap) : a.Keeps kept a := ⟨Nat.le_refl _, fun _ _ => rfl⟩

theorem trans (first : a.Keeps kept b) (second : b.Keeps kept c) : a.Keeps kept c where
  size := Nat.le_trans first.size second.size
  cell := fun inside keep =>
    (second.cell (Nat.lt_of_lt_of_le inside first.size) keep).trans (first.cell inside keep)

theorem weaken {fewer : Handle → Prop} (keeps : a.Keeps kept b) (less : ∀ h, fewer h → kept h) :
    a.Keeps fewer b where
  size := keeps.size
  cell := fun inside keep => keeps.cell inside (less _ keep)

end Keeps

theorem Grows.keeps {kept : Handle → Prop} {a b : Heap} (grows : a.Grows b) : a.Keeps kept b :=
  grows.weaken fun _ _ => trivial

theorem grows_alloc (heap : Heap) (cell : Cell) : heap.Grows (heap.alloc cell).2 where
  size := by simp [size, alloc]
  cell := fun inside _ => by rw [cell_alloc, if_neg (Nat.ne_of_lt inside)]

theorem cell_alloc_self (heap : Heap) (cell : Cell) :
    (heap.alloc cell).2.cell (heap.alloc cell).1 = cell := by
  rw [cell_alloc]
  exact if_pos rfl

/-- Two heaps that were alike under one pairing and are alike under a larger one now. -/
structure Lockstep (ρ ρ' : Pairing) (l l' r r' : Heap) : Prop where
  alike : Heap.Alike ρ' l' r'
  larger : ρ ≤ ρ'
  fresh : ∀ {a b}, ρ'.pairs a b → ρ.pairs a b ∨ l.size ≤ a.index ∧ r.size ≤ b.index
  left : l.Keeps (fun a => ∀ b, ¬ ρ.pairs a b) l'
  right : r.Keeps (fun b => ∀ a, ¬ ρ.pairs a b) r'

variable {ρ ρ' ρ'' : Pairing} {l l' l'' r r' r'' : Heap}

namespace Alike

theorem grow (alike : Heap.Alike ρ l r) (left : l.Grows l') (right : r.Grows r') :
    Heap.Alike ρ l' r' where
  left := fun pair => Nat.lt_of_lt_of_le (alike.left pair) left.size
  right := fun pair => Nat.lt_of_lt_of_le (alike.right pair) right.size
  cells := by
    intro a b pair
    rw [left.cell (alike.left pair) trivial, right.cell (alike.right pair) trivial]
    exact alike.cells pair

theorem lockstep_of_grows (alike : Heap.Alike ρ l r) (left : l.Grows l') (right : r.Grows r') :
    Lockstep ρ ρ l l' r r' where
  alike := alike.grow left right
  larger := ρ.le_refl
  fresh := .inl
  left := left.keeps
  right := right.keeps

end Alike

namespace Lockstep

theorem refl (alike : Heap.Alike ρ l r) : Lockstep ρ ρ l l r r :=
  alike.lockstep_of_grows (.refl _ _) (.refl _ _)

theorem trans (first : Lockstep ρ ρ' l l' r r') (second : Lockstep ρ' ρ'' l' l'' r' r'') :
    Lockstep ρ ρ'' l l'' r r'' where
  alike := second.alike
  larger := Pairing.le_trans first.larger second.larger
  fresh := by
    intro a b pair
    rcases second.fresh pair with old | ⟨left, right⟩
    · exact first.fresh old
    · exact .inr ⟨Nat.le_trans first.left.size left, Nat.le_trans first.right.size right⟩
  left := by
    refine ⟨Nat.le_trans first.left.size second.left.size, fun {a} inside free => ?_⟩
    have still : ∀ b, ¬ ρ'.pairs a b := by
      intro b pair
      rcases first.fresh pair with old | ⟨late, _⟩
      · exact free b old
      · omega
    rw [second.left.cell (Nat.lt_of_lt_of_le inside first.left.size) still]
    exact first.left.cell inside free
  right := by
    refine ⟨Nat.le_trans first.right.size second.right.size, fun {b} inside free => ?_⟩
    have still : ∀ a, ¬ ρ'.pairs a b := by
      intro a pair
      rcases first.fresh pair with old | ⟨_, late⟩
      · exact free a old
      · omega
    rw [second.right.cell (Nat.lt_of_lt_of_le inside first.right.size) still]
    exact first.right.cell inside free

end Lockstep

namespace Alike

/-- Consecutive fresh containers with alike cells are paired in order. -/
theorem append (alike : Heap.Alike ρ l r) {count : Nat} (left : l.Grows l') (right : r.Grows r')
    (leftSize : l'.size = l.size + count) (rightSize : r'.size = r.size + count)
    (cells : ∀ ρ', ρ ≤ ρ' → Pairing.shifted l.size r.size count ≤ ρ' → ∀ i < count,
      (l'.cell ⟨l.size + i⟩).Alike ρ' (r'.cell ⟨r.size + i⟩)) :
    ∃ ρ', Lockstep ρ ρ' l l' r r' ∧ Pairing.shifted l.size r.size count ≤ ρ' := by
  let δ := Pairing.shifted l.size r.size count
  have apartLeft : ∀ a b c, ρ.pairs a b → δ.pairs a c → b = c := by
    rintro a b c old ⟨i, _, rfl, _⟩
    have inside := alike.left old
    simp only at inside
    omega
  have apartRight : ∀ a b c, ρ.pairs a c → δ.pairs b c → a = b := by
    rintro a b c old ⟨i, _, _, rfl⟩
    have inside := alike.right old
    simp only at inside
    omega
  let ρ' := ρ.join δ apartLeft apartRight
  have larger : ρ ≤ ρ' := fun _ _ pair => .inl pair
  have includes : δ ≤ ρ' := fun _ _ pair => .inr pair
  refine ⟨ρ', ⟨⟨?_, ?_, ?_⟩, larger, ?_, left.keeps, right.keeps⟩, includes⟩
  · rintro a b (old | ⟨i, small, rfl, _⟩)
    · exact Nat.lt_of_lt_of_le (alike.left old) left.size
    · simp only
      omega
  · rintro a b (old | ⟨i, small, _, rfl⟩)
    · exact Nat.lt_of_lt_of_le (alike.right old) right.size
    · simp only
      omega
  · rintro a b (old | ⟨i, small, rfl, rfl⟩)
    · exact ((alike.grow left right).cells old).mono larger
    · exact cells ρ' larger includes i small
  · rintro a b (old | ⟨i, _, rfl, rfl⟩)
    · exact .inl old
    · exact .inr ⟨Nat.le_add_right _ _, Nat.le_add_right _ _⟩

theorem alloc (alike : Heap.Alike ρ l r) {c d : Cell} (cells : c.Alike ρ d) :
    ∃ ρ', Lockstep ρ ρ' l (l.alloc c).2 r (r.alloc d).2 ∧
      ρ'.pairs (l.alloc c).1 (r.alloc d).1 := by
  obtain ⟨ρ', step, includes⟩ := alike.append (grows_alloc l c) (grows_alloc r d)
    (size_alloc l c) (size_alloc r d) fun ρ' larger _ i small => by
      have zero : i = 0 := by omega
      subst zero
      rw [show (⟨l.size + 0⟩ : Handle) = (l.alloc c).1 from rfl,
        show (⟨r.size + 0⟩ : Handle) = (r.alloc d).1 from rfl, cell_alloc_self, cell_alloc_self]
      exact cells.mono larger
  exact ⟨ρ', step, includes _ _ ⟨0, Nat.one_pos, rfl, rfl⟩⟩

theorem newArray (alike : Heap.Alike ρ l r) {xs ys : List Value}
    (items : List.Forall₂ (Value.Alike ρ) xs ys) :
    ∃ ρ', Lockstep ρ ρ' l (l.newArray xs).2 r (r.newArray ys).2 ∧
      (l.newArray xs).1.Alike ρ' (r.newArray ys).1 := by
  obtain ⟨ρ', step, pair⟩ := alike.alloc (.array items)
  exact ⟨ρ', step, .container pair⟩

theorem newObject (alike : Heap.Alike ρ l r) {es fs : List (String × Value)}
    (entries : List.Forall₂ (EntryAlike ρ) es fs) :
    ∃ ρ', Lockstep ρ ρ' l (l.newObject es).2 r (r.newObject fs).2 ∧
      (l.newObject es).1.Alike ρ' (r.newObject fs).1 := by
  obtain ⟨ρ', step, pair⟩ := alike.alloc (.object (Members.Alike.ofEntries entries))
  exact ⟨ρ', step, .container pair⟩

/-- Writing alike cells to paired containers. -/
theorem replace (alike : Heap.Alike ρ l r) {a b : Handle} (pair : ρ.pairs a b) {c d : Cell}
    (cells : c.Alike ρ d) : Lockstep ρ ρ l (l.replace a c) r (r.replace b d) where
  alike := {
    left := fun pair => by rw [size_replace]; exact alike.left pair
    right := fun pair => by rw [size_replace]; exact alike.right pair
    cells := by
      intro a' b' pair'
      rw [cell_replace _ _ _ _ (alike.left pair), cell_replace _ _ _ _ (alike.right pair)]
      by_cases here : a' = a
      · subst here
        rw [if_pos rfl, if_pos (ρ.functional pair' pair)]
        exact cells
      · have elsewhere : b' ≠ b := fun same => here (ρ.injective (same ▸ pair') pair)
        rw [if_neg here, if_neg elsewhere]
        exact alike.cells pair' }
  larger := ρ.le_refl
  fresh := .inl
  left := by
    refine ⟨Nat.le_of_eq (size_replace _ _ _).symm, fun {h} _ free => ?_⟩
    have apart : h ≠ a := fun same => free b (same ▸ pair)
    rw [cell_replace _ _ _ _ (alike.left pair), if_neg apart]
  right := by
    refine ⟨Nat.le_of_eq (size_replace _ _ _).symm, fun {h} _ free => ?_⟩
    have apart : h ≠ b := fun same => free a (same ▸ pair)
    rw [cell_replace _ _ _ _ (alike.right pair), if_neg apart]

theorem modifyItems (alike : Heap.Alike ρ l r) {a b : Handle} (pair : ρ.pairs a b)
    {f g : List Value → List Value}
    (same : ∀ xs ys, List.Forall₂ (Value.Alike ρ) xs ys →
      List.Forall₂ (Value.Alike ρ) (f xs) (g ys)) :
    Lockstep ρ ρ l (l.modifyItems a f) r (r.modifyItems b g) := by
  have cells := alike.cells pair
  unfold Heap.modifyItems items?
  generalize l.cell a = c at cells
  generalize r.cell b = d at cells
  cases cells with
  | array items => exact alike.replace pair (.array (same _ _ items))
  | object members => exact .refl alike

theorem modifyMembers (alike : Heap.Alike ρ l r) {a b : Handle} (pair : ρ.pairs a b)
    {f g : Members Value → Members Value}
    (same : ∀ m n : Members Value, m.Alike ρ n → (f m).Alike ρ (g n)) :
    Lockstep ρ ρ l (l.modifyMembers a f) r (r.modifyMembers b g) := by
  have cells := alike.cells pair
  unfold Heap.modifyMembers members?
  generalize l.cell a = c at cells
  generalize r.cell b = d at cells
  cases cells with
  | array items => exact .refl alike
  | object members => exact alike.replace pair (.object (same _ _ members))

section Writing

variable {a b : Handle} {v w : Value}

theorem push (alike : Heap.Alike ρ l r) (pair : ρ.pairs a b) (values : v.Alike ρ w) :
    Lockstep ρ ρ l (l.push a v) r (r.push b w) :=
  alike.modifyItems pair fun _ _ items => List.rel_append items (.cons values .nil)

theorem pop (alike : Heap.Alike ρ l r) (pair : ρ.pairs a b) :
    Lockstep ρ ρ l (l.pop a) r (r.pop b) :=
  alike.modifyItems pair fun xs ys items => by
    rw [List.dropLast_eq_take, List.dropLast_eq_take, items.length_eq]
    exact List.forall₂_take _ items

theorem store (alike : Heap.Alike ρ l r) (pair : ρ.pairs a b) (index : Nat)
    (values : v.Alike ρ w) : Lockstep ρ ρ l (l.store a index v) r (r.store b index w) :=
  alike.modifyItems pair fun xs ys items => by
    rw [items.length_eq]
    exact Value.Alike.all_set (List.rel_append items (Value.Alike.all_replicate .undefined _)) index values

theorem insert (alike : Heap.Alike ρ l r) (pair : ρ.pairs a b) (key : String)
    (values : v.Alike ρ w) : Lockstep ρ ρ l (l.insert a key v) r (r.insert b key w) :=
  alike.modifyMembers pair fun _ _ members => members.insert key values

theorem erase (alike : Heap.Alike ρ l r) (pair : ρ.pairs a b) (key : String) :
    Lockstep ρ ρ l (l.erase a key) r (r.erase b key) :=
  alike.modifyMembers pair fun _ _ members => members.erase key

end Writing

end Alike
end Heap
end DataBinding
