import DataBinding.Proofs.Reachability
import DataBinding.Proofs.Zones
import DataBinding.Value.Unfolding

/-! Places in a value: what is found on passing from container to container along given
positions. What a value reaches is what stands at some place in it. -/

theorem List.rel_getElem? {α β : Type} {R : α → β → Prop} {as : List α} {bs : List β}
    (related : List.Forall₂ R as bs) (i : Nat) : Option.Rel R as[i]? bs[i]? := by
  induction related generalizing i with
  | nil => exact .none
  | cons head _ ih =>
    cases i with
    | zero => exact .some head
    | succ i => exact ih i

namespace DataBinding

namespace Heap

/-- The value at a place in a value. -/
def valueAt? (heap : Heap) : Value → List Nat → Option Value
  | v, [] => some v
  | .container h, i :: place => ((heap.children h)[i]?).bind fun child => heap.valueAt? child place
  | _, _ :: _ => none

variable {heap l l' r : Heap} {v w : Value} {h : Handle} {i : Nat} {place : List Nat}
variable {zone : Handle → Prop} {ρ : Pairing}

@[simp] theorem valueAt?_nil : heap.valueAt? v [] = some v := by cases v <;> rfl

theorem valueAt?_container : heap.valueAt? (.container h) (i :: place) =
    ((heap.children h)[i]?).bind fun child => heap.valueAt? child place := rfl

theorem valueAt?_plain (plain : v.isContainer = false) : heap.valueAt? v (i :: place) = none := by
  cases v with
  | container => cases plain
  | _ => rfl

theorem valueAt?_child (child : (heap.children h)[i]? = some w) :
    heap.valueAt? (.container h) (i :: place) = heap.valueAt? w place := by
  rw [valueAt?_container, child, Option.bind_some]

/-- Below the root a place leads through a child. -/
theorem valueAt?_cons_eq_some (found : heap.valueAt? v (i :: place) = some w) :
    ∃ h child, v = .container h ∧ (heap.children h)[i]? = some child ∧
      heap.valueAt? child place = some w := by
  cases v with
  | container h =>
    obtain ⟨child, here, below⟩ := Option.bind_eq_some_iff.mp found
    exact ⟨h, child, rfl, here, below⟩
  | _ => cases found

theorem valueAt?_append (place place' : List Nat) :
    heap.valueAt? v (place ++ place') =
      (heap.valueAt? v place).bind fun w => heap.valueAt? w place' := by
  induction place generalizing v with
  | nil => simp
  | cons i place ih =>
    cases v with
    | container h =>
      rw [List.cons_append, valueAt?_container, valueAt?_container]
      cases (heap.children h)[i]? with
      | none => rfl
      | some child => exact ih
    | _ => rfl

theorem Reaches.of_child (child : w ∈ heap.children h) {c : Handle} (reaches : heap.Reaches w c) :
    heap.Reaches (.container h) c := by
  refine reaches.least ?_ fun a reached v mem => Reaches.within_of_mem reached mem
  rintro a rfl
  exact .child (.root rfl) child

theorem reaches_iff_valueAt? :
    heap.Reaches v h ↔ ∃ place, heap.valueAt? v place = some (.container h) := by
  constructor
  · intro reaches
    induction reaches with
    | root same => exact ⟨[], by rw [valueAt?_nil, same]⟩
    | @child a c _ child ih =>
      obtain ⟨place, found⟩ := ih
      obtain ⟨i, here⟩ := List.mem_iff_getElem?.mp child
      refine ⟨place ++ [i], ?_⟩
      rw [valueAt?_append, found, Option.bind_some, valueAt?_child here, valueAt?_nil]
  · rintro ⟨place, found⟩
    induction place generalizing v with
    | nil =>
      rw [valueAt?_nil] at found
      exact .root (Option.some.inj found)
    | cons i place ih =>
      obtain ⟨a, child, rfl, here, below⟩ := valueAt?_cons_eq_some found
      exact (ih below).of_child (List.mem_of_getElem? here)

/-- A zone holds what stands in its values. -/
theorem Zone.valueAt? (here : heap.Zone zone) (within : v.Within zone)
    (found : heap.valueAt? v place = some (.container h)) : zone h :=
  Reaches.least within here.closed (reaches_iff_valueAt?.mpr ⟨place, found⟩)

/-- A heap that grows leaves all places of a value as they are. -/
theorem Grows.valueAt? (grows : l.Grows l')
    (inside : ∀ place h, l.valueAt? v place = some (.container h) → h.index < l.size)
    (place : List Nat) : l'.valueAt? v place = l.valueAt? v place := by
  induction place generalizing v with
  | nil => rw [valueAt?_nil, valueAt?_nil]
  | cons i place ih =>
    cases v with
    | container h =>
      have same : l'.children h = l.children h :=
        congrArg Cell.children (grows.cell (inside [] h valueAt?_nil) trivial)
      rw [valueAt?_container, valueAt?_container, same]
      cases child : (l.children h)[i]? with
      | none => rfl
      | some w =>
        refine ih fun place c found => inside (i :: place) c ?_
        rw [valueAt?_child child, found]
    | _ => rfl

/-- Alike values have alike values at the same places. -/
theorem Alike.valueAt? (alike : Heap.Alike ρ l r) (values : v.Alike ρ w) (place : List Nat) :
    Option.Rel (Value.Alike ρ) (l.valueAt? v place) (r.valueAt? w place) := by
  induction place generalizing v w with
  | nil =>
    rw [valueAt?_nil, valueAt?_nil]
    exact .some values
  | cons i place ih =>
    cases values with
    | container pair =>
      rw [valueAt?_container, valueAt?_container]
      have child := List.rel_getElem? (alike.children pair) i
      generalize (l.children _)[i]? = x at child
      generalize (r.children _)[i]? = y at child
      cases child with
      | none => exact .none
      | some values => exact ih values
    | leaf plain =>
      rw [valueAt?_plain plain, valueAt?_plain plain]
      exact .none

/-- Where the one value has a container, the other has its partner. -/
theorem Alike.container_at (alike : Heap.Alike ρ l r) (values : v.Alike ρ w)
    (found : r.valueAt? w place = some (.container h)) :
    ∃ a, ρ.pairs a h ∧ l.valueAt? v place = some (.container a) := by
  have both := alike.valueAt? values place
  rw [found] at both
  obtain ⟨x, here, same⟩ := both.of_some
  cases same with
  | container pair => exact ⟨_, pair, here⟩
  | leaf plain => cases plain

/-- Something plain, or a child of the value: all that a read of it can yield. -/
def Yields (heap : Heap) (v w : Value) : Prop :=
  w.isContainer = false ∨ ∃ h, v = .container h ∧ w ∈ heap.children h

theorem Yields.within (yields : heap.Yields v w) (here : heap.Zone zone) (within : v.Within zone) :
    w.Within zone := by
  rcases yields with plain | ⟨h, rfl, child⟩
  · rintro c rfl
    cases plain
  · exact here.closed h (within h rfl) w child

theorem yields_getD {found : Option Value} (children : ∀ w ∈ found, w ∈ heap.children h) :
    heap.Yields (.container h) (found.getD .undefined) := by
  cases found with
  | none => exact .inl rfl
  | some w => exact .inr ⟨h, rfl, children w rfl⟩

theorem yields_item {items : List Value} (cell : heap.cell h = .array items) (i : Nat) :
    heap.Yields (.container h) ((items[i]?).getD .undefined) :=
  yields_getD fun _ found => item_mem_children cell (List.mem_of_getElem? found)

theorem yields_member (heap : Heap) (v : Value) (key : String) :
    heap.Yields v (heap.member v key) := by
  cases v with
  | container h =>
    simp only [member]
    split
    · rename_i members cell
      refine yields_getD fun w found => ?_
      obtain ⟨before, after, entries, -⟩ := List.lookup_eq_some_iff.mp found
      have entry : (key, w) ∈ members.entries := by simp [entries]
      exact member_mem_children cell entry
    · rename_i items cell
      split
      · exact .inl rfl
      · cases arrayIndex? key with
        | none => exact .inl rfl
        | some i => exact yields_item cell i
  | string s =>
    refine .inl ?_
    simp only [member]
    split
    · rfl
    · cases (arrayIndex? key).bind fun i => s.toList[i]? <;> rfl
  | _ => exact .inl rfl

theorem yields_memberNamed (heap : Heap) (v key : Value) :
    heap.Yields v (heap.memberNamed v key) := by
  unfold memberNamed
  split
  · exact yields_member heap v _
  · exact .inl rfl

theorem yields_memberAt (heap : Heap) (v key : Value) : heap.Yields v (heap.memberAt v key) := by
  unfold memberAt
  split
  · split
    · split
      · exact yields_item ‹_› _
      · exact yields_memberNamed heap _ _
    · exact yields_memberNamed heap _ _
  · exact yields_memberNamed heap v key

end Heap
end DataBinding
