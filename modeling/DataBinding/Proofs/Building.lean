import DataBinding.Proofs.Copying
import DataBinding.Value.Inspect
import DataBinding.Value.Json

/-! Documents and trees on alike heaps. A document is built alike on both, and alike values
unfold to one tree. -/
namespace DataBinding.Heap

mutual

theorem Alike.build {ρ : Pairing} {l r : Heap} (alike : Heap.Alike ρ l r) (json : Json) :
    ∃ ρ', Lockstep ρ ρ' l (l.build json).2 r (r.build json).2 ∧
      (l.build json).1.Alike ρ' (r.build json).1 := by
  cases json with
  | array items =>
    obtain ⟨ρ₁, step, values⟩ := alike.buildItems items
    obtain ⟨ρ₂, step', whole⟩ := step.alike.newArray values
    exact ⟨ρ₂, step.trans step', whole⟩
  | object members =>
    obtain ⟨ρ₁, step, entries⟩ := alike.buildMembers members
    obtain ⟨ρ₂, step', whole⟩ := step.alike.newObject entries
    exact ⟨ρ₂, step.trans step', whole⟩
  | _ => exact ⟨ρ, .refl alike, .leaf rfl⟩

theorem Alike.buildItems {ρ : Pairing} {l r : Heap} (alike : Heap.Alike ρ l r)
    (items : List Json) :
    ∃ ρ', Lockstep ρ ρ' l (l.buildItems items).2 r (r.buildItems items).2 ∧
      List.Forall₂ (Value.Alike ρ') (l.buildItems items).1 (r.buildItems items).1 := by
  cases items with
  | nil => exact ⟨ρ, .refl alike, .nil⟩
  | cons item rest =>
    obtain ⟨ρ₁, step, first⟩ := alike.build item
    obtain ⟨ρ₂, step', others⟩ := step.alike.buildItems rest
    exact ⟨ρ₂, step.trans step', .cons (first.mono step'.larger) others⟩

theorem Alike.buildMembers {ρ : Pairing} {l r : Heap} (alike : Heap.Alike ρ l r)
    (members : List (String × Json)) :
    ∃ ρ', Lockstep ρ ρ' l (l.buildMembers members).2 r (r.buildMembers members).2 ∧
      List.Forall₂ (EntryAlike ρ') (l.buildMembers members).1 (r.buildMembers members).1 := by
  cases members with
  | nil => exact ⟨ρ, .refl alike, .nil⟩
  | cons member rest =>
    obtain ⟨key, item⟩ := member
    obtain ⟨ρ₁, step, first⟩ := alike.build item
    obtain ⟨ρ₂, step', others⟩ := step.alike.buildMembers rest
    exact ⟨ρ₂, step.trans step', .cons ⟨rfl, first.mono step'.larger⟩ others⟩

end

variable {ρ : Pairing} {l r : Heap}

theorem Alike.ofJson (alike : Heap.Alike ρ l r) (json : Json) :
    ∃ ρ', Lockstep ρ ρ' l (l.ofJson json).2 r (r.ofJson json).2 ∧
      (l.ofJson json).1.Alike ρ' (r.ofJson json).1 :=
  alike.build json.sorted

/-- Whatever is paired, the containers that were there before are left alone. -/
theorem grows_ofJson (heap : Heap) (json : Json) : heap.Grows (heap.ofJson json).2 := by
  have alike : Heap.Alike (.identity fun _ => False) heap heap :=
    ⟨fun pair => pair.2.elim, fun pair => pair.2.elim, fun pair => pair.2.elim⟩
  obtain ⟨ρ, step, _⟩ := alike.ofJson json
  exact step.left.weaken fun _ _ _ pair => pair.2

/-! One step of an unfolding. -/

theorem unfoldWithin_array {heap : Heap} {h : Handle} {items : List Value}
    (cell : heap.cell h = .array items) (enclosing : List Handle) :
    heap.unfoldWithin enclosing (.container h) =
      if h ∈ enclosing then .arrayAbove (enclosing.idxOf h + 1)
      else .array (items.map (heap.unfoldWithin (h :: enclosing))) := by
  rw [unfoldWithin]
  split
  · rename_i same
    cases cell.symm.trans same
    simp only [List.map_attach_eq_pmap, List.pmap_eq_map, dite_eq_ite]
  · rename_i other
    cases cell.symm.trans other

theorem unfoldWithin_object {heap : Heap} {h : Handle} {members : Members Value}
    (cell : heap.cell h = .object members) (enclosing : List Handle) :
    heap.unfoldWithin enclosing (.container h) =
      if h ∈ enclosing then .objectAbove (enclosing.idxOf h + 1)
      else .object (members.entries.map fun entry =>
        (entry.1, heap.unfoldWithin (h :: enclosing) entry.2)) := by
  rw [unfoldWithin]
  split
  · rename_i other
    cases cell.symm.trans other
  · rename_i same
    cases cell.symm.trans same
    simp only [List.map_attach_eq_pmap, List.pmap_eq_map, dite_eq_ite]

theorem Alike.array_of (alike : Heap.Alike ρ l r) {a b : Handle} (pair : ρ.pairs a b)
    {xs : List Value} (cell : l.cell a = .array xs) :
    ∃ ys, r.cell b = .array ys ∧ List.Forall₂ (Value.Alike ρ) xs ys := by
  have cells := alike.cells pair
  rw [cell] at cells
  generalize r.cell b = d at cells
  cases cells with
  | array items => exact ⟨_, rfl, items⟩

theorem Alike.object_of (alike : Heap.Alike ρ l r) {a b : Handle} (pair : ρ.pairs a b)
    {m : Members Value} (cell : l.cell a = .object m) :
    ∃ n : Members Value, r.cell b = .object n ∧ m.Alike ρ n := by
  have cells := alike.cells pair
  rw [cell] at cells
  generalize r.cell b = d at cells
  cases cells with
  | object members => exact ⟨_, rfl, members⟩

theorem Alike.unfoldWithin_eq (alike : Heap.Alike ρ l r) {enclosing enclosing' : List Handle}
    (above : List.Forall₂ ρ.pairs enclosing enclosing') {v w : Value} (values : v.Alike ρ w) :
    l.unfoldWithin enclosing v = r.unfoldWithin enclosing' w := by
  fun_induction Heap.unfoldWithin l enclosing v generalizing enclosing' w with
  | case6 enclosing h items cell known =>
    cases values with
    | container pair =>
      obtain ⟨ys, cell', items⟩ := alike.array_of pair cell
      rw [unfoldWithin_array cell', if_pos ((mem_iff_of_pairs above pair).1 known),
        idxOf_eq_of_pairs above pair]
    | leaf plain => cases plain
  | case7 enclosing h items cell fresh ih =>
    cases values with
    | container pair =>
      obtain ⟨ys, cell', alikeItems⟩ := alike.array_of pair cell
      rw [unfoldWithin_array cell', if_neg fun known => fresh ((mem_iff_of_pairs above pair).2 known),
        List.attach_map_val, Tree.array.injEq, ← List.forall₂_eq_eq_eq, List.forall₂_map_left_iff,
        List.forall₂_map_right_iff]
      exact ((List.forall₂_and_left items ys).2 ⟨fun _ mem => mem, alikeItems⟩).imp
        fun v w both => ih ⟨v, both.1⟩ (.cons pair above) both.2
    | leaf plain => cases plain
  | case8 enclosing h members cell known =>
    cases values with
    | container pair =>
      obtain ⟨n, cell', entries⟩ := alike.object_of pair cell
      rw [unfoldWithin_object cell', if_pos ((mem_iff_of_pairs above pair).1 known),
        idxOf_eq_of_pairs above pair]
    | leaf plain => cases plain
  | case9 enclosing h members cell fresh ih =>
    cases values with
    | container pair =>
      obtain ⟨n, cell', entries⟩ := alike.object_of pair cell
      rw [unfoldWithin_object cell', if_neg fun known => fresh ((mem_iff_of_pairs above pair).2 known)]
      simp only [List.map_attach_eq_pmap, List.pmap_eq_map, Tree.object.injEq]
      rw [← List.forall₂_eq_eq_eq, List.forall₂_map_left_iff, List.forall₂_map_right_iff]
      exact ((List.forall₂_and_left _ _).2 ⟨fun _ mem => mem, entries⟩).imp fun e f both =>
        Prod.ext both.2.1 (ih ⟨e, both.1⟩ (.cons pair above) both.2.2)
    | leaf plain => cases plain
  | _ =>
    cases values
    rw [unfoldWithin]

theorem Alike.unfold_eq (alike : Heap.Alike ρ l r) {v w : Value} (values : v.Alike ρ w) :
    l.unfold v = r.unfold w :=
  alike.unfoldWithin_eq .nil values

end DataBinding.Heap
