import DataBinding.Scope.Basic
import Mathlib.Data.List.Nodup

/-! The watchers of a scope by their numbers. A number stands for one watcher at most, and the
watchers stand in the order of their numbers. -/
namespace DataBinding

variable {κ : Type}

namespace Scope

variable {scope : Scope κ} {watcher : Watcher κ} {id : Nat}

theorem eq_of_id_eq {other : Watcher κ} (mem : watcher ∈ scope.watchers)
    (mem' : other ∈ scope.watchers) (same : watcher.id = other.id) : watcher = other := by
  have distinct : (scope.watchers.map Watcher.id).Nodup :=
    scope.ascending.imp fun less => Nat.ne_of_lt less
  exact List.inj_on_of_nodup_map distinct mem mem' same

theorem find?_eq_some_iff :
    scope.find? id = some watcher ↔ watcher ∈ scope.watchers ∧ watcher.id = id := by
  constructor
  · intro found
    have here := List.find?_some found
    exact ⟨List.mem_of_find?_eq_some found, by simpa using here⟩
  · rintro ⟨mem, rfl⟩
    unfold find?
    cases found : scope.watchers.find? fun other => other.id == watcher.id with
    | none =>
      have absent := List.find?_eq_none.1 found watcher mem
      simp at absent
    | some other =>
      have here : other.id = watcher.id := by simpa using List.find?_some found
      rw [eq_of_id_eq mem (List.mem_of_find?_eq_some found) here.symm]

theorem find?_eq_none_iff : scope.find? id = none ↔ id ∉ scope.ids := by
  simp [find?, ids]

theorem mem_ids_of_find? (found : scope.find? id = some watcher) : id ∈ scope.ids := by
  obtain ⟨mem, rfl⟩ := find?_eq_some_iff.1 found
  exact List.mem_map_of_mem mem

theorem lt_nextId_of_find? (found : scope.find? id = some watcher) : id < scope.nextId := by
  obtain ⟨mem, rfl⟩ := find?_eq_some_iff.1 found
  exact scope.below watcher mem

/-- A pass does not come to a watcher twice. -/
theorem not_mem_of_ids {seen rest : List Nat} (ids : scope.ids = seen ++ id :: rest) : id ∉ seen := by
  have ascending : scope.ids.Pairwise (· < ·) := scope.ascending
  rw [ids] at ascending
  intro again
  exact Nat.lt_irrefl _ ((List.pairwise_append.1 ascending).2.2 id again id List.mem_cons_self)

theorem ids_setLast (scope : Scope κ) (id : Nat) (v : Value) : (scope.setLast id v).ids = scope.ids :=
  map_keeps_ids _ _ fun other => by split <;> rfl

/-! Looking for a watcher after a change. -/

theorem find?_add (source : Source κ) (listener : Option κ) (comparison : Comparison) :
    (scope.add source listener comparison).find? id = if id = scope.nextId then
      some ⟨scope.nextId, source, listener, comparison, none⟩ else scope.find? id := by
  ext watcher
  rw [find?_eq_some_iff]
  have members : watcher ∈ (scope.add source listener comparison).watchers ↔
      watcher ∈ scope.watchers ∨ watcher = ⟨scope.nextId, source, listener, comparison, none⟩ := by
    simp [add, invalidate]
  rw [members]
  by_cases new : id = scope.nextId
  · rw [if_pos new]
    constructor
    · rintro ⟨old | rfl, same⟩
      · exact absurd (same.trans new) (Nat.ne_of_lt (scope.below watcher old))
      · rfl
    · rintro ⟨rfl⟩
      exact ⟨.inr rfl, new.symm⟩
  · rw [if_neg new, find?_eq_some_iff]
    refine and_congr_left fun same => or_iff_left ?_
    rintro rfl
    exact new same.symm

theorem find?_remove {other : Nat} :
    (scope.remove id).find? other = if other = id then none else scope.find? other := by
  ext watcher
  rw [find?_eq_some_iff]
  have members : watcher ∈ (scope.remove id).watchers ↔ watcher ∈ scope.watchers ∧ watcher.id ≠ id := by
    simp [remove, invalidate]
  rw [members]
  by_cases same : other = id
  · rw [if_pos same]
    simp only [reduceCtorEq, iff_false]
    rintro ⟨⟨_, differs⟩, named⟩
    exact differs (named.trans same)
  · rw [if_neg same, find?_eq_some_iff]
    refine and_congr_left fun named => and_iff_left ?_
    rintro rfl
    exact same named.symm

theorem find?_setLast_of_ne {other : Nat} {v : Value} (differs : other ≠ id) :
    (scope.setLast id v).find? other = scope.find? other := by
  ext watcher
  rw [find?_eq_some_iff, find?_eq_some_iff]
  refine and_congr_left fun named => ?_
  simp only [setLast, List.mem_map]
  constructor
  · rintro ⟨before, mem, rfl⟩
    by_cases here : before.id = id
    · simp only [here, if_true] at named
      exact absurd named.symm differs
    · rwa [if_neg here]
  · intro mem
    exact ⟨watcher, mem, if_neg fun here => differs (named.symm.trans here)⟩

theorem find?_setLast {v : Value} : (scope.setLast id v).find? id =
    (scope.find? id).map fun watcher => { watcher with last := some v } := by
  ext watcher
  simp only [Option.map_eq_some_iff, find?_eq_some_iff, setLast, List.mem_map]
  constructor
  · rintro ⟨⟨before, mem, rfl⟩, named⟩
    by_cases here : before.id = id
    · exact ⟨before, ⟨mem, here⟩, (if_pos here).symm⟩
    · rw [if_neg here] at named
      exact absurd named here
  · rintro ⟨before, ⟨mem, named⟩, rfl⟩
    exact ⟨⟨before, mem, if_pos named⟩, named⟩

theorem mem_setLast {v : Value} (mem : watcher ∈ (scope.setLast id v).watchers) :
    ∃ before ∈ scope.watchers, watcher.id = before.id ∧ watcher.listener = before.listener ∧
      watcher.comparison = before.comparison ∧
      (before.id = id ∧ watcher.last = some v ∨ before.id ≠ id ∧ watcher = before) := by
  obtain ⟨before, old, rfl⟩ := List.mem_map.1 mem
  refine ⟨before, old, ?_⟩
  by_cases same : before.id = id
  · simp [same]
  · simp [same]

/-- A pass has still to visit the watchers behind a marked one, and will not come to the marked
one before. -/
def Ahead (scope : Scope κ) (rest : List Nat) (marked : Nat) : Prop :=
  ∀ id ∈ scope.ids, marked < id → id ∈ rest ∧ marked ∉ rest

theorem ahead_of_visiting {seen rest : List Nat} (ids : scope.ids = seen ++ id :: rest) :
    scope.Ahead rest id := by
  intro other mem less
  have ascending : scope.ids.Pairwise (· < ·) := scope.ascending
  rw [ids] at mem ascending
  obtain ⟨_, later, apart⟩ := List.pairwise_append.1 ascending
  obtain ⟨first, _⟩ := List.pairwise_cons.1 later
  refine ⟨?_, fun again => Nat.lt_irrefl _ (first _ again)⟩
  rcases List.mem_append.1 mem with before | mem
  · exact absurd less (Nat.lt_asymm (apart other before id List.mem_cons_self))
  · rcases List.mem_cons.1 mem with rfl | mem
    · exact absurd less (Nat.lt_irrefl _)
    · exact mem

end Scope

end DataBinding
