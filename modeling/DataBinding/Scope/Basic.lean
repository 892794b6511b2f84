import DataBinding.Scope.Config
import DataBinding.Scope.Watcher
import DataBinding.Value.Inspect

/-! Scopes: a data object and the watchers on it. -/
namespace DataBinding

/-- The last watcher found changed, with the generation of the watcher set it was in. -/
structure Marker where
  watcher : Nat
  generation : UInt64
  deriving DecidableEq

/-- A data object and the watchers on it in the order of their registration. Watchers are
numbered in that order and no number is used again. The generation counts the changes to
the set of watchers. -/
structure Scope (κ : Type) where
  data : Handle
  watchers : List (Watcher κ)
  /-- The next watcher's number. Numbers are unbounded here; those of 64 bits are the same for as long
  as fewer than 2^64 watchers have been registered, in all scopes together. -/
  nextId : Nat
  ascending : (watchers.map Watcher.id).Pairwise (· < ·)
  below : ∀ watcher ∈ watchers, watcher.id < nextId
  marker : Option Marker
  generation : UInt64
  config : Config

namespace Scope

variable {κ : Type}

/-- A scope without watchers whose numbers start at `nextId`. -/
def new (data : Handle) (nextId : Nat) (config : Config) : Scope κ :=
  ⟨data, [], nextId, .nil, fun _ none => absurd none List.not_mem_nil, none, 0, config⟩

def ids (scope : Scope κ) : List Nat := scope.watchers.map Watcher.id

def find? (scope : Scope κ) (id : Nat) : Option (Watcher κ) :=
  scope.watchers.find? fun watcher => watcher.id == id

/-- Records a change to the set of watchers. -/
def invalidate (scope : Scope κ) : Scope κ :=
  { scope with marker := none, generation := scope.generation + 1 }

def mark (scope : Scope κ) (marker : Option Marker) : Scope κ := { scope with marker }

theorem ascending_append {watchers : List (Watcher κ)} {watcher : Watcher κ}
    (ascending : (watchers.map Watcher.id).Pairwise (· < ·))
    (below : ∀ other ∈ watchers, other.id < watcher.id) :
    ((watchers ++ [watcher]).map Watcher.id).Pairwise (· < ·) := by
  rw [List.map_append, List.pairwise_append]
  refine ⟨ascending, List.pairwise_singleton _ _, ?_⟩
  intro a ha b hb
  obtain ⟨other, mem, rfl⟩ := List.mem_map.1 ha
  have same : b = watcher.id := by simpa using hb
  exact same ▸ below other mem

/-- Adds a watcher that has seen nothing yet; its number is the next one. -/
def add (scope : Scope κ) (source : Source κ) (listener : Option κ) (comparison : Comparison) :
    Scope κ :=
  let watcher : Watcher κ := ⟨scope.nextId, source, listener, comparison, none⟩
  invalidate { scope with
    watchers := scope.watchers ++ [watcher]
    nextId := scope.nextId + 1
    ascending := ascending_append scope.ascending scope.below
    below := fun other mem => by
      rcases List.mem_append.1 mem with old | fresh
      · exact Nat.lt_succ_of_lt (scope.below other old)
      · rw [List.mem_singleton.1 fresh]
        exact Nat.lt_succ_self _ }

def remove (scope : Scope κ) (id : Nat) : Scope κ :=
  invalidate { scope with
    watchers := scope.watchers.filter fun watcher => watcher.id != id
    ascending := scope.ascending.sublist (List.filter_sublist.map Watcher.id)
    below := fun other mem => scope.below other (List.mem_filter.1 mem).1 }

theorem map_keeps_ids (watchers : List (Watcher κ)) (f : Watcher κ → Watcher κ)
    (keeps : ∀ watcher, (f watcher).id = watcher.id) :
    (watchers.map f).map Watcher.id = watchers.map Watcher.id := by
  rw [List.map_map]
  exact List.map_congr_left fun watcher _ => keeps watcher

/-- Keeps a value as the last one that a watcher saw. -/
def setLast (scope : Scope κ) (id : Nat) (v : Value) : Scope κ :=
  let keep := fun (watcher : Watcher κ) =>
    if watcher.id = id then { watcher with last := some v } else watcher
  have keeps : ∀ watcher, (keep watcher).id = watcher.id := fun watcher => by
    by_cases same : watcher.id = id <;> simp [keep, same]
  { scope with
    watchers := scope.watchers.map keep
    ascending := by
      rw [map_keeps_ids scope.watchers keep keeps]
      exact scope.ascending
    below := fun other mem => by
      obtain ⟨watcher, old, rfl⟩ := List.mem_map.1 mem
      rw [keeps]
      exact scope.below watcher old }

/-- The scope for inspection, given its data. -/
def outline (scope : Scope κ) (heap : Heap) : Text.Outline :=
  .record "Scope" [
    ("data", (heap.unfold (.container scope.data)).bareOutline),
    ("watchers", .word (Nat.toDigits 10 scope.watchers.length)),
    ("config", scope.config.outline)]

end Scope

end DataBinding
