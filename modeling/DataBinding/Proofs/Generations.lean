import DataBinding.Proofs.Invariants

/-! Changes to the set of watchers, counted. The generation counts them too, but modulo 2^64; taken
apart from the count it stays what it was when the scope was new. A script that changes the set of
watchers leaves no marker behind. -/
namespace DataBinding

variable {κ σ α : Type}

/-- Changes to the set of watchers. -/
def Event.isStructural : Event → Bool
  | .registered .. => true
  | .deregistered _ => true
  | _ => false

namespace World

variable {w w' w'' : World κ σ}

/-- How often the set of watchers has changed. -/
def changes (w : World κ σ) : Nat := w.journal.countP Event.isStructural

theorem changes_report (w : World κ σ) {event : Event} (plain : event.isStructural = false) :
    (w.report event).changes = w.changes :=
  List.countP_cons_of_neg (by simp [plain])

/-- The generation, less the changes that it counts. -/
def origin (w : World κ σ) : UInt64 := w.scope.generation - UInt64.ofNat w.changes

theorem generation_eq (w : World κ σ) : w.scope.generation = w.origin + UInt64.ofNat w.changes := by
  rw [origin, UInt64.sub_add_cancel]

/-- Either the set of watchers and the marker stay, or the set changes and the marker is lost. -/
structure Follows (w w' : World κ σ) : Prop where
  origin : w'.origin = w.origin
  steps : w'.changes = w.changes ∧ w'.scope.marker = w.scope.marker ∧ w'.scope.ids = w.scope.ids ∨
    w.changes < w'.changes ∧ w'.scope.marker = none

namespace Follows

theorem refl (w : World κ σ) : w.Follows w := ⟨rfl, .inl ⟨rfl, rfl, rfl⟩⟩

theorem trans (first : w.Follows w') (second : w'.Follows w'') : w.Follows w'' where
  origin := second.origin.trans first.origin
  steps := by
    rcases first.steps with ⟨count, marker, ids⟩ | ⟨less, lost⟩ <;>
      rcases second.steps with ⟨count', marker', ids'⟩ | ⟨less', lost'⟩
    · exact .inl ⟨count'.trans count, marker'.trans marker, ids'.trans ids⟩
    · exact .inr ⟨count ▸ less', lost'⟩
    · exact .inr ⟨count' ▸ less, marker'.trans lost⟩
    · exact .inr ⟨Nat.lt_trans less less', lost'⟩

theorem changes_le (follows : w.Follows w') : w.changes ≤ w'.changes := by
  rcases follows.steps with ⟨count, _⟩ | ⟨less, _⟩
  · exact Nat.le_of_eq count.symm
  · exact Nat.le_of_lt less

/-- A step that leaves the scope and reports no change of it. -/
theorem of_same (generation : w'.scope.generation = w.scope.generation)
    (marker : w'.scope.marker = w.scope.marker) (ids : w'.scope.ids = w.scope.ids)
    (changes : w'.changes = w.changes) : w.Follows w' :=
  ⟨by rw [World.origin, World.origin, generation, changes], .inl ⟨changes, marker, ids⟩⟩

theorem report (w : World κ σ) {event : Event} (plain : event.isStructural = false) :
    w.Follows (w.report event) :=
  .of_same rfl rfl rfl (changes_report w plain)

/-- A step that invalidates the scope and reports it. -/
theorem of_invalidated (generation : w'.scope.generation = w.scope.generation + 1)
    (marker : w'.scope.marker = none) (changes : w'.changes = w.changes + 1) : w.Follows w' where
  origin := by
    have count : UInt64.ofNat (w.changes + 1) = UInt64.ofNat w.changes + 1 := by
      rw [UInt64.ofNat_add]
      rfl
    rw [World.origin, World.origin, generation, changes, count]
    grind
  steps := .inr ⟨by omega, marker⟩

end Follows

theorem Stepped.follows (stepped : w.Stepped w') : w.Follows w' := by
  cases stepped with
  | changed => exact .of_same rfl rfl rfl rfl
  | @remarked event remark =>
    apply Follows.report
    cases event <;> first | rfl | cases remark
  | registered => exact .of_invalidated rfl rfl (List.countP_cons_of_pos rfl)
  | deregistered id =>
    unfold deregister
    split
    · exact .of_invalidated rfl rfl (List.countP_cons_of_pos rfl)
    · exact .refl w

end World

theorem Script.follows {script : Script κ σ α} {values values' : List Value} {w w' : World κ σ}
    {exit : Exit α} (run : script.run noDigest values w = some (exit, values', w')) :
    w.Follows w' :=
  Script.run_induction (I := fun _ after => w.Follows after)
    (fun step follows => follows.trans (Op.run_stepped step).follows)
    (fun none _ => by cases none) run (.refl w)

namespace World

variable {w w' : World κ σ}

theorem record_follows (w : World κ σ) (watcher : Watcher κ) (new : Value) :
    w.Follows (w.record watcher new).2 := by
  refine .of_same rfl rfl ?_ rfl
  apply Scope.map_keeps_ids
  intro other
  split <;> rfl

theorem absorb_follows (w : World κ σ) (watcher : Nat) (phase : Phase)
    (result : Except Fault Unit) : w.Follows (w.absorb watcher phase result) := by
  cases result with
  | ok => exact .refl w
  | error fault => exact .report w rfl

end World

theorem World.changes_le_report (w : World κ σ) (event : Event) :
    w.changes ≤ (w.report event).changes := w.countP_le_report Event.isStructural event

/-- Changes are never taken back, whatever digests do. -/
theorem World.stable_changes (n : Nat) : Stable (κ := κ) (σ := σ) fun _ w => n ≤ w.changes :=
  stable_countP Event.isStructural n

end DataBinding
