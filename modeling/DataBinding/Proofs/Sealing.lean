import DataBinding.Proofs.Scripts
import DataBinding.Proofs.Watchers
import DataBinding.Proofs.Zones
import DataBinding.Scope.Digest

/-! Which containers belong to whom. The client shares the containers that it can reach through the
data, what it keeps, what its scripts hold and what watchers saw by reference. The copy that a
watcher keeps by value is sealed: nothing that is shared reaches it, nor does any other copy. So
it stays as it was made until it is handed to the listener, whatever is changed meanwhile. -/
namespace DataBinding

variable {κ σ : Type} {ρ' : Pairing} {L : Value → Value → Prop}

theorem World.Stepped.watchers {w w' : World κ σ} (stepped : w.Stepped w') :
    ∀ watcher ∈ w'.scope.watchers, watcher ∈ w.scope.watchers ∨ watcher.last = none := by
  intro watcher mem
  cases stepped with
  | changed | remarked => exact .inl mem
  | registered =>
    rcases List.mem_append.1 mem with old | fresh
    · exact .inl old
    · rw [List.mem_singleton.1 fresh]
      exact .inr rfl
  | deregistered id =>
    unfold deregister at mem
    split at mem
    · exact .inl (List.mem_filter.1 mem).1
    · exact .inl mem

/-- Where the value that a watcher keeps belongs. -/
def Watcher.place (watcher : Watcher κ) (shared : Handle → Prop) (sealed : Nat → Handle → Prop) :
    Handle → Prop :=
  match watcher.comparison with
  | .reference => shared
  | .value => sealed watcher.id

namespace World

/-- What the client can reach, while its scripts hold some values, and the copies that watchers
keep. -/
structure Zones (held : List Value) (w : World κ σ) (shared : Handle → Prop)
    (sealed : Nat → Handle → Prop) : Prop where
  common : w.heap.Zone shared
  copies : ∀ id, w.heap.Zone (sealed id)
  apart : ∀ id h, sealed id h → ¬ shared h
  disjoint : ∀ i j h, sealed i h → sealed j h → i = j
  data : shared w.scope.data
  kept : ∀ v ∈ w.kept.values, v.Within shared
  held : ∀ v ∈ held, v.Within shared
  last : ∀ watcher ∈ w.scope.watchers, ∀ v, watcher.last = some v →
    v.Within (watcher.place shared sealed)

namespace Zones

variable {held held' values values' : List Value} {w w' : World κ σ} {shared : Handle → Prop}
  {sealed : Nat → Handle → Prop} {new : Value}

theorem alike (zones : w.Zones held shared sealed) :
    w.Alike (.identity shared) (fun _ _ => True) w where
  heap := zones.common.alike
  data := ⟨rfl, zones.data⟩
  watchers := List.forall₂_same.2 fun watcher _ => {
    id := rfl
    source := rfl
    listener := rfl
    comparison := rfl
    last := by
      cases watcher.last with
      | none => exact .none
      | some v => exact .some trivial }
  nextId := rfl
  generation := rfl
  config := rfl
  kept := List.forall₂_same.2 fun entry mem =>
    ⟨rfl, Value.alike_identity (zones.kept entry.2 (List.mem_map_of_mem mem))⟩
  client := rfl

theorem given (zones : w.Zones held shared sealed) :
    List.Forall₂ (Value.Alike (.identity shared)) held held :=
  List.forall₂_same.2 fun v mem => Value.alike_identity (zones.held v mem)

theorem fewer (zones : w.Zones held shared sealed)
    (less : ∀ v ∈ held', v ∈ held ∨ v.isContainer = false) : w.Zones held' shared sealed where
  __ := zones
  held := by
    intro v mem
    rcases less v mem with mem | plain
    · exact zones.held v mem
    · rintro h rfl
      cases plain

/-- What is done with shared values alone leaves the copies alone. -/
theorem step (zones : w.Zones held shared sealed)
    (lockstep : Heap.Lockstep (.identity shared) ρ' w.heap w'.heap w.heap w'.heap)
    (worlds : w'.Alike ρ' L w') (given : List.Forall₂ (Value.Alike ρ') held' held')
    (watchers : ∀ watcher ∈ w'.scope.watchers, watcher ∈ w.scope.watchers ∨ watcher.last = none) :
    (∀ id, w.heap.Keeps (sealed id) w'.heap) ∧
      w'.Zones held' (fun a => ∃ b, ρ'.pairs a b) sealed := by
  have keeps : ∀ id, w.heap.Keeps (sealed id) w'.heap := fun id =>
    lockstep.left.weaken fun h mem b pair => zones.apart id h mem pair.2
  refine ⟨keeps, {
    common := lockstep.alike.zone_left
    copies := fun id => (zones.copies id).keeps (keeps id)
    apart := ?_
    disjoint := zones.disjoint
    data := ⟨_, worlds.data⟩
    kept := ?_
    held := fun v mem => (List.forall₂_same.1 given v mem).within_left
    last := ?_ }⟩
  · rintro id h mem ⟨b, pair⟩
    have inside := (zones.copies id).inside h mem
    rcases lockstep.fresh pair with old | ⟨late, _⟩
    · exact zones.apart id h mem old.2
    · omega
  · intro v mem
    obtain ⟨entry, listed, rfl⟩ := List.mem_map.1 mem
    exact (List.forall₂_same.1 worlds.kept entry listed).2.within_left
  · intro watcher mem v seen
    rcases watchers watcher mem with old | fresh
    · have before := zones.last watcher old v seen
      unfold Watcher.place at before ⊢
      cases comparison : watcher.comparison with
      | reference =>
        simp only [comparison] at before ⊢
        intro h same
        exact ⟨h, lockstep.larger h h ⟨rfl, before h same⟩⟩
      | value =>
        simp only [comparison] at before ⊢
        exact before
    · cases seen.symm.trans fresh

/-- Operations of scripts. -/
theorem run (zones : w.Zones (held ++ values) shared sealed) {op : Op κ σ} {answer : op.Answer}
    (run : op.run noDigest values w = some (answer, values', w')) :
    ∃ shared', (∀ id, w.heap.Keeps (sealed id) w'.heap) ∧
      w'.Zones (held ++ values') shared' sealed := by
  have before := zones.given
  have values_alike : List.Forall₂ (Value.Alike (.identity shared)) values values :=
    List.forall₂_same.2 fun v mem => List.forall₂_same.1 before v (List.mem_append_right _ mem)
  have together := op.run_alike zones.alike values_alike
  rw [run] at together
  cases together with
  | some together =>
  obtain ⟨ρ', lockstep, worlds, given⟩ := together.worlds
  have held_alike : List.Forall₂ (Value.Alike ρ') held held := List.forall₂_same.2 fun v mem =>
    (List.forall₂_same.1 before v (List.mem_append_left _ mem)).mono lockstep.larger
  exact ⟨_, zones.step lockstep worlds (List.rel_append held_alike given) (Op.run_stepped run).watchers⟩

/-- Expressions over the data. -/
theorem call (zones : w.Zones held shared sealed) (accessor : Accessor) :
    let called := w.call accessor ⟨some w.data, none⟩
    ∃ shared', (∀ id, w.heap.Keeps (sealed id) called.2.heap) ∧
      called.2.Zones (held ++ [called.1]) shared' sealed := by
  have arguments : Arguments.Alike (.identity shared) ⟨some w.data, none⟩ ⟨some w.data, none⟩ :=
    ⟨.some zones.alike.dataValue, .none⟩
  obtain ⟨ρ', lockstep, worlds, results⟩ := World.call_alike zones.alike arguments accessor
  have held_alike := Value.Alike.all_mono lockstep.larger zones.given
  exact ⟨_, zones.step lockstep worlds (List.rel_append held_alike (.cons results .nil))
    fun _ => .inl⟩

/-- What the listener is handed beside what was held already. -/
theorem handed (zones : w.Zones (held ++ [new]) shared sealed) {zone : Handle → Prop} {old : Value}
    (larger : ∀ h, shared h → zone h) (within : old.Within zone) :
    ∀ v ∈ held ++ [new, old], v.Within zone := by
  intro v mem
  have known : v ∈ held ++ [new] ∨ v = old := by
    rcases List.mem_append.1 mem with mem | mem
    · exact .inl (List.mem_append_left _ mem)
    · rcases List.mem_cons.1 mem with rfl | mem
      · exact .inl (by simp)
      · exact .inr (List.mem_singleton.1 mem)
  rcases known with mem | rfl
  · intro h same
    exact larger h (zones.held v mem h same)
  · exact within

/-- A value that is kept by reference stays shared. -/
theorem record_reference (zones : w.Zones (held ++ [new]) shared sealed) {watcher : Watcher κ}
    (mem : watcher ∈ w.scope.watchers) (comparison : watcher.comparison = .reference) :
    ({ w with scope := w.scope.setLast watcher.id new } : World κ σ).Zones
      (held ++ [new, watcher.last.getD new]) shared sealed := by
  have given : new.Within shared := zones.held new (by simp)
  have old : (watcher.last.getD new).Within shared := by
    cases seen : watcher.last with
    | none => exact given
    | some last => simpa [Watcher.place, comparison] using zones.last watcher mem last seen
  refine { zones with held := zones.handed (fun _ here => here) old, last := ?_ }
  intro other mem' v seen
  obtain ⟨before, mem', _, _, sameComparison, ⟨own, kept⟩ | ⟨_, rfl⟩⟩ := Scope.mem_setLast mem'
  · cases kept.symm.trans seen
    cases Scope.eq_of_id_eq mem' mem own
    simpa [Watcher.place, sameComparison, comparison] using given
  · exact zones.last _ mem' v seen

/-- A value that is kept by value is copied. The copy is sealed, and the one that was kept before
is shared from then on. -/
theorem record_value (zones : w.Zones (held ++ [new]) shared sealed) {watcher : Watcher κ}
    (mem : watcher ∈ w.scope.watchers) (comparison : watcher.comparison = .value) :
    ({ w with
        heap := (w.heap.deepCopy new).2
        scope := w.scope.setLast watcher.id (w.heap.deepCopy new).1 } : World κ σ).Zones
      (held ++ [new, watcher.last.getD new]) (fun h => shared h ∨ sealed watcher.id h)
      (Function.update sealed watcher.id fun b =>
        ∃ a, (Pairing.copied (w.heap.reached [new]) w.heap.size).pairs a b) := by
  have given : new.Within shared := zones.held new (by simp)
  have old : (watcher.last.getD new).Within fun h => shared h ∨ sealed watcher.id h := by
    intro h same
    cases seen : watcher.last with
    | none => exact .inl (given h (by simpa [seen] using same))
    | some last =>
      have place := zones.last watcher mem last seen
      simp only [Watcher.place, comparison] at place
      exact .inr (place h (by simpa [seen] using same))
  have holds : w.heap.Holds [new] := zones.common.holds (by simpa using given)
  have copied := Heap.alike_deepCopy holds
  have grows := w.heap.grows_deepCopy new
  have fresh : ∀ b, (∃ a, (Pairing.copied (w.heap.reached [new]) w.heap.size).pairs a b) →
      w.heap.size ≤ b.index := by
    rintro _ ⟨a, _, rfl⟩
    exact Nat.le_add_right _ _
  exact {
    common := (zones.common.union (zones.copies watcher.id)).keeps grows.keeps
    copies := by
      intro id
      by_cases own : id = watcher.id
      · subst own
        rw [Function.update_self]
        exact copied.zone_right
      · rw [Function.update_of_ne own]
        exact (zones.copies id).keeps grows.keeps
    apart := by
      intro id h here there
      have early : h.index < w.heap.size :=
        there.elim (zones.common.inside h) ((zones.copies watcher.id).inside h)
      by_cases own : id = watcher.id
      · subst own
        rw [Function.update_self] at here
        exact Nat.not_lt.2 (fresh h here) early
      · rw [Function.update_of_ne own] at here
        exact there.elim (zones.apart id h here) fun other =>
          own (zones.disjoint id watcher.id h here other)
    disjoint := by
      intro i j h here there
      by_cases first : i = watcher.id <;> by_cases second : j = watcher.id
      · rw [first, second]
      · rw [first, Function.update_self] at here
        rw [Function.update_of_ne second] at there
        exact absurd ((zones.copies j).inside h there) (Nat.not_lt.2 (fresh h here))
      · rw [Function.update_of_ne first] at here
        rw [second, Function.update_self] at there
        exact absurd ((zones.copies i).inside h here) (Nat.not_lt.2 (fresh h there))
      · rw [Function.update_of_ne first] at here
        rw [Function.update_of_ne second] at there
        exact zones.disjoint i j h here there
    data := .inl zones.data
    kept := fun v mem h same => .inl (zones.kept v mem h same)
    held := zones.handed (fun _ => .inl) old
    last := by
      intro other mem' v seen
      obtain ⟨before, mem', sameId, _, sameComparison, ⟨own, kept⟩ | ⟨another, rfl⟩⟩ :=
        Scope.mem_setLast mem'
      · cases kept.symm.trans seen
        cases Scope.eq_of_id_eq mem' mem own
        simp only [Watcher.place, sameComparison, comparison, sameId, Function.update_self]
        exact (w.heap.value_alike_deepCopy new).within_right
      · have place := zones.last _ mem' v seen
        unfold Watcher.place at place ⊢
        split at place
        · intro h same
          exact .inl (place h same)
        · rwa [Function.update_of_ne another] }

theorem record (zones : w.Zones (held ++ [new]) shared sealed) {watcher : Watcher κ}
    (mem : watcher ∈ w.scope.watchers) : ∃ shared' sealed', (w.record watcher new).2.Zones
      (held ++ [new, (w.record watcher new).1.getD new]) shared' sealed' := by
  unfold World.record
  cases comparison : watcher.comparison with
  | reference => exact ⟨_, _, zones.record_reference mem comparison⟩
  | value => exact ⟨_, _, zones.record_value mem comparison⟩

/-- A new scope has a data object that nobody else has. -/
theorem renew (zones : w.Zones [] shared sealed) (config : Config) :
    (w.renew config).Zones [] (fun h => shared h ∨ h = ⟨w.heap.size⟩) fun _ _ => False where
  common := (zones.common.keeps (w.heap.grows_alloc _).keeps).union (w.heap.zone_alloc rfl)
  copies := fun _ => ⟨nofun, nofun⟩
  apart := nofun
  disjoint := nofun
  data := .inr rfl
  kept := fun v mem h same => .inl (zones.kept v mem h same)
  held := nofun
  last := nofun

theorem initial (config : Config) (client : σ) :
    (World.initial config client : World κ σ).Zones [] (· = ⟨0⟩) fun _ _ => False where
  common := Heap.empty.zone_alloc rfl
  copies := fun _ => ⟨nofun, nofun⟩
  apart := nofun
  disjoint := nofun
  data := rfl
  kept := nofun
  held := nofun
  last := nofun

end Zones

end World
end DataBinding
