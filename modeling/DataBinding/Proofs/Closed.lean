import DataBinding.Proofs.Invariants
import DataBinding.Proofs.Scripts
import DataBinding.Proofs.Zones

/-! Worlds without dangling handles. What a world holds reaches containers of its heap only, and so
it stays whatever scripts and digests do. -/
namespace DataBinding

variable {κ σ α : Type} {ρ ρ' : Pairing} {L : Value → Value → Prop}

namespace World

/-- Every value that a world holds. -/
def roots (w : World κ σ) : List Value :=
  w.data :: (w.kept.values ++ w.scope.watchers.filterMap Watcher.last)

/-- What a world holds reaches containers of its heap only. -/
def Closed (w : World κ σ) : Prop := w.heap.Holds w.roots

/-- A closed world paired with itself. -/
def known (w : World κ σ) : Pairing := .identity (· ∈ w.heap.reached w.roots)

theorem mem_roots_of_last {w : World κ σ} {watcher : Watcher κ} (mem : watcher ∈ w.scope.watchers)
    {last : Value} (seen : watcher.last = some last) : last ∈ w.roots :=
  List.mem_cons_of_mem _ (List.mem_append_right _ (List.mem_filterMap.2 ⟨watcher, mem, seen⟩))

theorem Closed.inside {w : World κ σ} (closed : w.Closed) : w.scope.data.index < w.heap.size :=
  closed _ (Heap.reached_roots List.mem_cons_self _ rfl)

theorem Closed.alike {w : World κ σ} (closed : w.Closed) :
    w.Alike w.known (Value.Alike w.known) w where
  heap := Heap.Holds.alike closed
  data := ⟨rfl, Heap.reached_roots List.mem_cons_self _ rfl⟩
  watchers := List.forall₂_same.2 fun watcher mem => {
    id := rfl
    source := rfl
    listener := rfl
    comparison := rfl
    last := by
      cases seen : watcher.last with
      | none => exact .none
      | some last =>
        exact .some (Value.alike_identity (Heap.reached_roots (mem_roots_of_last mem seen))) }
  nextId := rfl
  generation := rfl
  config := rfl
  kept := List.forall₂_same.2 fun entry mem => ⟨rfl, Value.alike_identity (Heap.reached_roots
    (List.mem_cons_of_mem _ (List.mem_append_left _ (List.mem_map_of_mem mem))))⟩
  client := rfl

end World

namespace World.Alike

variable {l r : World κ σ}

theorem roots (alike : l.Alike ρ (Value.Alike ρ) r) :
    List.Forall₂ (Value.Alike ρ) l.roots r.roots := by
  apply List.Forall₂.cons alike.dataValue
  apply List.rel_append
  · exact List.rel_map (fun _ _ entry => entry.2) alike.kept
  · exact List.rel_filterMap (fun _ _ watchers => watchers.last) alike.watchers

theorem closed_left (alike : l.Alike ρ (Value.Alike ρ) r) : l.Closed := by
  apply alike.heap.zone_left.holds
  intro v mem
  obtain ⟨w, _, values⟩ := List.exists_of_mem_left alike.roots mem
  exact values.within_left

theorem closed_right (alike : l.Alike ρ (Value.Alike ρ) r) : r.Closed := by
  apply alike.heap.zone_right.holds
  intro v mem
  obtain ⟨w, _, values⟩ := List.exists_of_mem_right alike.roots mem
  exact values.within_right

end World.Alike

/-! Recording keeps worlds alike. -/

theorem Comparison.remember_alike {l r : Heap} (heaps : Heap.Alike ρ l r) {v w : Value}
    (values : v.Alike ρ w) (comparison : Comparison) :
    ∃ ρ', Heap.Lockstep ρ ρ' l (comparison.remember l v).2 r (comparison.remember r w).2 ∧
      (comparison.remember l v).1.Alike ρ' (comparison.remember r w).1 := by
  cases comparison with
  | reference => exact ⟨ρ, .refl heaps, values⟩
  | value => exact heaps.deepCopy values

theorem World.Alike.record {l r : World κ σ} (alike : l.Alike ρ (Value.Alike ρ) r) {a b : Watcher κ}
    (watchers : a.Alike (Value.Alike ρ) b) {v w : Value} (values : v.Alike ρ w) :
    ∃ ρ', Heap.Lockstep ρ ρ' l.heap (l.record a v).2.heap r.heap (r.record b w).2.heap ∧
      (l.record a v).2.Alike ρ' (Value.Alike ρ') (r.record b w).2 ∧
      Option.Rel (Value.Alike ρ') (l.record a v).1 (r.record b w).1 := by
  obtain ⟨ρ', step, kept⟩ := Comparison.remember_alike alike.heap values a.comparison
  have larger : ∀ v w : Value, v.Alike ρ w → v.Alike ρ' w := fun _ _ => .mono step.larger
  unfold World.record
  rw [← watchers.comparison, ← watchers.id]
  refine ⟨ρ', step, { (alike.imp larger).withHeap step with watchers := ?_ }, watchers.last.imp larger⟩
  refine List.rel_map (fun x y seen => ?_) (alike.imp larger).watchers
  rw [seen.id]
  split
  · exact { seen with last := .some kept, id := rfl }
  · exact seen

theorem World.Alike.mark {l r : World κ σ} (alike : l.Alike ρ L r) (marker marker' : Option Marker) :
    (l.mark marker).Alike ρ L (r.mark marker') := { alike with }

theorem World.closed_initial (config : Config) (client : σ) :
    (World.initial config client : World κ σ).Closed := by
  have zone : (World.initial config client : World κ σ).heap.Zone (· = ⟨0⟩) :=
    Heap.empty.zone_alloc rfl
  apply zone.holds
  intro v mem
  cases List.mem_singleton.1 mem
  rintro _ ⟨rfl⟩
  rfl

theorem World.Closed.register {w : World κ σ} (closed : w.Closed) (source : Source κ)
    (listener : Option κ) (comparison : Comparison) :
    (w.register source listener comparison).2.Closed :=
  (closed.alike.register source listener comparison).2.closed_left

/-- A closed world, also in the values that running scripts hold. -/
def World.ClosedWith (held : List Value) (w : World κ σ) : Prop :=
  ∃ ρ, w.Alike ρ (Value.Alike ρ) w ∧ List.Forall₂ (Value.Alike ρ) held held

theorem World.Closed.with_none {w : World κ σ} (closed : w.Closed) : w.ClosedWith [] :=
  ⟨_, closed.alike, .nil⟩

theorem World.ClosedWith.closed {held : List Value} {w : World κ σ} (closed : w.ClosedWith held) :
    w.Closed := by
  obtain ⟨ρ, alike, _⟩ := closed
  exact alike.closed_left

theorem World.ClosedWith.holds {held : List Value} {w : World κ σ} (closed : w.ClosedWith held) :
    w.heap.Holds held := by
  obtain ⟨ρ, alike, given⟩ := closed
  exact alike.heap.zone_left.holds fun v mem => (List.forall₂_same.1 given v mem).within_left

theorem World.stable_closed : Stable (κ := κ) (σ := σ) World.ClosedWith where
  fewer := by
    rintro more fewer w less ⟨ρ, alike, given⟩
    refine ⟨ρ, alike, List.forall₂_same.2 fun v mem => ?_⟩
    rcases less v mem with old | plain
    · exact List.forall₂_same.1 given v old
    · exact .leaf plain
  step := by
    rintro held values values' w w' op answer run ⟨ρ, alike, given⟩
    have own := List.forall₂_same.2 fun v mem =>
      List.forall₂_same.1 given v (List.mem_append_right held mem)
    have both := op.run_alike alike own
    rw [run] at both
    cases both with
    | some together =>
      obtain ⟨ρ', step, worlds, given'⟩ := together.worlds
      refine ⟨ρ', worlds.imp fun _ _ => .mono step.larger, List.rel_append ?_ given'⟩
      exact List.forall₂_same.2 fun v mem =>
        (List.forall₂_same.1 given v (List.mem_append_left _ mem)).mono step.larger
  report := fun event _ ⟨ρ, alike, given⟩ => ⟨ρ, alike.report event event, given⟩
  asked := fun _ ⟨ρ, alike, given⟩ => ⟨ρ, alike.report _ _, given⟩
  call := by
    rintro held w accessor ⟨ρ, alike, given⟩
    have arguments : Arguments.Alike ρ ⟨some w.data, none⟩ ⟨some w.data, none⟩ :=
      ⟨.some alike.dataValue, .none⟩
    obtain ⟨ρ', step, worlds, results⟩ := World.call_alike alike arguments accessor
    exact ⟨ρ', worlds.imp fun _ _ => .mono step.larger,
      List.rel_append (Value.Alike.all_mono step.larger given) (.cons results .nil)⟩
  mark := fun marker ⟨ρ, alike, given⟩ => ⟨ρ, alike.mark marker marker, given⟩
  matched := by
    rintro held w watcher new _ _ ⟨ρ, alike, given⟩
    exact ⟨ρ, alike.report _ _, List.forall₂_same.2 fun v mem =>
      List.forall₂_same.1 given v (List.mem_append_left _ mem)⟩
  changed := by
    rintro held w watcher new marker found _ ⟨ρ, alike, given⟩
    have values := List.forall₂_same.1 given
    have same := List.forall₂_same.1 alike.watchers watcher (List.mem_of_find?_eq_some found)
    obtain ⟨ρ', step, worlds, last⟩ :=
      ((alike.report (.answered watcher.id new w.heap) (.answered watcher.id new w.heap)).mark
        marker marker).record same (values new (by simp))
    have new' := (values new (by simp)).mono step.larger
    have old := last.getD new'
    refine ⟨ρ', ?_, List.forall₂_same.2 fun v mem => ?_⟩
    · simp only [World.announce]
      split
      · exact worlds
      · exact worlds.report _ _
    · rcases List.mem_append.1 mem with mem | mem
      · exact (values v (List.mem_append_left _ mem)).mono step.larger
      · rcases List.mem_cons.1 mem with rfl | mem
        · exact new'
        · rw [List.mem_singleton.1 mem]
          exact old

end DataBinding
