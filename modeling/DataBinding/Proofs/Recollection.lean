import DataBinding.Proofs.Closed
import DataBinding.Proofs.Divergence
import DataBinding.Proofs.History

/-! Expressions watched by value. As long as the data stays as it is, an expression over it gives the
same value each time, structurally: each time it may build other containers around those of the data.
What a watcher keeps of the value is a copy that nobody else can reach, so it matches all of them. -/
namespace DataBinding

variable {κ σ α : Type}

/-- Which watchers have seen nothing yet. -/
def Scope.unseen (scope : Scope κ) : List Nat :=
  (scope.watchers.filter fun watcher => watcher.last.isNone).map Watcher.id

namespace Scope

variable {scope : Scope κ} {watcher : Watcher κ} {id : Nat}

theorem mem_unseen_iff : id ∈ scope.unseen ↔
    ∃ watcher ∈ scope.watchers, watcher.last = none ∧ watcher.id = id := by
  simp [unseen, and_assoc]

theorem nodup_unseen (scope : Scope κ) : scope.unseen.Nodup := by
  have distinct : (scope.watchers.map Watcher.id).Nodup :=
    scope.ascending.imp fun less => Nat.ne_of_lt less
  exact distinct.sublist (List.filter_sublist.map Watcher.id)

theorem unseen_setLast (scope : Scope κ) (id : Nat) (v : Value) :
    (scope.setLast id v).unseen = scope.unseen.filter (· != id) := by
  unfold unseen setLast
  simp only
  induction scope.watchers with
  | nil => rfl
  | cons watcher rest ih =>
    simp only [List.map_cons, List.filter_cons]
    by_cases same : watcher.id = id
    · cases seen : watcher.last <;> simpa [same] using ih
    · cases seen : watcher.last <;> simpa [same, seen] using ih

end Scope

namespace World

/-- The value of an expression over the data, with the containers that are built for it. -/
abbrev overData (w : World κ σ) (accessor : Accessor) : Value × World κ σ :=
  w.call accessor ⟨some w.data, none⟩

/-- The data of a world is that of an earlier one, down to the last container, and so is the set of
watchers. -/
structure Untouched (start w : World κ σ) : Prop where
  data : w.scope.data = start.scope.data
  graph : start.heap.Keeps (· ∈ start.heap.reached [start.data]) w.heap
  ids : w.scope.ids = start.scope.ids

theorem Untouched.refl (w : World κ σ) : w.Untouched w := ⟨rfl, .refl _ _, rfl⟩

theorem Untouched.grown {start w w' : World κ σ} (untouched : start.Untouched w)
    (heap : w.heap.Grows w'.heap) (data : w'.scope.data = w.scope.data)
    (ids : w'.scope.ids = w.scope.ids) : start.Untouched w' where
  data := data.trans untouched.data
  graph := untouched.graph.trans heap.keeps
  ids := ids.trans untouched.ids

/-- What the data reaches. -/
theorem Closed.zone_data {w : World κ σ} (closed : w.Closed) :
    w.heap.Zone (· ∈ w.heap.reached [w.data]) where
  inside := by
    refine fun h mem => closed h (Heap.walk_least [] [w.data] (by simp) (fun v root => ?_)
      (fun h mem child inside => Heap.reached_children mem inside) h mem)
    rw [List.mem_singleton.1 root]
    exact Heap.reached_roots List.mem_cons_self
  closed := fun h mem child inside => Heap.reached_children mem inside

/-- Expressions over untouched data give what they gave before. -/
theorem Untouched.overData_similar {start w : World κ σ} (untouched : start.Untouched w)
    (closed : start.Closed) (accessor : Accessor) :
    (w.overData accessor).2.heap.Similar (w.overData accessor).1
      (start.overData accessor).2.heap (start.overData accessor).1 := by
  have heaps := closed.zone_data.alike_of_keeps untouched.graph
  have same : w.data = start.data := congrArg Value.container untouched.data
  have arguments : Arguments.Alike (.identity (· ∈ start.heap.reached [start.data]))
      ⟨some start.data, none⟩ ⟨some w.data, none⟩ :=
    ⟨.some (same ▸ Value.alike_identity (Heap.reached_roots List.mem_cons_self)), .none⟩
  obtain ⟨ρ, step, values⟩ := accessor.program.run_alike heaps arguments
  exact (step.alike.similar values).symm

end World

/-- The watcher takes its value from an expression and compares by value, it has a listener, and what
it has seen, if anything, is what the expression gives over the data of `start`. -/
structure Watcher.Recalls (start : World κ σ) (heap : Heap) (watcher : Watcher κ) : Prop where
  comparison : watcher.comparison = .value
  listens : watcher.listener.isSome = true
  source : ∃ accessor, watcher.source = .expression accessor ∧ ∀ last, watcher.last = some last →
    heap.Similar last (start.overData accessor).2.heap (start.overData accessor).1

namespace World

/-- All watchers recall what they have seen, and nobody else can change it. -/
structure Recollects (start : World κ σ) (held : List Value) (w : World κ σ) : Prop where
  sealed : ∃ shared sealed, w.Zones held shared sealed
  recalls : ∀ watcher ∈ w.scope.watchers, watcher.Recalls start w.heap

namespace Recollects

variable {start w w' : World κ σ} {held held' values values' : List Value} {watcher : Watcher κ}

theorem fewer (recollects : start.Recollects held w)
    (less : ∀ v ∈ held', v ∈ held ∨ v.isContainer = false) : start.Recollects held' w := by
  obtain ⟨shared, sealed, zones⟩ := recollects.sealed
  exact ⟨⟨shared, sealed, zones.fewer less⟩, recollects.recalls⟩

theorem dropLast {more : List Value} (recollects : start.Recollects (held ++ more) w) :
    start.Recollects held w :=
  recollects.fewer fun _ mem => .inl (List.mem_append_left _ mem)

/-- While the copies stay, so does what the watchers recall. -/
theorem keep {shared : Handle → Prop} {sealed : Nat → Handle → Prop}
    (zones : w.Zones held shared sealed) (keeps : ∀ id, w.heap.Keeps (sealed id) w'.heap)
    (mem : watcher ∈ w.scope.watchers) (recalls : watcher.Recalls start w.heap) :
    watcher.Recalls start w'.heap where
  comparison := recalls.comparison
  listens := recalls.listens
  source := by
    obtain ⟨accessor, source, seen⟩ := recalls.source
    refine ⟨accessor, source, fun last kept => ?_⟩
    have place := zones.last watcher mem last kept
    simp only [Watcher.place, recalls.comparison] at place
    exact ((zones.copies watcher.id).similar (keeps watcher.id) place).symm.trans (seen last kept)

theorem report (recollects : start.Recollects held w) (event : Event) :
    start.Recollects held (w.report event) := by
  obtain ⟨shared, sealed, zones⟩ := recollects.sealed
  exact ⟨⟨shared, sealed, { zones with }⟩, recollects.recalls⟩

theorem mark (recollects : start.Recollects held w) (marker : Option Marker) :
    start.Recollects held (w.mark marker) := by
  obtain ⟨shared, sealed, zones⟩ := recollects.sealed
  exact ⟨⟨shared, sealed, { zones with }⟩, recollects.recalls⟩

theorem overData (recollects : start.Recollects held w) (accessor : Accessor) :
    start.Recollects (held ++ [(w.overData accessor).1]) (w.overData accessor).2 := by
  obtain ⟨shared, sealed, zones⟩ := recollects.sealed
  obtain ⟨shared', keeps, after⟩ := zones.call accessor
  exact ⟨⟨shared', sealed, after⟩, fun watcher mem =>
    keep zones keeps mem (recollects.recalls watcher mem)⟩

/-- A value that the expression gave is kept as a copy. -/
theorem record {new : Value} {accessor : Accessor} (recollects : start.Recollects (held ++ [new]) w)
    (mem : watcher ∈ w.scope.watchers) (source : watcher.source = .expression accessor)
    (similar : w.heap.Similar new (start.overData accessor).2.heap (start.overData accessor).1) :
    start.Recollects (held ++ [new, (w.record watcher new).1.getD new]) (w.record watcher new).2 := by
  obtain ⟨shared, sealed, zones⟩ := recollects.sealed
  have holds : w.heap.Holds [new] := zones.common.holds (by simpa using zones.held new (by simp))
  have grows := watcher.comparison.grows_remember w.heap new
  have value := (recollects.recalls watcher mem).comparison
  refine ⟨zones.record mem, ?_⟩
  intro other mem'
  obtain ⟨before, mem', kept⟩ := List.mem_map.1 mem'
  have recalls : before.Recalls start (w.record watcher new).2.heap :=
    keep zones (fun _ => grows.keeps) mem' (recollects.recalls before mem')
  by_cases same : before.id = watcher.id
  · rw [if_pos same] at kept
    cases Scope.eq_of_id_eq mem' mem same
    subst kept
    refine ⟨recalls.comparison, recalls.listens, accessor, source, fun last seen => ?_⟩
    cases seen
    have copied : (watcher.comparison.remember w.heap new).2.Similar
        (watcher.comparison.remember w.heap new).1 w.heap new := by
      rw [value]
      exact (Heap.similar_deepCopy holds).symm
    exact Heap.Similar.trans copied similar
  · rw [if_neg same] at kept
    exact kept ▸ recalls

/-- Operations that leave the scope as it is cannot reach the copies. -/
theorem run (recollects : start.Recollects (held ++ values) w) {op : Op κ σ} {answer : op.Answer}
    (ran : op.run noDigest values w = some (answer, values', w')) (scope : w'.scope = w.scope) :
    start.Recollects (held ++ values') w' := by
  obtain ⟨shared, sealed, zones⟩ := recollects.sealed
  obtain ⟨shared', keeps, after⟩ := zones.run ran
  refine ⟨⟨shared', sealed, after⟩, fun watcher mem => ?_⟩
  rw [scope] at mem
  exact keep zones keeps mem (recollects.recalls watcher mem)

/-- Watchers that have seen nothing yet have nothing to recall. -/
theorem of_closed (closed : w.Closed) (watchers : ∀ watcher ∈ w.scope.watchers,
      watcher.last = none ∧ watcher.comparison = .value ∧ watcher.listener.isSome = true ∧
        ∃ accessor, watcher.source = .expression accessor) : start.Recollects [] w where
  sealed := by
    have root : ∀ {v : Value}, v ∈ w.roots → v.Within (· ∈ w.heap.reached w.roots) :=
      Heap.reached_roots
    refine ⟨(· ∈ w.heap.reached w.roots), fun _ _ => False, {
      common := ⟨closed, fun h mem child inside => Heap.reached_children mem inside⟩
      copies := fun _ => ⟨nofun, nofun⟩
      apart := nofun
      disjoint := nofun
      data := root List.mem_cons_self _ rfl
      kept := fun v mem => root (List.mem_cons_of_mem _ (List.mem_append_left _ mem))
      held := nofun
      last := ?_ }⟩
    intro watcher mem v seen
    cases (watchers watcher mem).1.symm.trans seen
  recalls := by
    intro watcher mem
    obtain ⟨unseen, comparison, listens, accessor, source⟩ := watchers watcher mem
    refine ⟨comparison, listens, accessor, source, fun last seen => ?_⟩
    cases unseen.symm.trans seen

end Recollects

/-- An operation that leaves the set of watchers as it is leaves the scope as it is. -/
theorem Stepped.scope_eq {w w' : World κ σ} (stepped : w.Stepped w')
    (ids : w'.scope.ids = w.scope.ids) : w'.scope = w.scope := by
  cases stepped with
  | changed | remarked => rfl
  | registered cache source listener comparison =>
    have more : (w.scope.add source listener comparison).ids.length = w.scope.ids.length :=
      congrArg List.length ids
    simp [Scope.add, Scope.invalidate, Scope.ids] at more
  | deregistered id =>
    unfold deregister at ids ⊢
    cases found : w.scope.find? id with
    | none => simp only
    | some watcher =>
      simp only [found] at ids
      have still := Scope.mem_ids_of_find? found
      rw [← show (w.scope.remove id).ids = w.scope.ids from ids] at still
      obtain ⟨other, mem, same⟩ := List.mem_map.1 still
      have kept := (List.mem_filter.1 mem).2
      simp [same] at kept

/-- Operations call no listener. -/
theorem Stepped.fires {w w' : World κ σ} (stepped : w.Stepped w') (id : Nat) :
    w'.journal.countP (Event.fires id) = w.journal.countP (Event.fires id) := by
  obtain ⟨events, elapses, operations⟩ := stepped.elapses
  exact elapses.fires_eq fun event mem => Event.fires_of_isOperation (operations event mem) id

end World
end DataBinding
