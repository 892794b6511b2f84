import DataBinding.Proofs.History
import DataBinding.Proofs.LeavingOut

/-! What is touched by watchers that only read and listeners that only set fields of the data: these
fields, and what the watcher itself saw last. Whatever the rest of the heap holds stays as it is, and
with it the copies that other watchers keep. -/
namespace DataBinding

variable {κ σ α : Type}

/-- Operations that change no container but the data, and none of its fields but the given ones. -/
def Op.setsOnly (keys : String → Bool) : Op κ σ → Bool
  | .change (.set key _) => keys key
  | .change (.keep ..) => true
  | .change _ => false
  | .client _ => true
  | op => op.isReading

theorem Heap.member_of_cell {heap heap' : Heap} {h : Handle} (same : heap'.cell h = heap.cell h)
    (key : String) : heap'.member (.container h) key = heap.member (.container h) key := by
  simp only [Heap.member, same]

theorem Heap.inside_of_members {heap : Heap} {h : Handle} {members : Members Value}
    (here : heap.members? h = some members) : h.index < heap.size := by
  by_contra outside
  have absent : heap.cells[h.index]? = none := Array.getElem?_eq_none (Nat.not_lt.1 outside)
  simp [Heap.members?, Heap.cell, absent] at here

theorem Heap.member_insert_of_ne (heap : Heap) (h : Handle) {key other : String} (v : Value)
    (differs : other ≠ key) :
    (heap.insert h key v).member (.container h) other = heap.member (.container h) other := by
  unfold Heap.insert Heap.modifyMembers
  cases here : heap.members? h with
  | none => rfl
  | some members =>
    have before : heap.cell h = .object members := by
      unfold Heap.members? at here
      split at here
      · cases here
      · rwa [← Option.some.inj here]
    simp only [Heap.member, Heap.cell_replace heap h h _ (inside_of_members here), if_true, before,
      Members.get?_insert, if_neg differs]

theorem Heap.keeps_insert (heap : Heap) (h : Handle) (key : String) (v : Value) :
    heap.Keeps (· ≠ h) (heap.insert h key v) := by
  unfold Heap.insert Heap.modifyMembers
  cases here : heap.members? h with
  | none => exact .refl _ _
  | some members =>
    refine ⟨Nat.le_of_eq (Heap.size_replace _ _ _).symm, fun {other} _ differs => ?_⟩
    rw [Heap.cell_replace heap h other _ (inside_of_members here), if_neg differs]

/-- The same watcher, but for what it saw last. -/
structure Watcher.Akin (a b : Watcher κ) : Prop where
  id : a.id = b.id
  source : a.source = b.source
  listener : a.listener = b.listener
  comparison : a.comparison = b.comparison

theorem Watcher.Akin.refl (watcher : Watcher κ) : watcher.Akin watcher := ⟨rfl, rfl, rfl, rfl⟩

theorem Watcher.Akin.trans {a b c : Watcher κ} (first : a.Akin b) (second : b.Akin c) : a.Akin c :=
  ⟨first.id.trans second.id, first.source.trans second.source, first.listener.trans second.listener,
    first.comparison.trans second.comparison⟩

/-- The watcher after it was told of a value. -/
def Watcher.keeping (watcher : Watcher κ) (heap : Heap) (new : Value) : Watcher κ :=
  { watcher with last := some (watcher.comparison.remember heap new).1 }

theorem Watcher.akin_keeping (watcher : Watcher κ) (heap : Heap) (new : Value) :
    watcher.Akin (watcher.keeping heap new) := ⟨rfl, rfl, rfl, rfl⟩

variable {keys : String → Bool} {who : Nat → Prop} {w w' w'' : World κ σ}

/-! Writing fields. -/

namespace World

/-- Between two worlds nothing was changed that can be reached but the given fields of the data. -/
structure Writes (keys : String → Bool) (w w' : World κ σ) : Prop where
  heap : w.heap.Keeps (· ≠ w.scope.data) w'.heap
  fields : ∀ key, keys key = false → w'.get key = w.get key
  scope : w'.scope = w.scope

namespace Writes

theorem of_same (heap : w'.heap = w.heap) (scope : w'.scope = w.scope) : w.Writes keys w' :=
  ⟨heap ▸ .refl _ _, fun key _ => by simp only [World.get, World.data, heap, scope], scope⟩

theorem trans (first : w.Writes keys w') (second : w'.Writes keys w'') : w.Writes keys w'' where
  heap := by
    have later := second.heap
    rw [first.scope] at later
    exact first.heap.trans later
  fields := fun key other => (second.fields key other).trans (first.fields key other)
  scope := second.scope.trans first.scope

theorem of_grown (inside : w.scope.data.index < w.heap.size) (grown : w.Grown w') :
    w.Writes keys w' := by
  refine ⟨grown.heap.keeps, fun key _ => ?_, grown.scope⟩
  simp only [World.get, World.data, grown.scope]
  exact Heap.member_of_cell (grown.heap.cell inside trivial) key

theorem inside (writes : w.Writes keys w') (inside : w.scope.data.index < w.heap.size) :
    w'.scope.data.index < w'.heap.size := by
  rw [writes.scope]
  exact Nat.lt_of_lt_of_le inside writes.heap.size

end Writes

end World

theorem Op.writes {op : Op κ σ} {values values' : List Value} {answer : op.Answer}
    (sets : Op.setsOnly keys op = true) (inside : w.scope.data.index < w.heap.size)
    (run : op.run noDigest values w = some (answer, values', w')) : w.Writes keys w' := by
  cases op with
  | change op =>
    cases op with
    | set key v =>
      cases run
      refine ⟨w.heap.keeps_insert _ _ _, fun other left => ?_, rfl⟩
      refine w.heap.member_insert_of_ne _ _ ?_
      rintro rfl
      exact Bool.false_ne_true (left.symm.trans sets)
    | keep name v =>
      cases run
      exact .of_same rfl rfl
    | _ => cases sets
  | client f =>
    cases run
    exact .of_same rfl rfl
  | obtain | look | evalExpr | status | inspect | note | reportDivergence =>
    exact .of_grown inside (Op.run_grown rfl run)
  | _ => cases sets

/-- A script that only sets fields ends, and it changes nothing else. -/
theorem Script.Uses.writes {script : Script κ σ α} (uses : script.Uses (Op.setsOnly keys))
    (values : List Value) (inside : w.scope.data.index < w.heap.size) : ∃ exit values' w',
      script.run noDigest values w = some (exit, values', w') ∧ w.Writes keys w' := by
  obtain ⟨⟨exit, values', w'⟩, run⟩ := (uses.startsNoDigest_of rfl).run values w
  refine ⟨exit, values', w', run, ?_⟩
  refine uses.run_induction (I := fun w' => w.Writes keys w') ?_ run (.of_same rfl rfl)
  intro op answer values₁ w₁ values₂ w₂ sets performed writes
  exact writes.trans (Op.writes sets (writes.inside inside) performed)

/-! Telling a watcher. -/

namespace World

/-- Between two worlds nothing was changed that can be reached but the given fields of the data, the
last values of the given watchers and the marker. -/
structure Touches (keys : String → Bool) (who : Nat → Prop) (w w' : World κ σ) : Prop where
  heap : w.heap.Keeps (· ≠ w.scope.data) w'.heap
  fields : ∀ key, keys key = false → w'.get key = w.get key
  data : w'.scope.data = w.scope.data
  ids : w'.scope.ids = w.scope.ids
  akin : ∀ id watcher', w'.scope.find? id = some watcher' →
    ∃ watcher, w.scope.find? id = some watcher ∧ watcher.Akin watcher'
  others : ∀ id, ¬ who id → w'.scope.find? id = w.scope.find? id

namespace Touches

theorem of_writes (writes : w.Writes keys w') : w.Touches keys who w' where
  heap := writes.heap
  fields := writes.fields
  data := by rw [writes.scope]
  ids := by rw [writes.scope]
  akin := fun id watcher found => ⟨watcher, writes.scope ▸ found, .refl watcher⟩
  others := fun id _ => by rw [writes.scope]

theorem mark (w : World κ σ) (marker : Option Marker) : w.Touches keys who (w.mark marker) :=
  ⟨.refl _ _, fun _ _ => rfl, rfl, rfl, fun _ watcher found => ⟨watcher, found, .refl watcher⟩,
    fun _ _ => rfl⟩

theorem trans (first : w.Touches keys who w') (second : w'.Touches keys who w'') :
    w.Touches keys who w'' where
  heap := first.heap.trans (first.data ▸ second.heap)
  fields := fun key other => (second.fields key other).trans (first.fields key other)
  data := second.data.trans first.data
  ids := second.ids.trans first.ids
  akin := by
    intro id watcher'' found
    obtain ⟨watcher', found', akin'⟩ := second.akin id watcher'' found
    obtain ⟨watcher, found, akin⟩ := first.akin id watcher' found'
    exact ⟨watcher, found, akin.trans akin'⟩
  others := fun id other => (second.others id other).trans (first.others id other)

theorem of_setLast {id : Nat} {v : Value} (inside : w.scope.data.index < w.heap.size)
    (heap : w.heap.Grows w'.heap) (scope : w'.scope = w.scope.setLast id v) :
    w.Touches keys (· = id) w' where
  heap := heap.keeps
  fields := by
    intro key _
    simp only [World.get, World.data, scope]
    exact Heap.member_of_cell (heap.cell inside trivial) key
  data := by rw [scope]; rfl
  ids := by rw [scope, Scope.ids_setLast]
  akin := by
    intro other watcher' found
    rw [scope] at found
    by_cases same : other = id
    · subst same
      rw [Scope.find?_setLast, Option.map_eq_some_iff] at found
      obtain ⟨watcher, before, rfl⟩ := found
      exact ⟨watcher, before, rfl, rfl, rfl, rfl⟩
    · rw [Scope.find?_setLast_of_ne same] at found
      exact ⟨watcher', found, .refl watcher'⟩
  others := by
    intro other differs
    rw [scope, Scope.find?_setLast_of_ne differs]

theorem inside (touches : w.Touches keys who w') (inside : w.scope.data.index < w.heap.size) :
    w'.scope.data.index < w'.heap.size := by
  rw [touches.data]
  exact Nat.lt_of_lt_of_le inside touches.heap.size

end Touches

/-- An announced value is kept as the last one that the watcher saw. -/
theorem announce_world (w : World κ σ) (watcher : Watcher κ) (new : Value) :
    (w.announce watcher new).2.heap = (watcher.comparison.remember w.heap new).2 ∧
    (w.announce watcher new).2.scope =
      w.scope.setLast watcher.id (watcher.comparison.remember w.heap new).1 := by
  unfold announce
  cases watcher.listener <;> exact ⟨rfl, rfl⟩

/-- A listener that only sets fields comes to an end. -/
theorem tell_writes {client : Client κ σ} (nested : Digest κ σ) {watcher : Watcher κ}
    (sets : ∀ key, watcher.listener = some key → ∀ new old,
      (client.listen key new old).Uses (Op.setsOnly keys)) (new : Value)
    (inside : (w.announce watcher new).2.scope.data.index < (w.announce watcher new).2.heap.size) :
    ∃ w', tell client nested watcher new w = some w' ∧ (w.announce watcher new).2.Writes keys w' := by
  cases listens : watcher.listener with
  | none =>
    unfold tell react announce
    rw [listens]
    exact ⟨_, rfl, .of_same rfl rfl⟩
  | some key =>
    obtain ⟨exit, values, w₁, ran, writes⟩ := (sets key listens ⟨0⟩ ⟨1⟩).writes
      [new, (w.announce watcher new).1] inside
    obtain ⟨result, told⟩ := tell_of_run listens (Script.run_eq nested ran)
    refine ⟨_, told, writes.trans ?_⟩
    cases result with
    | ok => exact .of_same rfl rfl
    | error => exact .of_same rfl rfl

/-- A watcher that is told of a value keeps it, and its listener sets fields. Nothing else changes. -/
theorem tell_touches {client : Client κ σ} (nested : Digest κ σ) {watcher : Watcher κ}
    (found : w.scope.find? watcher.id = some watcher)
    (sets : ∀ key, watcher.listener = some key → ∀ new old,
      (client.listen key new old).Uses (Op.setsOnly keys)) (new : Value)
    (inside : w.scope.data.index < w.heap.size) : ∃ w', tell client nested watcher new w = some w' ∧
      w.Touches keys (· = watcher.id) w' ∧ w'.scope.marker = w.scope.marker ∧
      w'.scope.find? watcher.id = some (watcher.keeping w.heap new) ∧
      (watcher.comparison.remember w.heap new).2.Keeps (· ≠ w.scope.data) w'.heap := by
  obtain ⟨heap, scope⟩ := w.announce_world watcher new
  have announced : w.Touches keys (· = watcher.id) (w.announce watcher new).2 :=
    .of_setLast inside (heap ▸ Comparison.grows_remember _ _ _) scope
  obtain ⟨w', told, writes⟩ := tell_writes nested sets new (announced.inside inside)
  refine ⟨w', told, announced.trans (.of_writes writes), ?_, ?_, ?_⟩
  · rw [writes.scope, scope]
    rfl
  · rw [writes.scope, scope, Scope.find?_setLast, found]
    rfl
  · rw [← heap, ← announced.data]
    exact writes.heap

end World

/-! Copies. -/

/-- What the watcher keeps by value is a copy, apart from the data. -/
def Watcher.DetachedFrom (watcher : Watcher κ) (data : Handle) (heap : Heap) : Prop :=
  watcher.comparison = .value → ∀ v, watcher.last = some v →
    ∃ zone, heap.Zone zone ∧ v.Within zone ∧ ¬ zone data

namespace Watcher.DetachedFrom

variable {watcher : Watcher κ} {data : Handle} {heap heap' : Heap}

theorem keeps (detached : watcher.DetachedFrom data heap) (keeps : heap.Keeps (· ≠ data) heap') :
    watcher.DetachedFrom data heap' := by
  intro comparison v seen
  obtain ⟨zone, here, within, apart⟩ := detached comparison v seen
  refine ⟨zone, here.keeps (keeps.weaken ?_), within, apart⟩
  rintro _ mem rfl
  exact apart mem

/-- Whatever becomes of the data, the copy stays as it is. -/
theorem similar (detached : watcher.DetachedFrom data heap) (keeps : heap.Keeps (· ≠ data) heap')
    (comparison : watcher.comparison = .value) {v : Value} (seen : watcher.last = some v) :
    heap.Similar v heap' v := by
  obtain ⟨zone, here, within, apart⟩ := detached comparison v seen
  refine here.similar (keeps.weaken ?_) within
  rintro _ mem rfl
  exact apart mem

theorem keeping (watcher : Watcher κ) {new : Value} (holds : heap.Holds [new])
    (inside : data.index < heap.size) : (watcher.keeping heap new).DetachedFrom data
      (watcher.comparison.remember heap new).2 := by
  rintro (comparison : watcher.comparison = .value) v ⟨rfl⟩
  rw [comparison]
  refine ⟨_, (Heap.alike_deepCopy holds).zone_right,
    (heap.value_alike_deepCopy new).within_right, ?_⟩
  rintro ⟨a, _, rfl⟩
  exact Nat.not_lt.2 (Nat.le_add_right _ _) inside

end Watcher.DetachedFrom

/-- No watcher keeps the data itself by value. -/
def World.Detached (w : World κ σ) : Prop :=
  ∀ watcher ∈ w.scope.watchers, watcher.DetachedFrom w.scope.data w.heap

theorem World.Zones.closed {held : List Value} {shared : Handle → Prop} {sealed : Nat → Handle → Prop}
    (zones : w.Zones held shared sealed) : w.Closed := by
  have here : w.heap.Zone fun h => shared h ∨ ∃ id, sealed id h := {
    inside := fun h mem => mem.elim (zones.common.inside h) fun ⟨id, own⟩ =>
      (zones.copies id).inside h own
    closed := by
      rintro h (mem | ⟨id, own⟩) child inside a same
      · exact .inl (zones.common.closed h mem child inside a same)
      · exact .inr ⟨id, (zones.copies id).closed h own child inside a same⟩ }
  apply here.holds
  intro v mem h same
  rcases List.mem_cons.1 mem with rfl | mem
  · cases same
    exact .inl zones.data
  · rcases List.mem_append.1 mem with mem | mem
    · exact .inl (zones.kept v mem h same)
    · obtain ⟨watcher, mem, seen⟩ := List.mem_filterMap.1 mem
      have place := zones.last watcher mem v seen h same
      cases comparison : watcher.comparison with
      | reference => exact .inl (by simpa [Watcher.place, comparison] using place)
      | value => exact .inr ⟨watcher.id, by simpa [Watcher.place, comparison] using place⟩

/-- Whatever a client does, the worlds that it gets to are closed, and copies are out of its reach. -/
theorem World.Reachable.closed (reachable : w.Reachable) : w.Closed := by
  obtain ⟨_, _, _, zones⟩ := reachable.recorded
  exact zones.closed

theorem World.Reachable.detached (reachable : w.Reachable) : w.Detached := by
  obtain ⟨_, shared, sealed, zones⟩ := reachable.recorded
  intro watcher mem comparison v seen
  have place := zones.last watcher mem v seen
  simp only [Watcher.place, comparison] at place
  exact ⟨_, zones.copies watcher.id, place, fun inside => zones.apart _ _ inside zones.data⟩

end DataBinding
