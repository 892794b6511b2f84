import DataBinding.Proofs.Recollection

/-! Digests of expressions watched by value. The first digest tells every watcher once, and its second
pass finds no change, since every expression gives again what its watcher recalls. A listener may
digest on its own: it then tells the watchers that are still to come, and leaves a mark ahead only
when none is left that has seen nothing. -/
namespace DataBinding

variable {κ σ α : Type}

namespace World

/-- The data and the set of watchers are those of `start`, and every listener has been called as often
as in `total`, less once if its watcher has seen nothing yet. -/
structure Steady (start : World κ σ) (total : Nat → Nat) (held : List Value) (w : World κ σ) :
    Prop where
  recollects : start.Recollects held w
  untouched : start.Untouched w
  config : w.scope.config = start.scope.config
  calls : ∀ id, w.journal.countP (Event.fires id) + w.scope.unseen.count id = total id

/-- Digests that run while fewer than `bound` watchers have seen nothing tell all of them, if the data
and the set of watchers stay as they are meanwhile. -/
def Completes (start : World κ σ) (total : Nat → Nat) (bound : Nat) (nested : Digest κ σ)
    (during : World κ σ → World κ σ → Prop) : Prop :=
  ∀ {held v}, start.Steady total held v → v.scope.unseen.length < bound →
    (∀ u, during v u → start.Untouched u) → ∃ outcome v', nested v = some (outcome, v') ∧
      start.Steady total held v' ∧ v'.scope.unseen = []

namespace Steady

variable {start w w' : World κ σ} {total : Nat → Nat} {held values values' : List Value}
  {client : Client κ σ} {nested : Digest κ σ} {during : World κ σ → World κ σ → Prop}

theorem dropLast {more : List Value} (steady : start.Steady total (held ++ more) w) :
    start.Steady total held w :=
  { steady with recollects := steady.recollects.dropLast }

theorem report (steady : start.Steady total held w) {event : Event}
    (quiet : ∀ id, event.fires id = false) : start.Steady total held (w.report event) where
  recollects := steady.recollects.report event
  untouched := ⟨steady.untouched.data, steady.untouched.graph, steady.untouched.ids⟩
  config := steady.config
  calls := by
    intro id
    rw [show (w.report event).journal = event :: w.journal from rfl,
      List.countP_cons_of_neg (by simp [quiet id])]
    exact steady.calls id

theorem mark (steady : start.Steady total held w) (marker : Option Marker) :
    start.Steady total held (w.mark marker) :=
  ⟨steady.recollects.mark marker,
    ⟨steady.untouched.data, steady.untouched.graph, steady.untouched.ids⟩, steady.config, steady.calls⟩

theorem absorb (steady : start.Steady total held w) (watcher : Nat) (phase : Phase)
    (result : Except Fault Unit) : start.Steady total held (w.absorb watcher phase result) := by
  cases result with
  | ok => exact steady
  | error fault => exact steady.report fun _ => rfl

/-- Asking a watcher. It gives what it recalls, if it has seen anything. -/
theorem asked (steady : start.Steady total held w) (closed : start.Closed) {watcher : Watcher κ}
    (mem : watcher ∈ w.scope.watchers) (client : Client κ σ) (nested : Digest κ σ) :
    ∃ accessor new v, watcher.source = .expression accessor ∧
      evaluate client nested watcher w = some (.ok new, v) ∧
      start.Steady total (held ++ [new]) v ∧ v.scope = w.scope ∧
      v.heap.Similar new (start.overData accessor).2.heap (start.overData accessor).1 ∧
      watcher.isSettled v.heap new = watcher.last.isSome := by
  obtain ⟨accessor, source, -⟩ := (steady.recollects.recalls watcher mem).source
  let asking := w.report (.asked watcher.id)
  have before : start.Steady total held asking := steady.report fun _ => rfl
  have grows := accessor.program.grows_run ⟨some asking.data, none⟩ asking.heap
  have after : start.Steady total (held ++ [(asking.overData accessor).1])
      (asking.overData accessor).2 :=
    ⟨before.recollects.overData accessor, before.untouched.grown grows rfl rfl, before.config,
      before.calls⟩
  have similar := before.untouched.overData_similar closed accessor
  have evaluated : evaluate client nested watcher w =
      some (.ok (asking.overData accessor).1, (asking.overData accessor).2) := by
    unfold evaluate
    rw [source]
  refine ⟨accessor, _, _, source, evaluated, after, rfl, similar, ?_⟩
  obtain ⟨comparison, -, accessor', source', recalls⟩ := after.recollects.recalls watcher mem
  cases source.symm.trans source'
  unfold Watcher.isSettled
  cases seen : watcher.last with
  | none => rfl
  | some last =>
    rw [Option.any_some, comparison]
    exact (Heap.similar_iff_deepEqual _ _).1 (similar.trans (recalls last seen).symm)

/-- Operations that leave the data and the set of watchers alone. -/
theorem perform {bound : Nat} (completes : Completes start total bound nested during) (op : Op κ σ)
    (steady : start.Steady total (held ++ values) w) (few : w.scope.unseen.length < bound)
    (inside : op.startsDigest = true → ∀ u, during w u → start.Untouched u)
    (after : ∀ {answer values' w'}, op.startsDigest = false →
      op.run nested values w = some (answer, values', w') → start.Untouched w') :
    ∃ answer values' w', op.run nested values w = some (answer, values', w') ∧
      start.Steady total (held ++ values') w' ∧
      (w'.scope = w.scope ∨ w'.scope.unseen = []) := by
  cases plain : op.startsDigest with
  | true =>
    cases op with
    | digest =>
      obtain ⟨outcome, w', digested, steady', told⟩ := completes steady few (inside rfl)
      exact ⟨outcome, values, w', by simp only [Op.run, digested]; rfl, steady', .inr told⟩
    | _ => cases plain
  | false =>
    obtain ⟨⟨answer, values', w'⟩, ran⟩ := op.run_answers plain values w
    have same : op.run nested values w = some (answer, values', w') := by
      rcases op.run_eq nested values w with same | rfl
      · rw [same, ran]
      · cases plain
    have untouched := after plain same
    have scope := (Op.run_stepped ran).scope_eq (untouched.ids.trans steady.untouched.ids.symm)
    refine ⟨answer, values', w', same, ⟨steady.recollects.run ran scope, untouched, ?_, ?_⟩,
      .inl scope⟩
    · rw [scope, steady.config]
    · intro id
      rw [(Op.run_stepped ran).fires id, scope, steady.calls id]

theorem few_of_kept {bound : Nat} (few : w.scope.unseen.length < bound)
    (kept : w'.scope = w.scope ∨ w'.scope.unseen = []) : w'.scope.unseen.length < bound := by
  rcases kept with same | none
  · rwa [same]
  · rw [none]
    exact Nat.zero_lt_of_lt few

/-- Scripts that leave the data and the set of watchers alone. -/
theorem script {bound : Nat} (completes : Completes start total bound nested during)
    {script : Script κ σ α} (steady : start.Steady total (held ++ values) w)
    (few : w.scope.unseen.length < bound)
    (moments : ∀ v, script.Meets nested during values w v → start.Untouched v) :
    ∃ exit values' w', script.run nested values w = some (exit, values', w') ∧
      start.Steady total (held ++ values') w' ∧
      (w'.scope = w.scope ∨ w'.scope.unseen = []) := by
  induction script generalizing values w with
  | pure a => exact ⟨.returned a, values, w, rfl, steady, .inl rfl⟩
  | panic p => exact ⟨.panicked p, values, w, rfl, steady, .inl rfl⟩
  | perform op next ih =>
    obtain ⟨answer, values₁, w₁, ran, steady₁, kept₁⟩ := steady.perform completes op few
      (fun starts u meets => by
        cases op with
        | digest => exact moments u (.digest meets)
        | _ => cases starts)
      (fun _ ran => moments _ (.later ran .now))
    obtain ⟨exit, values', w', run, steady', kept'⟩ := ih answer steady₁ (few_of_kept few kept₁)
      fun v meets => moments v (.later ran meets)
    refine ⟨exit, values', w', by simp only [Script.run, ran, run], steady', ?_⟩
    rcases kept' with same | none
    · rw [same]
      exact kept₁
    · exact .inr none

/-- A watcher is told of what it sees first. Its listener is called, which leaves one call less. -/
theorem announce {new : Value} {accessor : Accessor} {watcher : Watcher κ}
    (steady : start.Steady total (held ++ [new]) w) (mem : watcher ∈ w.scope.watchers)
    (unseen : watcher.last = none) (source : watcher.source = .expression accessor)
    (similar : w.heap.Similar new (start.overData accessor).2.heap (start.overData accessor).1) :
    start.Steady total (held ++ [new, (w.announce watcher new).1]) (w.announce watcher new).2 ∧
      (w.announce watcher new).2.scope.unseen = w.scope.unseen.filter (· != watcher.id) := by
  have recorded := steady.recollects.record mem source similar
  have fewer := w.scope.unseen_setLast watcher.id (watcher.comparison.remember w.heap new).1
  obtain ⟨key, listens⟩ := Option.isSome_iff_exists.1 (steady.recollects.recalls watcher mem).listens
  have here : watcher.id ∈ w.scope.unseen := Scope.mem_unseen_iff.2 ⟨watcher, mem, unseen, rfl⟩
  have calls : ∀ id, (Event.fired watcher.id new ((w.record watcher new).1.getD new)
        (w.record watcher new).2.heap :: w.journal).countP (Event.fires id) +
      (w.scope.unseen.filter (· != watcher.id)).count id = total id := by
    intro id
    rw [← steady.calls id]
    by_cases same : watcher.id = id
    · subst same
      have once : w.scope.unseen.count watcher.id = 1 :=
        List.count_eq_one_of_mem w.scope.nodup_unseen here
      have gone : (w.scope.unseen.filter (· != watcher.id)).count watcher.id = 0 :=
        List.count_eq_zero.2 (by simp)
      rw [List.countP_cons_of_pos (by simp [Event.fires]), once, gone]
    · rw [List.countP_cons_of_neg (by simp [Event.fires, same]), List.count_filter]
      simp [Ne.symm same]
  unfold World.announce
  simp only [listens]
  refine ⟨⟨recorded.report _, ?_, steady.config, fun id => ?_⟩, fewer⟩
  · exact steady.untouched.grown (watcher.comparison.grows_remember w.heap new) rfl
      (Scope.ids_setLast _ _ _)
  · rw [← calls id, ← fewer]
    rfl

/-- A watcher is asked for the first time, and its listener is about to run. -/
theorem first (steady : start.Steady total held w) (closed : start.Closed) {watcher : Watcher κ}
    (mem : watcher ∈ w.scope.watchers) (unseen : watcher.last = none) (client : Client κ σ)
    (nested : Digest κ σ) (generation : UInt64) :
    ∃ new v, evaluate client nested watcher w = some (.ok new, v) ∧ v.scope = w.scope ∧
      watcher.isSettled v.heap new = false ∧
      let announced := ((v.report (.answered watcher.id new v.heap)).mark
        (some ⟨watcher.id, generation⟩)).announce watcher new
      start.Steady total (held ++ [new, announced.1]) announced.2 ∧
        announced.2.scope.unseen = w.scope.unseen.filter (· != watcher.id) ∧
        announced.2.scope.unseen.length < w.scope.unseen.length ∧
        announced.2.scope.marker = some ⟨watcher.id, generation⟩ := by
  obtain ⟨accessor, new, v, source, evaluated, asked, scope, similar, settled⟩ :=
    steady.asked closed mem client nested
  have answered : start.Steady total (held ++ [new]) (v.report (.answered watcher.id new v.heap)) :=
    asked.report fun _ => rfl
  have mem' : watcher ∈ v.scope.watchers := scope ▸ mem
  obtain ⟨announced, fewer⟩ := (answered.mark (some ⟨watcher.id, generation⟩)).announce mem' unseen
    source similar
  rw [show ((v.report (.answered watcher.id new v.heap)).mark
    (some ⟨watcher.id, generation⟩)).scope.unseen = w.scope.unseen from scope ▸ rfl] at fewer
  refine ⟨new, v, evaluated, scope, by rw [settled, unseen]; rfl, announced, fewer, ?_,
    (announce_scope _ watcher new).2⟩
  rw [fewer]
  exact List.length_filter_lt_length_iff_exists.2
    ⟨watcher.id, Scope.mem_unseen_iff.2 ⟨watcher, mem, unseen, rfl⟩, by simp⟩

/-- A watcher that has seen something is not changed. -/
theorem visit_seen (closed : start.Closed) (steady : start.Steady total held w) {watcher : Watcher κ}
    (mem : watcher ∈ w.scope.watchers) (seen : watcher.last.isSome = true) (client : Client κ σ)
    (nested : Digest κ σ) (generation : UInt64) :
    ∃ turn w', World.visit client nested generation watcher.id w = some (turn, w') ∧
      start.Steady total held w' ∧ turn ≠ .dirty ∧ w'.scope = w.scope ∧
      (turn = .settled → w.scope.marker = some ⟨watcher.id, w.scope.generation⟩) := by
  have found : w.scope.find? watcher.id = some watcher := Scope.find?_eq_some_iff.2 ⟨mem, rfl⟩
  obtain ⟨_, new, v, _, evaluated, asked, scope, _, settled⟩ :=
    steady.asked closed mem client nested
  have still : v.scope.find? watcher.id = some watcher := by rw [scope, found]
  have answered : start.Steady total (held ++ [new])
      (v.report (.answered watcher.id new v.heap)) := asked.report fun _ => rfl
  have matched : watcher.isSettled (v.report (.answered watcher.id new v.heap)).heap new = true :=
    settled.trans seen
  unfold World.visit
  simp only [found, evaluated, still]
  refine ⟨_, _, if_pos matched, answered.dropLast, ?_, scope, ?_⟩
  · split <;> simp
  · intro stops
    split at stops
    · rename_i marked
      rw [← scope]
      exact marked
    · cases stops

/-- A watcher that has seen nothing is told, and marked, unless its listener digests. -/
theorem visit_unseen (closed : start.Closed) {bound : Nat}
    (completes : Completes start total bound nested during)
    (steady : start.Steady total held w) (few : w.scope.unseen.length ≤ bound)
    (generation : UInt64) {watcher : Watcher κ} (mem : watcher ∈ w.scope.watchers)
    (unseen : watcher.last = none)
    (moments : ∀ v, VisitMeets client nested during generation watcher.id w v → start.Untouched v) :
    ∃ w', World.visit client nested generation watcher.id w = some (.dirty, w') ∧
      start.Steady total held w' ∧ (w'.scope.unseen = [] ∨
        w'.scope.unseen = w.scope.unseen.filter (· != watcher.id) ∧
          w'.scope.marker = some ⟨watcher.id, generation⟩) := by
  have found : w.scope.find? watcher.id = some watcher := Scope.find?_eq_some_iff.2 ⟨mem, rfl⟩
  obtain ⟨new, v, evaluated, scope, changed, announced, fewer, less, marker⟩ :=
    steady.first closed mem unseen client nested generation
  have still : v.scope.find? watcher.id = some watcher := by rw [scope, found]
  have changed' : watcher.isSettled (v.report (.answered watcher.id new v.heap)).heap new = false :=
    changed
  obtain ⟨key, listens⟩ :=
    Option.isSome_iff_exists.1 (steady.recollects.recalls watcher mem).listens
  obtain ⟨exit, values, w₁, ran, after, kept⟩ := announced.script completes (by omega)
    fun u meets => moments u (.told found evaluated still changed listens rfl meets)
  obtain ⟨result, told⟩ := tell_of_run listens ran
  have absorbed : (w₁.absorb watcher.id .listener result).scope = w₁.scope := by
    cases result <;> rfl
  unfold World.visit
  simp only [found, evaluated, still]
  refine ⟨_, by rw [settle_changed nested generation changed', told, Option.map_some],
    after.dropLast.absorb watcher.id .listener result, ?_⟩
  rw [absorbed]
  rcases kept with same | none
  · rw [same]
    exact .inr ⟨fewer, marker⟩
  · exact .inl none

/-- What the turn of a watcher does. -/
theorem visit (closed : start.Closed) {bound : Nat}
    (completes : Completes start total bound nested during)
    (steady : start.Steady total held w) (few : w.scope.unseen.length ≤ bound)
    (generation : UInt64) {id : Nat} (registered : id ∈ start.scope.ids)
    (moments : id ∈ w.scope.unseen → ∀ v, VisitMeets client nested during generation id w v →
      start.Untouched v) :
    ∃ turn w', World.visit client nested generation id w = some (turn, w') ∧
      start.Steady total held w' ∧
      (id ∉ w.scope.unseen ∧ turn ≠ .dirty ∧ w'.scope = w.scope ∧
          (turn = .settled → w.scope.marker = some ⟨id, w.scope.generation⟩) ∨
        id ∈ w.scope.unseen ∧ turn = .dirty ∧ (w'.scope.unseen = [] ∨
          w'.scope.unseen = w.scope.unseen.filter (· != id) ∧
            w'.scope.marker = some ⟨id, generation⟩)) := by
  rw [← steady.untouched.ids] at registered
  obtain ⟨watcher, mem, rfl⟩ := List.mem_map.1 registered
  cases seen : watcher.last with
  | some value =>
    have absent : watcher.id ∉ w.scope.unseen := by
      intro here
      obtain ⟨other, mem', unseen, same⟩ := Scope.mem_unseen_iff.1 here
      rw [Scope.eq_of_id_eq mem' mem same] at unseen
      cases unseen.symm.trans seen
    obtain ⟨turn, w', run, steady', kept⟩ :=
      steady.visit_seen closed mem (by rw [seen]; rfl) client nested generation
    exact ⟨turn, w', run, steady', .inl ⟨absent, kept⟩⟩
  | none =>
    have here : watcher.id ∈ w.scope.unseen := Scope.mem_unseen_iff.2 ⟨watcher, mem, seen, rfl⟩
    obtain ⟨w', run, steady', after⟩ :=
      steady.visit_unseen closed completes few generation mem seen (moments here)
    exact ⟨.dirty, w', run, steady', .inr ⟨here, rfl, after⟩⟩

/-- The visits of a pass. They tell all watchers that have seen nothing. -/
theorem visitAll (closed : start.Closed) {bound : Nat}
    (completes : Completes start total bound nested during)
    (generation : UInt64) {ids : List Nat} (dirty : Bool) (distinct : ids.Nodup)
    (registered : ∀ id ∈ ids, id ∈ start.scope.ids)
    (steady : start.Steady total held w) (few : w.scope.unseen.length ≤ bound)
    (ahead : ∀ id ∈ w.scope.unseen, id ∈ ids)
    (marked : ∀ marker, w.scope.marker = some marker → marker.watcher ∈ ids → w.scope.unseen = [])
    (moments : w.scope.unseen ≠ [] →
      ∀ v, VisitAllMeets client nested during generation ids w v → start.Untouched v) :
    ∃ w', World.visitAll client nested generation ids dirty w =
        some (dirty || !w.scope.unseen.isEmpty, w') ∧
      start.Steady total held w' ∧ w'.scope.unseen = [] := by
  induction ids generalizing w dirty with
  | nil =>
    have none : w.scope.unseen = [] := List.eq_nil_iff_forall_not_mem.2 fun id mem =>
      List.not_mem_nil (ahead id mem)
    exact ⟨w, by simp [World.visitAll, none], steady, none⟩
  | cons id rest ih =>
    obtain ⟨fresh, distinct⟩ := List.nodup_cons.1 distinct
    have inside : ∀ other ∈ rest, other ∈ start.scope.ids := fun other mem =>
      registered other (List.mem_cons_of_mem _ mem)
    obtain ⟨turn, w₁, run, steady₁, ⟨seen, clean, scope, stops⟩ | ⟨unseen, rfl, after⟩⟩ :=
      steady.visit closed completes few generation (registered id List.mem_cons_self) fun mem v meets =>
        moments (List.ne_nil_of_mem mem) v (.visit meets)
    · have ahead₁ : ∀ other ∈ w.scope.unseen, other ∈ rest := fun other mem =>
        (List.mem_cons.1 (ahead other mem)).resolve_left fun same => seen (same ▸ mem)
      cases turn with
      | dirty => exact absurd rfl clean
      | settled =>
        have none := marked _ (stops rfl) List.mem_cons_self
        refine ⟨w₁, ?_, steady₁, scope ▸ none⟩
        simp only [World.visitAll, run, none]
        simp
      | clean =>
        rw [← scope] at few ahead₁ marked moments ⊢
        obtain ⟨w', others, steady', told⟩ := ih dirty distinct inside steady₁ few ahead₁
          (fun marker here mem => marked marker here (List.mem_cons_of_mem _ mem))
          fun some v meets => moments some v (.later run (by simp) meets)
        exact ⟨w', by simp only [World.visitAll, run, others], steady', told⟩
    · have waiting : w.scope.unseen ≠ [] := List.ne_nil_of_mem unseen
      have fewer : w₁.scope.unseen.Sublist (w.scope.unseen.filter (· != id)) := by
        rcases after with none | ⟨same, -⟩
        · rw [none]
          exact List.nil_sublist _
        · rw [same]
      have few₁ : w₁.scope.unseen.length ≤ bound :=
        Nat.le_trans (fewer.trans List.filter_sublist).length_le few
      have ahead₁ : ∀ other ∈ w₁.scope.unseen, other ∈ rest := by
        intro other mem
        obtain ⟨here, apart⟩ := List.mem_filter.1 (fewer.subset mem)
        exact (List.mem_cons.1 (ahead other here)).resolve_left (by simpa using apart)
      have marked₁ : ∀ marker, w₁.scope.marker = some marker → marker.watcher ∈ rest →
          w₁.scope.unseen = [] := by
        intro marker here mem
        rcases after with none | ⟨-, own⟩
        · exact none
        · cases own.symm.trans here
          exact absurd mem fresh
      obtain ⟨w', others, steady', told⟩ := ih true distinct inside steady₁ few₁ ahead₁ marked₁
        fun _ v meets => moments waiting v (.later run (by simp) meets)
      refine ⟨w', ?_, steady', told⟩
      simp only [World.visitAll, run, others]
      simp [waiting]

/-- A pass. It finds changes exactly if some watchers have seen nothing. -/
theorem pass (closed : start.Closed) {depth : Nat}
    (completes : Completes start total depth (digest client depth) (DigestMeets client depth))
    (steady : start.Steady total held w) (few : w.scope.unseen.length ≤ depth)
    (marked : w.scope.marker = none ∨ w.scope.unseen = [])
    (moments : w.scope.unseen ≠ [] → ∀ v, VisitAllMeets client (digest client depth)
      (DigestMeets client depth) w.scope.generation w.scope.ids (w.report .passStarted) v →
        start.Untouched v) :
    ∃ w' events, World.pass client (digest client depth) w =
        some (!w.scope.unseen.isEmpty, w') ∧
      start.Steady total held w' ∧ w'.scope.unseen = [] ∧ w'.journal = events ++ w.journal := by
  have ahead : ∀ id ∈ w.scope.unseen, id ∈ w.scope.ids := by
    intro id mem
    obtain ⟨watcher, inside, -, rfl⟩ := Scope.mem_unseen_iff.1 mem
    exact List.mem_map_of_mem inside
  have distinct : w.scope.ids.Nodup :=
    List.Pairwise.imp (fun less => Nat.ne_of_lt less) w.scope.ascending
  have started : start.Steady total held (w.report .passStarted) := steady.report fun _ => rfl
  obtain ⟨w', run, steady', told⟩ := started.visitAll closed completes w.scope.generation false
    distinct (fun id mem => steady.untouched.ids ▸ mem) few ahead
    (fun marker here _ => marked.resolve_left fun none => by cases none.symm.trans here) moments
  obtain ⟨events, journal⟩ := (stable_suffix w.journal).visitAll
    ((stable_suffix w.journal).digest client depth) [] run (List.suffix_cons _ _)
  exact ⟨w', events, run, steady', told, journal.symm⟩

/-- A digest. After its first pass every watcher has been told, and then the next one finds nothing. -/
theorem digest_of_completes (closed : start.Closed) (ttl : 2 ≤ start.scope.config.ttl) {depth : Nat}
    (completes : Completes start total depth (digest client depth) (DigestMeets client depth))
    (steady : start.Steady total held w) (few : w.scope.unseen.length ≤ depth)
    (moments : w.scope.unseen ≠ [] → ∀ v, DigestMeets client (depth + 1) w v → start.Untouched v) :
    ∃ w' events, World.digest client (depth + 1) w = some (.ok (), w') ∧
      start.Steady total held w' ∧ w'.scope.unseen = [] ∧
      w'.journal = .converged (if w.scope.unseen = [] then 1 else 2) :: (events ++ w.journal) := by
  obtain ⟨more, limit⟩ : ∃ more, max w.scope.config.ttl 1 = more + 2 :=
    ⟨w.scope.config.ttl - 2, by rw [steady.config]; omega⟩
  have digested : World.digest client (depth + 1) w =
      passes client (World.digest client depth) (more + 2) 0 (w.mark none) := by
    rw [← limit]
    rfl
  have met : w.scope.unseen ≠ [] → ∀ v, PassesMeet client (World.digest client depth)
      (DigestMeets client depth) (more + 2) (w.mark none) v → start.Untouched v :=
    fun some v meets => moments some v (by
      unfold DigestMeets
      rwa [limit])
  obtain ⟨w₁, events, first, steady₁, told, journal⟩ := (steady.mark none).pass closed completes few
    (.inl rfl) fun some v meets => met some v (.pass meets)
  have same : (w.mark none).scope.unseen = w.scope.unseen := rfl
  rw [same] at first
  rw [digested, World.passes, first]
  by_cases idle : w.scope.unseen = []
  · rw [idle, if_pos rfl]
    exact ⟨_, events, rfl, steady₁.report fun _ => rfl, told, congrArg _ journal⟩
  · have changed : (!w.scope.unseen.isEmpty) = true := by simpa [List.isEmpty_iff] using idle
    obtain ⟨w₂, later, second, steady₂, told₂, journal₂⟩ := steady₁.pass closed completes
      (by simp [told]) (.inr told) fun fresh => absurd told fresh
    rw [told] at second
    rw [changed, if_neg idle]
    refine ⟨w₂.report (.converged 2), later ++ events, ?_, steady₂.report fun _ => rfl, told₂, ?_⟩
    · simp only [World.passes, second]
      rfl
    · show Event.converged 2 :: w₂.journal = _
      rw [journal₂, journal, List.append_assoc]
      rfl

theorem completes (client : Client κ σ) (closed : start.Closed) (ttl : 2 ≤ start.scope.config.ttl)
    (depth : Nat) : Completes start total depth (World.digest client depth) (DigestMeets client depth) := by
  induction depth with
  | zero => exact fun _ few => absurd few (Nat.not_lt_zero _)
  | succ depth ih =>
    intro held v steady few moments
    obtain ⟨v', events, run, steady', told, -⟩ := digest_of_completes closed ttl ih steady
      (Nat.le_of_lt_succ few) fun _ => moments
    exact ⟨.ok (), v', run, steady', told⟩

theorem digest (client : Client κ σ) (closed : start.Closed) (ttl : 2 ≤ start.scope.config.ttl)
    (depth : Nat) (steady : start.Steady total held w) (few : w.scope.unseen.length ≤ depth)
    (moments : w.scope.unseen ≠ [] → ∀ v, DigestMeets client (depth + 1) w v → start.Untouched v) :
    ∃ w' events, World.digest client (depth + 1) w = some (.ok (), w') ∧
      start.Steady total held w' ∧ w'.scope.unseen = [] ∧
      w'.journal = .converged (if w.scope.unseen = [] then 1 else 2) :: (events ++ w.journal) :=
  digest_of_completes closed ttl (completes client closed ttl depth) steady few moments

/-- A digest that tells all watchers calls the listeners of those that had seen nothing, each once. -/
theorem fires_eq {events : List Event} {passes : Nat} (before : start.Steady total held w)
    (after : start.Steady total held w') (told : w'.scope.unseen = [])
    (journal : w'.journal = .converged passes :: (events ++ w.journal)) (id : Nat) :
    events.countP (Event.fires id) = w.scope.unseen.count id := by
  have calls := after.calls id
  rw [← before.calls id, told, journal, List.countP_cons_of_neg (by simp [Event.fires]),
    List.countP_append, List.count_nil] at calls
  omega

end Steady

/-- The worlds that a client gets to from a first one with digests, and with scripts that leave the data
and the set of watchers at every moment as they are in `start`. -/
inductive ReachesUntouched (client : Client κ σ) (start : World κ σ) : World κ σ → World κ σ → Prop where
  | start {w : World κ σ} : ReachesUntouched client start w w
  | digest {w v v' : World κ σ} {depth : Nat} {outcome : Except Divergence Unit} :
    ReachesUntouched client start w v → digest client (depth + 1) v = some (outcome, v') →
      ReachesUntouched client start w v'
  | run {w v v' : World κ σ} {α : Type} {depth : Nat} {script : Script κ σ α} {exit : Exit α} :
    ReachesUntouched client start w v → v.runScript client (depth + 1) script = some (exit, v') →
      (∀ u, script.Meets (World.digest client (depth + 1)) (DigestMeets client (depth + 1)) [] v u →
        start.Untouched u) → ReachesUntouched client start w v'

/-- Worlds in which every watcher has been told stay so. -/
theorem ReachesUntouched.steady {client : Client κ σ} {start w v : World κ σ} {total : Nat → Nat}
    (closed : start.Closed) (ttl : 2 ≤ start.scope.config.ttl)
    (reaches : ReachesUntouched client start w v) (steady : start.Steady total [] w)
    (told : w.scope.unseen = []) : start.Steady total [] v ∧ v.scope.unseen = [] := by
  induction reaches with
  | start => exact ⟨steady, told⟩
  | @digest v v' depth outcome _ run ih =>
    obtain ⟨steady₁, told₁⟩ := ih
    obtain ⟨v₁, _, run₁, steady', told', -⟩ := steady₁.digest client closed ttl depth
      (by simp [told₁]) fun fresh => absurd told₁ fresh
    cases run.symm.trans run₁
    exact ⟨steady', told'⟩
  | @run v v' _ depth script exit _ run moments ih =>
    obtain ⟨steady₁, told₁⟩ := ih
    have alone : start.Steady total ([] ++ []) v := steady₁
    obtain ⟨exit', values, v₁, ran, steady', kept⟩ := alone.script
      (Steady.completes client closed ttl (depth + 1)) (by simp [told₁]) moments
    unfold runScript at run
    rw [ran] at run
    cases run
    exact ⟨steady'.dropLast, kept.elim (fun same => same ▸ told₁) fun none => none⟩

end World
end DataBinding
