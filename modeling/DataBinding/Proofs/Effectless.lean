import DataBinding.Proofs.Bindings
import DataBinding.Proofs.Reachability

/-! Callables without effects: watch callables that only read and give what the data determines, and
listeners that change nothing but what the client keeps for itself. A visit then tells its watcher at
most, and whether a watcher is settled is the same until it is told. -/
namespace DataBinding

variable {κ σ α : Type} {w w' w'' : World κ σ}

namespace World

/-- Between two worlds the watchers `asked` were asked and the listeners of `fired` were called. -/
structure Logs (asked fired : List Nat) (w w' : World κ σ) : Prop where
  askings : w'.askings = w.askings ++ asked
  firings : w'.firings = w.firings ++ fired

namespace Logs

variable {asked fired asked' fired' : List Nat}

theorem of_journal (same : w'.journal = w.journal) : Logs [] [] w w' :=
  ⟨by simp [World.askings, same], by simp [World.firings, same]⟩

theorem refl (w : World κ σ) : Logs [] [] w w := of_journal rfl

theorem trans (first : Logs asked fired w w') (second : Logs asked' fired' w' w'') :
    Logs (asked ++ asked') (fired ++ fired') w w'' :=
  ⟨by rw [second.askings, first.askings, List.append_assoc],
    by rw [second.firings, first.firings, List.append_assoc]⟩

theorem quiet (first : Logs asked fired w w') (second : Logs [] [] w' w'') :
    Logs asked fired w w'' := by
  simpa using first.trans second

theorem report (w : World κ σ) (event : Event) (asks : event.askedWatcher?.toList = asked)
    (fires : event.firedWatcher?.toList = fired) : Logs asked fired w (w.report event) := by
  subst asks fires
  constructor
  · simp only [World.askings, World.report, List.reverse_cons, List.filterMap_append]
    cases event <;> rfl
  · simp only [World.firings, World.report, List.reverse_cons, List.filterMap_append]
    cases event <;> rfl

/-- An operation asks no watcher and calls no listener. -/
theorem of_operation {event : Event} (journal : w'.journal = event :: w.journal)
    (operation : event.isOperation = true) : Logs [] [] w w' := by
  have quiet : event.askedWatcher? = none ∧ event.firedWatcher? = none := by
    cases event <;> first | exact ⟨rfl, rfl⟩ | cases operation
  constructor
  · simp [World.askings, journal, quiet.1]
  · simp [World.firings, journal, quiet.2]

end Logs

theorem Stepped.logs (stepped : w.Stepped w') : Logs [] [] w w' := by
  cases stepped with
  | changed => exact .of_journal rfl
  | @remarked event remark =>
    refine .of_operation rfl ?_
    cases event <;> first | rfl | cases remark
  | registered => exact .of_operation rfl rfl
  | deregistered id =>
    unfold deregister
    split
    · exact .of_operation rfl rfl
    · exact .refl w

end World

theorem Script.run_logs {script : Script κ σ α} {values values' : List Value} {exit : Exit α}
    (run : script.run noDigest values w = some (exit, values', w')) : World.Logs [] [] w w' := by
  refine Script.run_induction (I := fun _ after => World.Logs [] [] w after) ?_
    (fun none _ => by cases none) run (.refl w)
  intro op answer values₁ w₁ values₂ w₂ step logs
  exact logs.trans (Op.run_stepped step).logs

namespace World

variable {client : Client κ σ} {nested : Digest κ σ} {watcher : Watcher κ} {new : Value}

theorem evaluate_logs {answer : Except Fault Value}
    (evaluated : evaluate client noDigest watcher w = some (answer, w')) :
    Logs [watcher.id] [] w w' := by
  have asked : Logs [watcher.id] [] w (w.report (.asked watcher.id)) := .report w _ rfl rfl
  unfold evaluate at evaluated
  cases source : watcher.source with
  | expression accessor =>
    simp only [source] at evaluated
    cases evaluated
    exact asked.trans (.of_journal rfl)
  | callable key =>
    simp only [source] at evaluated
    cases ran : (client.watch key).run noDigest [] (w.report (.asked watcher.id)) with
    | none =>
      rw [ran] at evaluated
      cases evaluated
    | some result =>
      obtain ⟨exit, values, w₁⟩ := result
      have logs := asked.trans (Script.run_logs ran)
      rw [ran] at evaluated
      rcases exit with (message | ref) | panic <;> cases evaluated <;> exact logs

end World

/-! The data. -/

namespace World

/-- The data object is the same, and every container that it reaches holds the same. -/
structure SameData (u v : World κ σ) : Prop where
  data : v.scope.data = u.scope.data
  cells : ∀ h, u.heap.Reaches u.data h → v.heap.cell h = u.heap.cell h

namespace SameData

variable {u v : World κ σ} {h : Handle}

theorem reaches (same : u.SameData v) (reaches : v.heap.Reaches v.data h) :
    u.heap.Reaches u.data h := by
  apply reaches.least
  · rintro c root
    exact .root (by rw [← root, World.data, World.data, same.data])
  · intro c reached child mem
    rw [Heap.children, same.cells c reached] at mem
    exact reached.within_of_mem mem

theorem of_common (first : w.SameData u) (second : w.SameData v) : u.SameData v where
  data := second.data.trans first.data.symm
  cells := by
    intro h reached
    have known := first.reaches reached
    exact (second.cells h known).trans (first.cells h known).symm

end SameData

end World

/-- Operations that change nothing but what the client keeps for itself. -/
def Op.isPrivate (op : Op κ σ) : Bool := Op.setsOnly (fun _ => false) op

/-- The watcher's source only reads and, at the given moments, its outcome depends only on the data,
up to what the comparison tells apart. The listener changes nothing but what the client keeps for
itself. Both may fail. -/
structure Watcher.Effectless (client : Client κ σ) (moment : World κ σ → Prop) (watcher : Watcher κ) :
    Prop where
  reads : watcher.OnlyReads client
  determined : ∀ {u v u' v' : World κ σ} {answer answer' : Except Fault Value}, moment u → moment v →
    u.SameData v → World.evaluate client noDigest watcher u = some (answer, u') →
      World.evaluate client noDigest watcher v = some (answer', v') →
        watcher.comparison.SameOutcome u'.heap v'.heap answer answer'
  listens : ∀ key, watcher.listener = some key → ∀ new old,
    (client.listen key new old).Uses Op.isPrivate

namespace Watcher.Effectless

variable {client : Client κ σ} {moment : World κ σ → Prop} {watcher a b : Watcher κ}

theorem of_akin (akin : a.Akin b) (effectless : a.Effectless client moment) :
    b.Effectless client moment where
  reads := by
    unfold Watcher.OnlyReads
    rw [← akin.source]
    exact effectless.reads
  determined := by
    intro u v u' v' answer answer' now later same evaluated evaluated'
    rw [← World.evaluate_akin akin] at evaluated evaluated'
    rw [← akin.comparison]
    exact effectless.determined now later same evaluated evaluated'
  listens := by
    rw [← akin.listener]
    exact effectless.listens

/-- Where the data is the same as in some world, such a watcher is bound to no field. -/
theorem governs (effectless : watcher.Effectless client moment) (w : World κ σ) :
    Bindings.Governs ⟨fun _ _ => true, fun _ _ => false⟩ client
      (fun v => moment v ∧ w.SameData v) watcher where
  sets := effectless.listens
  determined := fun now later _ evaluated evaluated' =>
    effectless.determined now.1 later.1 (now.2.of_common later.2) evaluated evaluated'

end Watcher.Effectless

theorem Op.run_private {op : Op κ σ} {values values' : List Value} {answer : op.Answer}
    (isPrivate : op.isPrivate = true) (run : op.run noDigest values w = some (answer, values', w')) :
    w.heap.Grows w'.heap ∧ w'.scope = w.scope := by
  cases op with
  | change op =>
    cases op with
    | keep name v =>
      cases run
      exact ⟨.refl _ _, rfl⟩
    | _ => cases isPrivate
  | client f =>
    cases run
    exact ⟨.refl _ _, rfl⟩
  | obtain | look | evalExpr | status | inspect | note | reportDivergence =>
    have grown := Op.run_grown rfl run
    exact ⟨grown.heap, grown.scope⟩
  | _ => cases isPrivate

theorem Script.Uses.run_private {script : Script κ σ α} (uses : script.Uses Op.isPrivate)
    {values values' : List Value} {exit : Exit α}
    (run : script.run noDigest values w = some (exit, values', w')) :
    w.heap.Grows w'.heap ∧ w'.scope = w.scope := by
  refine uses.run_induction (I := fun after => w.heap.Grows after.heap ∧ after.scope = w.scope) ?_
    run ⟨.refl _ _, rfl⟩
  rintro op answer values₁ w₁ values₂ w₂ isPrivate step ⟨grows, scope⟩
  obtain ⟨grows', scope'⟩ := Op.run_private isPrivate step
  exact ⟨grows.trans grows', scope'.trans scope⟩

namespace World

/-- Between two worlds nothing was changed that was there, but the last values of the given watchers and
the marker. -/
structure Tells (who : Nat → Prop) (w w' : World κ σ) : Prop
    extends Touches (fun _ => false) who w w' where
  grows : w.heap.Grows w'.heap
  generation : w'.scope.generation = w.scope.generation

namespace Tells

variable {who who' : Nat → Prop}

theorem refl (w : World κ σ) : w.Tells who w := ⟨.of_writes (.of_same rfl rfl), .refl _ _, rfl⟩

theorem trans (first : w.Tells who w') (second : w'.Tells who w'') : w.Tells who w'' where
  toTouches := first.toTouches.trans second.toTouches
  grows := first.grows.trans second.grows
  generation := second.generation.trans first.generation

theorem weaken (tells : w.Tells who w') (more : ∀ id, who id → who' id) : w.Tells who' w' :=
  { tells with others := fun id other => tells.others id fun told => other (more id told) }

theorem sameData (tells : w.Tells who w') (closed : w.Closed) : w.SameData w' where
  data := tells.data
  cells := by
    intro h reaches
    have inside : h ∈ w.heap.reached w.roots := by
      refine reaches.least (Heap.reached_roots List.mem_cons_self) fun c reached child mem => ?_
      exact Heap.reached_children reached mem
    exact tells.grows.cell (closed h inside) trivial

end Tells

variable {client : Client κ σ} {nested : Digest κ σ} {watcher : Watcher κ} {new : Value}

theorem Reads.tells {who : Nat → Prop} (closed : w.Closed) (reading : w.Reads w') :
    w.Tells who w' where
  toTouches := .of_writes (.of_grown closed.inside reading.toGrown)
  grows := reading.heap
  generation := by rw [reading.scope]

/-- The watchers whose listeners are called when each of the given ones is told of a value. -/
def listening (watchers : List (Watcher κ)) : List Nat :=
  (watchers.filter fun watcher => watcher.listener.isSome).map Watcher.id

theorem listening_append (first second : List (Watcher κ)) :
    listening (first ++ second) = listening first ++ listening second := by
  simp [listening]

theorem announce_logs (w : World κ σ) (watcher : Watcher κ) (new : Value) :
    Logs [] (listening [watcher]) w (w.announce watcher new).2 := by
  have recorded : Logs [] [] w (w.record watcher new).2 := .of_journal rfl
  unfold announce
  cases listens : watcher.listener with
  | none => simpa [listening, listens] using recorded
  | some key =>
    have told : Logs [] [watcher.id] (w.record watcher new).2 ((w.record watcher new).2.report
        (.fired watcher.id new ((w.record watcher new).1.getD new) (w.record watcher new).2.heap)) :=
      .report _ _ rfl rfl
    simpa [listening, listens] using recorded.trans told

/-- To tell a watcher of a value calls its listener, and what was there stays. -/
theorem tell_logs (listens : ∀ key, watcher.listener = some key → ∀ new old,
      (client.listen key new old).Uses Op.isPrivate)
    (run : tell client nested watcher new w = some w') :
    w.heap.Grows w'.heap ∧ w'.scope.generation = w.scope.generation ∧
      Logs [] (listening [watcher]) w w' := by
  obtain ⟨heap, scope⟩ := w.announce_world watcher new
  have grows : w.heap.Grows (w.announce watcher new).2.heap :=
    heap ▸ Comparison.grows_remember _ _ _
  have generation : (w.announce watcher new).2.scope.generation = w.scope.generation := by
    rw [scope]
    rfl
  have logged := announce_logs w watcher new
  cases heard : watcher.listener with
  | none =>
    have told : tell client nested watcher new w = some (w.announce watcher new).2 := by
      unfold tell react announce
      rw [heard]
      rfl
    cases run.symm.trans told
    exact ⟨grows, generation, logged⟩
  | some key =>
    have uses := listens key heard ⟨0⟩ ⟨1⟩
    obtain ⟨⟨exit, values, w₁⟩, ran⟩ := (uses.startsNoDigest_of rfl).run
      [new, (w.announce watcher new).1] (w.announce watcher new).2
    obtain ⟨result, told⟩ := tell_of_run heard (Script.run_eq nested ran)
    obtain ⟨grows', scope'⟩ := uses.run_private ran
    have listened := logged.quiet (Script.run_logs ran)
    rw [← scope'] at generation
    cases run.symm.trans told
    cases result with
    | ok => exact ⟨grows.trans grows', generation, listened⟩
    | error fault =>
      exact ⟨grows.trans grows', generation, listened.quiet (.report w₁ _ rfl rfl)⟩

end World

/-! What the data determines. -/

theorem Comparison.equal_iff_of_matches {comparison : Comparison} {heap heap' : Heap}
    {new new' last : Value} (matched : comparison.Matches heap new (new', heap'))
    (kept : heap.Similar last heap' last) :
    comparison.equal heap new last = true ↔ comparison.equal heap' new' last = true := by
  cases comparison with
  | reference =>
    constructor
    · intro same
      exact Value.identical_trans (Value.identical_symm matched) same
    · intro same
      exact Value.identical_trans matched same
  | value =>
    show heap.deepEqual new last = true ↔ heap'.deepEqual new' last = true
    rw [← Heap.similar_iff_deepEqual, ← Heap.similar_iff_deepEqual]
    constructor
    · intro same
      exact (matched.symm.trans same).trans kept
    · intro same
      exact (matched.trans same).trans kept.symm

namespace World

variable {client : Client κ σ} {nested : Digest κ σ} {moment : World κ σ → Prop} {u v : World κ σ}
  {watcher a b : Watcher κ} {id : Nat} {who : Nat → Prop}

theorem settled_iff_of_evaluate {answer : Except Fault Value}
    (evaluated : evaluate client noDigest watcher w = some (answer, w')) :
    w.Settled client watcher ↔ ∀ new, answer = .ok new → watcher.isSettled w'.heap new = true := by
  constructor
  · rintro ⟨_, _, again, matched⟩
    cases evaluated.symm.trans again
    exact matched
  · intro matched
    exact ⟨answer, w', evaluated, matched⟩

theorem settledAt_iff_of_find? (found : w.scope.find? id = some watcher) :
    w.SettledAt client id ↔ w.Settled client watcher := by
  obtain ⟨mem, rfl⟩ := Scope.find?_eq_some_iff.1 found
  exact ⟨fun settled => settled watcher mem rfl, settledAt_of_settled mem⟩

/-- The watcher's source gives a value. -/
def Answers (client : Client κ σ) (w : World κ σ) (watcher : Watcher κ) : Prop :=
  ∃ new w', evaluate client noDigest watcher w = some (.ok new, w')

theorem Answers.grown (closed : w.Closed) (grown : w.Grown w')
    (answers : w.Answers client watcher) : w'.Answers client watcher := by
  obtain ⟨new, u, evaluated⟩ := answers
  have alike := closed.alike.grown (Reads.refl w).toGrown grown
  have both := evaluate_alike client alike (rfl : watcher.source = watcher.source)
  rw [evaluated] at both
  obtain ⟨⟨answer, v⟩, evaluated', _, _, _, values⟩ := both.some_of
  cases values with
  | ok => exact ⟨_, v, evaluated'⟩

/-- A watcher that was not told in between is settled before if and only if it is settled after. -/
theorem settled_iff (effectless : watcher.Effectless client moment) (closed : u.Closed)
    (closed' : v.Closed) (now : moment u) (later : moment v) (same : u.SameData v)
    (grows : u.heap.Grows v.heap) (mem : watcher ∈ u.scope.watchers) :
    u.Settled client watcher ↔ v.Settled client watcher := by
  obtain ⟨answer, u', reading, evaluated⟩ := evaluate_onlyReads effectless.reads closed
  obtain ⟨answer', v', reading', evaluated'⟩ := evaluate_onlyReads effectless.reads closed'
  have outcome :=
    effectless.determined now later same (evaluated noDigest) (evaluated' noDigest)
  rw [settled_iff_of_evaluate (evaluated noDigest), settled_iff_of_evaluate (evaluated' noDigest)]
  cases outcome with
  | fault => simp
  | value matched =>
    simp only [Except.ok.injEq, forall_eq']
    unfold Watcher.isSettled
    cases seen : watcher.last with
    | none => rfl
    | some last =>
      have kept := (closed.alike.heap.grow reading.heap (grows.trans reading'.heap)).similar
        (Value.alike_identity (Heap.reached_roots (mem_roots_of_last mem seen)))
      exact Comparison.equal_iff_of_matches matched kept

theorem Tells.settledAt_iff (tells : u.Tells who v)
    (effectless : ∀ watcher ∈ u.scope.watchers, watcher.Effectless client moment) (closed : u.Closed)
    (closed' : v.Closed) (now : moment u) (later : moment v) (other : ¬ who id) :
    u.SettledAt client id ↔ v.SettledAt client id := by
  have stays : ∀ watcher : Watcher κ, watcher.id = id →
      (watcher ∈ u.scope.watchers ↔ watcher ∈ v.scope.watchers) := by
    rintro watcher rfl
    have same := tells.others watcher.id other
    constructor
    · intro mem
      exact (Scope.find?_eq_some_iff.1 (same.trans (Scope.find?_eq_some_iff.2 ⟨mem, rfl⟩))).1
    · intro mem
      exact (Scope.find?_eq_some_iff.1 (same.symm.trans (Scope.find?_eq_some_iff.2 ⟨mem, rfl⟩))).1
  have agree : ∀ watcher ∈ u.scope.watchers, u.Settled client watcher ↔ v.Settled client watcher :=
    fun watcher mem => settled_iff (effectless watcher mem) closed closed' now later
      (tells.sameData closed) tells.grows mem
  constructor
  · intro settled watcher mem here
    have before := (stays watcher here).2 mem
    exact (agree watcher before).1 (settled watcher before here)
  · intro settled watcher mem here
    exact (agree watcher mem).2 (settled watcher ((stays watcher here).1 mem) here)

/-! Visits. -/

/-- A visit to a settled watcher asks it. It ends the pass if the watcher is marked and gives a
value. -/
theorem visit_settled (reads : watcher.OnlyReads client) (closed : w.Closed)
    (found : w.scope.find? id = some watcher) (settled : w.Settled client watcher)
    (nested : Digest κ σ) (generation : UInt64) :
    ∃ turn w', visit client nested generation id w = some (turn, w') ∧ turn ≠ .dirty ∧ w.Reads w' ∧
      Logs [id] [] w w' ∧ (turn = .settled ↔
        w.scope.marker = some ⟨id, w.scope.generation⟩ ∧ w.Answers client watcher) := by
  obtain ⟨_, rfl⟩ := Scope.find?_eq_some_iff.1 found
  obtain ⟨answer, w', reading, evaluated⟩ := evaluate_onlyReads reads closed
  have asked := evaluate_logs (evaluated noDigest)
  have still : w'.scope.find? watcher.id = some watcher := by rw [reading.scope, found]
  unfold visit
  simp only [found, evaluated]
  cases answer with
  | error fault =>
    refine ⟨.clean, _, rfl, by simp, reading.trans (.report w' _ rfl),
      asked.quiet (.report w' _ rfl rfl), ?_⟩
    constructor
    · nofun
    · rintro ⟨_, new, u, answered⟩
      cases answered.symm.trans (evaluated noDigest)
  | ok new =>
    have matched : watcher.isSettled
        (w'.report (.answered watcher.id new w'.heap)).heap new = true :=
      (settled_iff_of_evaluate (evaluated noDigest)).1 settled new rfl
    have answers : w.Answers client watcher := ⟨new, w', evaluated noDigest⟩
    simp only [still, settle, matched, if_true]
    refine ⟨_, _, rfl, by split <;> simp, reading.trans (.report w' _ rfl),
      asked.quiet (.report w' _ rfl rfl), ?_⟩
    have scope : (w'.report (.answered watcher.id new w'.heap)).scope = w.scope := reading.scope
    rw [scope]
    split
    · rename_i marked
      exact iff_of_true rfl ⟨marked, answers⟩
    · rename_i unmarked
      exact iff_of_false (by simp) fun both => unmarked both.1

/-- What a watcher answers that is not settled. -/
theorem changed_of_unsettled (reads : watcher.OnlyReads client) (closed : w.Closed)
    (mem : watcher ∈ w.scope.watchers) (unsettled : ¬ w.Settled client watcher) :
    ∃ new w', Changed client w watcher new w' ∧
      ∀ digest, evaluate client digest watcher w = some (.ok new, w') := by
  obtain ⟨answer, w', reading, evaluated⟩ := evaluate_onlyReads reads closed
  rw [settled_iff_of_evaluate (evaluated noDigest)] at unsettled
  cases answer with
  | error fault => simp at unsettled
  | ok new =>
    have differs : watcher.isSettled w'.heap new = false := by
      simpa using unsettled
    exact ⟨new, w', ⟨mem, evaluated noDigest, reading, differs⟩, evaluated⟩

/-- A visit to a watcher that is not settled asks it, tells it of its value and marks it. The watcher
is settled afterwards. -/
theorem visit_unsettled (keeps : nested.Keeps ClosedWith) (closed : w.Closed)
    (effectless : watcher.Effectless client moment) (found : w.scope.find? id = some watcher)
    (unsettled : ¬ w.Settled client watcher) (generation : UInt64) :
    ∃ w', visit client nested generation id w = some (.dirty, w') ∧
      w'.Closed ∧ w.Tells (· = id) w' ∧ Logs [id] (listening [watcher]) w w' ∧
      w'.scope.marker = some ⟨id, generation⟩ ∧
      (moment w → moment w' → w'.SettledAt client id) := by
  obtain ⟨mem, rfl⟩ := Scope.find?_eq_some_iff.1 found
  obtain ⟨new, w₁, changed, evaluated⟩ :=
    changed_of_unsettled effectless.reads closed mem unsettled
  have reading : w.Reads w₁ := changed.2.2.1
  obtain ⟨w', told, touches, marked, _, settles⟩ := changed.told effectless.reads closed
    (effectless.governs w) nested (some ⟨watcher.id, generation⟩) fun _ _ => rfl
  obtain ⟨grows, same, fires⟩ := tell_logs effectless.listens told
  have asked : Logs [watcher.id] [] w
      ((w₁.report (.answered watcher.id new w₁.heap)).mark (some ⟨watcher.id, generation⟩)) :=
    ((evaluate_logs changed.2.1).quiet (.report w₁ _ rfl rfl)).quiet (.of_journal rfl)
  have generation' : w₁.scope.generation = w.scope.generation := by rw [reading.scope]
  have tells : w.Tells (· = watcher.id) w' :=
    ⟨touches, reading.heap.trans grows, same.trans generation'⟩
  have visited : visit client nested generation watcher.id w = some (.dirty, w') := by
    have still : w₁.scope.find? watcher.id = some watcher := by rw [reading.scope, found]
    have differs : watcher.isSettled
        (w₁.report (.answered watcher.id new w₁.heap)).heap new = false := changed.2.2.2
    unfold visit
    simp only [found, evaluated, still]
    rw [settle_changed nested generation differs, told]
    rfl
  have closed' := (stable_closed.visit keeps [] visited closed.with_none).closed
  refine ⟨w', visited, closed', tells, asked.trans fires, marked, fun now later => ?_⟩
  exact settles ⟨now, rfl, fun _ _ => rfl⟩ ⟨later, tells.sameData closed⟩ closed'

end World
end DataBinding
