import DataBinding.Proofs.Closed
import DataBinding.Proofs.Watchers

/-! Watchers that only read. Asking such a watcher builds containers that nobody else can reach,
so it changes nothing for the other watchers: whether a watcher is settled is the same before and
after, and the same in worlds that are equal but for the identity of containers. -/
namespace DataBinding

variable {κ σ α : Type} {ρ ρ' : Pairing} {L : Value → Value → Prop}

/-! Reading. -/

/-- Events that are the same whether or not a pass looks at watchers that did not change. -/
def Event.isMilestone : Event → Bool
  | .asked _ => false
  | .answered .. => false
  | .faulted _ .watch _ => false
  | .note _ => false
  | _ => true

def World.milestones (w : World κ σ) : List Event := w.journal.filter Event.isMilestone

def Event.askedWatcher? : Event → Option Nat
  | .asked watcher => some watcher
  | _ => none

def Event.firedWatcher? : Event → Option Nat
  | .fired watcher .. => some watcher
  | _ => none

/-- The watchers whose sources were asked so far, in order. -/
def World.askings (w : World κ σ) : List Nat := w.journal.reverse.filterMap Event.askedWatcher?

/-- The watchers whose listeners were called so far, in order. -/
def World.firings (w : World κ σ) : List Nat := w.journal.reverse.filterMap Event.firedWatcher?

theorem World.milestones_append {w w' : World κ σ} {events : List Event}
    (journal : w'.journal = events ++ w.journal) :
    w'.milestones = events.filter Event.isMilestone ++ w.milestones := by
  unfold milestones
  rw [journal, List.filter_append]

/-- All that was added to a world are containers, compiled texts and reports. -/
structure World.Grown (w w' : World κ σ) : Prop where
  heap : w.heap.Grows w'.heap
  scope : w'.scope = w.scope
  kept : w'.kept = w.kept
  client : w'.client = w.client

/-- The reports that were added are none of the milestones. -/
structure World.Reads (w w' : World κ σ) : Prop extends World.Grown w w' where
  milestones : w'.milestones = w.milestones

/-- In every closed world the script ends without a digest and has only read. -/
def Script.OnlyReads (script : Script κ σ α) : Prop :=
  ∀ w : World κ σ, w.Closed → ∃ exit values w',
    script.run noDigest [] w = some (exit, values, w') ∧ w.Reads w'

/-- The watcher asks a callable that only reads, or it has an expression. -/
def Watcher.OnlyReads (client : Client κ σ) (watcher : Watcher κ) : Prop :=
  ∀ key, watcher.source = .callable key → (client.watch key).OnlyReads

namespace World

variable {w w' w'' l l' r r' : World κ σ}

theorem Grown.report (w : World κ σ) (event : Event) : w.Grown (w.report event) :=
  ⟨.refl _ _, rfl, rfl, rfl⟩

theorem Reads.refl (w : World κ σ) : w.Reads w := ⟨⟨.refl _ _, rfl, rfl, rfl⟩, rfl⟩

theorem Grown.trans (first : w.Grown w') (second : w'.Grown w'') : w.Grown w'' where
  heap := first.heap.trans second.heap
  scope := second.scope.trans first.scope
  kept := second.kept.trans first.kept
  client := second.client.trans first.client

theorem Reads.trans (first : w.Reads w') (second : w'.Reads w'') : w.Reads w'' where
  toGrown := first.toGrown.trans second.toGrown
  milestones := second.milestones.trans first.milestones

theorem Reads.report (w : World κ σ) (event : Event) (passing : event.isMilestone = false) :
    w.Reads (w.report event) :=
  ⟨.report w event, List.filter_cons_of_neg (by simp [passing])⟩

theorem Alike.grown (alike : l.Alike ρ L r) (left : l.Grown l') (right : r.Grown r') :
    l'.Alike ρ L r' where
  heap := alike.heap.grow left.heap right.heap
  data := by rw [left.scope, right.scope]; exact alike.data
  watchers := by rw [left.scope, right.scope]; exact alike.watchers
  nextId := by rw [left.scope, right.scope]; exact alike.nextId
  generation := by rw [left.scope, right.scope]; exact alike.generation
  config := by rw [left.scope, right.scope]; exact alike.config
  kept := by rw [left.kept, right.kept]; exact alike.kept
  client := by rw [left.client, right.client]; exact alike.client

theorem Alike.reads (alike : l.Alike ρ L r) (left : l.Reads l') (right : r.Reads r') :
    l'.Alike ρ L r' :=
  alike.grown left.toGrown right.toGrown

theorem Grown.closed (grown : w.Grown w') (closed : w.Closed) : w'.Closed :=
  (closed.alike.grown grown grown).closed_left

theorem Reads.closed (reads : w.Reads w') (closed : w.Closed) : w'.Closed :=
  reads.toGrown.closed closed

end World

/-- Operations that change neither the scope nor what can be reached from it. -/
def Op.isReading : Op κ σ → Bool
  | .obtain _ => true
  | .look _ => true
  | .evalExpr .. => true
  | .status => true
  | .inspect => true
  | .note _ => true
  | .reportDivergence _ => true
  | _ => false

theorem Obtain.grows_run (op : Obtain) (values : List Value) (w : World κ σ) :
    w.heap.Grows (op.run values w).2.heap := by
  cases op with
  | array items => exact Heap.grows_alloc _ _
  | object entries => exact Heap.grows_alloc _ _
  | json document => exact Heap.grows_ofJson _ document
  | copy v => exact Heap.grows_deepCopy _ _
  | call accessor context locals => exact accessor.program.grows_run _ _
  | _ => exact .refl _ _

theorem Op.run_grown {op : Op κ σ} {values values' : List Value} {w w' : World κ σ}
    {answer : op.Answer} (reading : op.isReading = true)
    (run : op.run noDigest values w = some (answer, values', w')) : w.Grown w' := by
  have same : w.Grown w := (World.Reads.refl w).toGrown
  cases op with
  | obtain op =>
    obtain ⟨heap, world⟩ := op.run_world values w
    have grows := op.grows_run values w
    have result : (op.run values w).2 = w' := congrArg (·.2.2) (Option.some.inj run)
    rw [world] at result grows
    rw [← result]
    exact ⟨grows, rfl, rfl, rfl⟩
  | look | status | inspect =>
    cases run
    exact same
  | evalExpr text locals =>
    simp only [Op.run, World.evalExpr] at run
    rcases w.accessor_eq text with ⟨accessor, cache, _, found⟩ | ⟨fault, _, found⟩
    · rw [found] at run
      cases run
      exact ⟨accessor.program.grows_run _ _, rfl, rfl, rfl⟩
    · rw [found] at run
      cases run
      exact same
  | note | reportDivergence =>
    cases run
    exact .report w _
  | _ => cases reading

/-- Operations that leave the set of watchers as it is. -/
def Op.keepsWatchers : Op κ σ → Bool
  | .register .. => false
  | .watchExpr .. => false
  | .deregister _ => false
  | _ => true

theorem Op.run_scope {op : Op κ σ} {values values' : List Value} {w w' : World κ σ}
    {answer : op.Answer} (keeps : op.keepsWatchers = true)
    (run : op.run noDigest values w = some (answer, values', w')) : w'.scope = w.scope := by
  cases op with
  | change op =>
    obtain ⟨heap, kept, world⟩ := op.run_world values w
    have result : op.run values w = w' := congrArg (·.2.2) (Option.some.inj run)
    rw [← result, world]
  | client f =>
    cases run
    rfl
  | digest => cases run
  | register | watchExpr | deregister => cases keeps
  | _ => exact (Op.run_grown rfl run).scope

/-! Asking watchers. -/

/-- Answers that are equal but for the identity of a container. -/
inductive AnswerAlike (ρ : Pairing) : Except Fault Value → Except Fault Value → Prop where
  | ok {v w : Value} : v.Alike ρ w → AnswerAlike ρ (.ok v) (.ok w)
  | error (fault : Fault) : AnswerAlike ρ (.error fault) (.error fault)

namespace World

variable {client : Client κ σ} {w w' l r : World κ σ}

/-- A watcher that only reads gives an answer, whatever digests are. -/
theorem evaluate_onlyReads {watcher : Watcher κ} (reads : watcher.OnlyReads client) (closed : w.Closed) :
    ∃ answer w', w.Reads w' ∧ ∀ digest, evaluate client digest watcher w = some (answer, w') := by
  have asked := Reads.report w (.asked watcher.id) rfl
  unfold evaluate
  cases source : watcher.source with
  | expression accessor =>
    have called : (w.report (.asked watcher.id)).Reads
        ((w.report (.asked watcher.id)).call accessor ⟨some w.data, none⟩).2 :=
      ⟨⟨accessor.program.grows_run _ _, rfl, rfl, rfl⟩, rfl⟩
    exact ⟨_, _, asked.trans called, fun _ => rfl⟩
  | callable key =>
    obtain ⟨exit, values, w', run, reading⟩ := reads key source _ (asked.closed closed)
    have any := fun digest => Script.run_eq digest run
    rcases exit with (message | ref) | panic
    · exact ⟨.error (.failed message), w', asked.trans reading, fun digest => by simp only [any]⟩
    · exact ⟨.ok (ref.value values), w', asked.trans reading, fun digest => by simp only [any]⟩
    · exact ⟨.error (.panicked panic), w', asked.trans reading, fun digest => by simp only [any]⟩

theorem evaluate_reads (reads : ∀ key, (client.watch key).OnlyReads) (closed : w.Closed)
    (watcher : Watcher κ) : ∃ answer w', w.Reads w' ∧
      ∀ digest, evaluate client digest watcher w = some (answer, w') :=
  evaluate_onlyReads (fun key _ => reads key) closed

/-- Watchers that only read answer alike in alike worlds, and report the same. -/
theorem evaluate_together (client : Client κ σ) (alike : l.Alike ρ L r) {a b : Watcher κ}
    (source : a.source = b.source) :
    Option.Rel (fun left right => (∃ ρ', Heap.Lockstep ρ ρ' l.heap left.2.heap r.heap right.2.heap ∧
        left.2.Alike ρ' L right.2 ∧ AnswerAlike ρ' left.1 right.1) ∧
        SameReports (l.report (.asked a.id)) left.2 (r.report (.asked b.id)) right.2)
      (evaluate client noDigest a l) (evaluate client noDigest b r) := by
  have asked := alike.report (.asked a.id) (.asked b.id)
  unfold evaluate
  rw [source]
  cases b.source with
  | expression accessor =>
    have arguments : Arguments.Alike ρ ⟨some (l.report (.asked a.id)).data, none⟩
        ⟨some (r.report (.asked b.id)).data, none⟩ := ⟨.some asked.dataValue, .none⟩
    obtain ⟨ρ', step, worlds, results⟩ := World.call_alike asked arguments accessor
    exact .some ⟨⟨ρ', step, worlds, .ok results⟩, .none rfl rfl⟩
  | callable key =>
    have runs := (client.watch key).run_alike asked .nil
    simp only
    generalize (client.watch key).run noDigest [] (l.report (.asked a.id)) = left at runs
    generalize (client.watch key).run noDigest [] (r.report (.asked b.id)) = right at runs
    cases runs with
    | none => exact .none
    | @some left right together =>
      obtain ⟨exit, values, l'⟩ := left
      obtain ⟨exit', values', r'⟩ := right
      obtain ⟨rfl, ⟨ρ', step, worlds, given⟩, reports⟩ := together
      rcases exit with (message | ref) | panic
      · exact .some ⟨⟨ρ', step, worlds, .error _⟩, reports⟩
      · exact .some ⟨⟨ρ', step, worlds, .ok (ref.value_alike given)⟩, reports⟩
      · exact .some ⟨⟨ρ', step, worlds, .error _⟩, reports⟩

theorem evaluate_alike (client : Client κ σ) (alike : l.Alike ρ L r) {a b : Watcher κ}
    (source : a.source = b.source) :
    Option.Rel (fun left right => ∃ ρ', Heap.Lockstep ρ ρ' l.heap left.2.heap r.heap right.2.heap ∧
        left.2.Alike ρ' L right.2 ∧ AnswerAlike ρ' left.1 right.1)
      (evaluate client noDigest a l) (evaluate client noDigest b r) :=
  (evaluate_together client alike source).imp fun _ _ both => both.1

end World

/-! Settled watchers. -/

theorem Watcher.Alike.isSettled_eq {l r : Heap} {a b : Watcher κ}
    (watchers : a.Alike (Value.Alike ρ) b) (heaps : Heap.Alike ρ l r) {v w : Value}
    (values : v.Alike ρ w) : a.isSettled l v = b.isSettled r w := by
  have last := watchers.last
  unfold isSettled Comparison.equal
  rw [watchers.comparison]
  generalize a.last = old at last
  generalize b.last = old' at last
  cases last with
  | none => rfl
  | some seen =>
    simp only [Option.any_some]
    cases b.comparison with
    | reference => exact values.identical_eq seen
    | value => exact heaps.deepEqual_eq values seen

namespace World

variable {client : Client κ σ} {w w' l r : World κ σ}

/-- Asked again, the watcher fails or gives a value that matches the last one it saw. -/
def Settled (client : Client κ σ) (w : World κ σ) (watcher : Watcher κ) : Prop :=
  ∃ answer w', evaluate client noDigest watcher w = some (answer, w') ∧
    ∀ new, answer = .ok new → watcher.isSettled w'.heap new = true

/-- Whether a watcher is settled can be found out by asking it. -/
instance (client : Client κ σ) (w : World κ σ) (watcher : Watcher κ) :
    Decidable (w.Settled client watcher) :=
  match asked : evaluate client noDigest watcher w with
  | none => .isFalse fun ⟨_, _, evaluated, _⟩ => by cases asked.symm.trans evaluated
  | some (.error fault, w') => .isTrue ⟨.error fault, w', asked, nofun⟩
  | some (.ok new, w') =>
    decidable_of_iff (watcher.isSettled w'.heap new = true)
      ⟨fun matched => ⟨.ok new, w', asked, fun _ same => Except.ok.inj same ▸ matched⟩,
        fun ⟨_, _, evaluated, matched⟩ => by
          cases asked.symm.trans evaluated
          exact matched new rfl⟩

theorem Settled.of_alike (alike : l.Alike ρ (Value.Alike ρ) r) {a b : Watcher κ}
    (watchers : a.Alike (Value.Alike ρ) b) (settled : l.Settled client a) :
    r.Settled client b := by
  obtain ⟨answer, l', evaluated, matched⟩ := settled
  have both := evaluate_alike client alike watchers.source
  rw [evaluated] at both
  obtain ⟨⟨answer', r'⟩, evaluated', ρ', step, worlds, answers⟩ := both.some_of
  refine ⟨answer', r', evaluated', ?_⟩
  rintro new rfl
  cases answers with
  | ok values =>
    rw [← (watchers.imp fun _ _ => .mono step.larger).isSettled_eq worlds.heap values]
    exact matched _ rfl

/-- Looking for a watcher and asking it. -/
theorem look_cases (reads : ∀ key, (client.watch key).OnlyReads) (closed : w.Closed) (id : Nat) :
    w.scope.find? id = none ∧ id ∉ w.scope.ids ∨
    ∃ watcher answer w', watcher ∈ w.scope.watchers ∧ watcher.id = id ∧
      w.scope.find? watcher.id = some watcher ∧ w'.scope.find? watcher.id = some watcher ∧
      w.Reads w' ∧ ∀ digest, evaluate client digest watcher w = some (answer, w') := by
  cases found : w.scope.find? id with
  | none => exact .inl ⟨rfl, Scope.find?_eq_none_iff.1 found⟩
  | some watcher =>
    obtain ⟨mem, rfl⟩ := Scope.find?_eq_some_iff.1 found
    obtain ⟨answer, w', reading, evaluated⟩ := evaluate_reads reads closed watcher
    exact .inr ⟨watcher, answer, w', mem, rfl, found, by rw [reading.scope, found], reading, evaluated⟩

/-- Every watcher with the number is settled, which also holds if there is none. -/
def SettledAt (client : Client κ σ) (w : World κ σ) (id : Nat) : Prop :=
  ∀ watcher ∈ w.scope.watchers, watcher.id = id → w.Settled client watcher

theorem settledAt_of_settled {watcher : Watcher κ} (mem : watcher ∈ w.scope.watchers)
    (settled : w.Settled client watcher) : w.SettledAt client watcher.id := by
  intro other mem' same
  rw [Scope.eq_of_id_eq mem' mem same]
  exact settled

theorem settledAt_of_absent {id : Nat} (absent : id ∉ w.scope.ids) : w.SettledAt client id :=
  fun watcher mem same => absurd (List.mem_map.2 ⟨watcher, mem, same⟩) absent

theorem SettledAt.of_alike (alike : l.Alike ρ (Value.Alike ρ) r) {id : Nat}
    (settled : l.SettledAt client id) : r.SettledAt client id := by
  intro watcher mem same
  obtain ⟨other, mem', watchers⟩ := List.exists_of_mem_right alike.watchers mem
  exact (settled other mem' (watchers.id.trans same)).of_alike alike watchers

/-- Reading leaves settled watchers settled. -/
theorem SettledAt.grown (closed : w.Closed) (grown : w.Grown w') {id : Nat}
    (settled : w.SettledAt client id) : w'.SettledAt client id :=
  settled.of_alike (closed.alike.grown (Reads.refl w).toGrown grown)

theorem SettledAt.reads (closed : w.Closed) (reads : w.Reads w') {id : Nat}
    (settled : w.SettledAt client id) : w'.SettledAt client id :=
  settled.grown closed reads.toGrown

theorem SettledAt.report (closed : w.Closed) {id : Nat} (settled : w.SettledAt client id)
    (event : Event) : (w.report event).SettledAt client id :=
  settled.grown closed (.report w event)

/-- The watchers behind a marked one are settled, or a pass has still to visit them and will not
come to the marked one before. -/
def Behind (client : Client κ σ) (rest : List Nat) (w : World κ σ) (marked : Nat) : Prop :=
  ∀ id ∈ w.scope.ids, marked < id → w.SettledAt client id ∨ id ∈ rest ∧ marked ∉ rest

namespace Behind

variable {rest : List Nat} {marked id : Nat}

theorem settled (behind : w.Behind client [] marked) (mem : id ∈ w.scope.ids) (less : marked < id) :
    w.SettledAt client id :=
  (behind id mem less).resolve_right fun ⟨inside, _⟩ => List.not_mem_nil inside

theorem start (behind : w.Behind client [] marked) (rest : List Nat) :
    w.Behind client rest marked :=
  fun _ mem less => .inl (behind.settled mem less)

theorem grown (closed : w.Closed) (grown : w.Grown w') (behind : w.Behind client rest marked) :
    w'.Behind client rest marked := by
  intro id mem less
  rw [grown.scope] at mem
  exact (behind id mem less).imp_left (.grown closed grown)

/-- A settled watcher has been visited. -/
theorem visited (settled : w.SettledAt client id) (behind : w.Behind client (id :: rest) marked) :
    w.Behind client rest marked := by
  intro other mem less
  rcases behind other mem less with here | ⟨mem', ahead⟩
  · exact .inl here
  · rcases List.mem_cons.1 mem' with rfl | mem'
    · exact .inl settled
    · exact .inr ⟨mem', fun inside => ahead (List.mem_cons_of_mem _ inside)⟩

/-- Watchers that are still to come may be left out when they are settled. -/
theorem complete (settled : ∀ id ∈ rest, w.SettledAt client id)
    (behind : w.Behind client rest marked) : w.Behind client [] marked := by
  intro id mem less
  exact .inl ((behind id mem less).elim (fun here => here) fun ⟨mem', _⟩ => settled id mem')

theorem of_ahead (ahead : w.scope.Ahead rest marked) : w.Behind client rest marked :=
  fun id mem less => .inr (ahead id mem less)

/-- When a pass comes to the marked watcher, those that would follow are settled. -/
theorem of_marked (behind : w.Behind client (marked :: rest) marked)
    (ascending : (marked :: rest).Pairwise (· < ·)) : ∀ id ∈ rest, w.SettledAt client id := by
  intro id mem
  have less := (List.pairwise_cons.1 ascending).1 id mem
  by_cases registered : id ∈ w.scope.ids
  · exact (behind id registered less).resolve_right fun ⟨_, ahead⟩ => ahead List.mem_cons_self
  · exact settledAt_of_absent registered

end Behind

/-- A watcher of which the answer differs from what it saw last. -/
def Changed (client : Client κ σ) (w : World κ σ) (watcher : Watcher κ) (new : Value)
    (w' : World κ σ) : Prop :=
  watcher ∈ w.scope.watchers ∧ evaluate client noDigest watcher w = some (.ok new, w') ∧
    w.Reads w' ∧ watcher.isSettled w'.heap new = false

/-- The answer of a changed watcher can be handed to its listener. -/
theorem Changed.closedWith {watcher : Watcher κ} {new : Value}
    (changed : Changed client w watcher new w') (closed : w.Closed) : w'.ClosedWith [new] := by
  obtain ⟨mem, evaluated, _⟩ := changed
  have here : w.scope.find? watcher.id = some watcher := Scope.find?_eq_some_iff.2 ⟨mem, rfl⟩
  have keeps : noDigest.Keeps (ClosedWith (κ := κ) (σ := σ)) := fun _ _ _ _ none => by cases none
  exact (stable_closed.evaluate keeps here evaluated closed.with_none).2 new rfl

theorem Changed.not_settled {watcher : Watcher κ} {new : Value}
    (changed : Changed client w watcher new w') : ¬ w.SettledAt client watcher.id := by
  intro settled
  obtain ⟨mem, evaluated, _, differs⟩ := changed
  obtain ⟨answer, w₁, again, matched⟩ := settled watcher mem rfl
  cases evaluated.symm.trans again
  exact Bool.false_ne_true (differs.symm.trans (matched _ rfl))

/-- A visit either only reads, and its watcher is settled or gone, or it finds a change. -/
theorem visit_cases (reads : ∀ key, (client.watch key).OnlyReads) (closed : w.Closed)
    (nested : Digest κ σ) (generation : UInt64) (id : Nat) :
    (∃ turn w', visit client nested generation id w = some (turn, w') ∧ turn ≠ .dirty ∧
      w.Reads w' ∧ w.SettledAt client id ∧
      (turn = .settled → w.scope.marker = some ⟨id, w.scope.generation⟩)) ∨
    ∃ watcher new w', watcher.id = id ∧ Changed client w watcher new w' ∧
      visit client nested generation id w =
        (tell client nested watcher new
          ((w'.report (.answered id new w'.heap)).mark (some ⟨id, generation⟩))).map
            fun w => (.dirty, w) := by
  unfold visit
  rcases look_cases reads closed id with ⟨missing, absent⟩ |
    ⟨watcher, answer, w', mem, rfl, found, still, reading, evaluated⟩
  · rw [missing]
    exact .inl ⟨.clean, w, rfl, by simp, .refl w, settledAt_of_absent absent, by simp⟩
  · simp only [found, evaluated]
    cases answer with
    | error fault =>
      exact .inl ⟨.clean, _, rfl, by simp, reading.trans (.report w' _ rfl),
        settledAt_of_settled mem ⟨_, w', evaluated noDigest, by simp⟩, by simp⟩
    | ok new =>
      simp only [still]
      have answered := reading.trans (.report w' (.answered watcher.id new w'.heap) rfl)
      cases matched : watcher.isSettled w'.heap new with
      | true =>
        have settles : watcher.isSettled (w'.report (.answered watcher.id new w'.heap)).heap new =
          true := matched
        refine .inl ⟨_, _, if_pos settles, by split <;> simp, answered,
          settledAt_of_settled mem ⟨_, w', evaluated noDigest, ?_⟩, fun stopped => ?_⟩
        · rintro _ ⟨rfl⟩
          exact matched
        · rw [answered.scope] at stopped
          split at stopped
          · assumption
          · cases stopped
      | false =>
        exact .inr ⟨watcher, new, w', rfl, ⟨mem, evaluated noDigest, reading, matched⟩,
          settle_changed nested generation matched⟩

theorem dirty_of_visitAll {nested : Digest κ σ} {generation : UInt64} {ids : List Nat} {dirty : Bool}
    (run : visitAll client nested generation ids true w = some (dirty, w')) : dirty = true := by
  induction ids generalizing w with
  | nil =>
    cases run
    rfl
  | cons id rest ih =>
    simp only [visitAll] at run
    split at run
    · cases run
    · cases run
      rfl
    · exact ih run
    · exact ih run

/-- A pass that finds no change only reads, and it leaves out no watcher but those behind the
marker. -/
theorem quiet_visitAll (reads : ∀ key, (client.watch key).OnlyReads) {nested : Digest κ σ}
    {generation : UInt64} {ids : List Nat} (closed : w.Closed) (ascending : ids.Pairwise (· < ·))
    (run : visitAll client nested generation ids false w = some (false, w')) :
    w.Reads w' ∧ ∀ id ∈ ids, w'.SettledAt client id ∨ ∃ marker, w'.scope.marker = some marker ∧
      marker.generation = w'.scope.generation ∧ marker.watcher < id := by
  induction ids generalizing w with
  | nil =>
    cases run
    exact ⟨.refl _, by simp⟩
  | cons id rest ih =>
    obtain ⟨first, later⟩ := List.pairwise_cons.1 ascending
    simp only [visitAll] at run
    rcases visit_cases reads closed nested generation id with
      ⟨turn, w₁, visited, clean, reading, settled, stops⟩ | ⟨watcher, new, w₁, _, _, visited⟩
    · rw [visited] at run
      cases turn with
      | dirty => exact absurd rfl clean
      | clean =>
        obtain ⟨reading', others⟩ := ih (reading.closed closed) later run
        exact ⟨reading.trans reading', List.forall_mem_cons.2
          ⟨.inl (settled.reads closed (reading.trans reading')), others⟩⟩
      | settled =>
        cases run
        refine ⟨reading, List.forall_mem_cons.2 ⟨.inl (settled.reads closed reading), ?_⟩⟩
        intro other mem
        rw [reading.scope]
        exact .inr ⟨_, stops rfl, rfl, first other mem⟩
    · rw [visited] at run
      cases told : tell client nested watcher new
          ((w₁.report (.answered id new w₁.heap)).mark (some ⟨id, generation⟩)) with
      | none =>
        rw [told] at run
        cases run
      | some w₂ =>
        rw [told] at run
        cases dirty_of_visitAll run

end World
end DataBinding
