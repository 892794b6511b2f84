import DataBinding.Proofs.Membership
import DataBinding.Proofs.ShortCircuit

/-! The course of a pass whose callables start no digests. A visit asks its watcher once and leaves
the other watchers as they are, unless callables remove them; watchers that callables register
have seen nothing yet and are not visited before the next pass. -/
namespace DataBinding

variable {κ σ α : Type}

/-- A pass is over when the next one starts or its digest ends. -/
def Event.endsPass : Event → Bool
  | .passStarted => true
  | .converged _ => true
  | .diverged _ => true
  | _ => false

def Event.asks (id : Nat) : Event → Bool
  | .asked watcher => watcher == id
  | _ => false

/-- The listener of some watcher is called. -/
def Event.isCall : Event → Bool
  | .fired .. => true
  | _ => false

/-- Where an event of two lists in a row stands. -/
theorem List.append_eq_append_cons {β : Type} {as bs later earlier : List β} {b : β}
    (split : as ++ bs = later ++ b :: earlier) :
    (∃ rest, as = later ++ b :: rest ∧ earlier = rest ++ bs) ∨
      ∃ rest, later = as ++ rest ∧ bs = rest ++ b :: earlier := by
  rcases List.append_eq_append_iff.1 split with ⟨rest, after, before⟩ | ⟨rest, before, after⟩
  · exact .inr ⟨rest, after, before⟩
  · cases rest with
    | nil => exact .inr ⟨[], by simpa using before.symm, by simpa using after.symm⟩
    | cons other rest =>
      obtain ⟨rfl, earlier⟩ := List.cons.inj after
      exact .inl ⟨rest, before, earlier⟩

namespace World

/-- A registered watcher that has seen nothing yet. -/
def Unseen (id : Nat) (listens : Bool) (w : World κ σ) : Prop :=
  ∃ watcher, w.scope.find? id = some watcher ∧ watcher.last = none ∧
    watcher.listener.isSome = listens

/-- The listener of a watcher was called, unless its source failed or the watcher was removed. -/
def Told (id : Nat) (events : List Event) : Prop :=
  (∃ fault, .faulted id .watch fault ∈ events) ∨ .deregistered id ∈ events ∨
    ∃ new old heap, .fired id new old heap ∈ events

theorem Told.mono {id : Nat} {events more : List Event} (told : Told id events)
    (subset : events ⊆ more) : Told id more := by
  rcases told with ⟨fault, mem⟩ | mem | ⟨new, old, heap, mem⟩
  · exact .inl ⟨fault, subset mem⟩
  · exact .inr (.inl (subset mem))
  · exact .inr (.inr ⟨new, old, heap, subset mem⟩)

/-- What happens within a pass while none but the `visited` watchers have their turn. -/
structure Elapses (visited : Nat → Prop) (events : List Event) (w w' : World κ σ) : Prop where
  journal : w'.journal = events ++ w.journal
  origin : w'.origin = w.origin
  nextId : w.scope.nextId ≤ w'.scope.nextId
  inside : ∀ event ∈ events, event.endsPass = false ∧ ∀ id, event.asks id = true → visited id
  kept : ∀ id watcher, ¬ visited id → w.scope.find? id = some watcher →
    w'.scope.find? id = some watcher ∨ w'.scope.find? id = none ∧ .deregistered id ∈ events
  gone : ∀ id < w.scope.nextId, w.scope.find? id = none →
    w'.scope.find? id = none ∧ ∀ event ∈ events, event.asks id = false
  added : ∀ later id listens comparison earlier,
    events = later ++ .registered id listens comparison :: earlier →
      w.scope.nextId ≤ id ∧ id < w'.scope.nextId ∧ (.deregistered id ∈ later ∨ w'.Unseen id listens)

namespace Elapses

variable {visited others : Nat → Prop} {events more : List Event} {w w' w'' : World κ σ}

theorem weaken (elapses : Elapses visited events w w') (fewer : ∀ id, visited id → others id) :
    Elapses others events w w' where
  journal := elapses.journal
  origin := elapses.origin
  nextId := elapses.nextId
  inside := fun event mem => ⟨(elapses.inside event mem).1,
    fun id asks => fewer id ((elapses.inside event mem).2 id asks)⟩
  kept := fun id watcher another => elapses.kept id watcher fun mem => another (fewer id mem)
  gone := elapses.gone
  added := elapses.added

/-- A step that reports nothing and leaves all watchers but the visited ones. -/
theorem of_same (journal : w'.journal = w.journal)
    (generation : w'.scope.generation = w.scope.generation) (nextId : w'.scope.nextId = w.scope.nextId)
    (same : ∀ id, ¬ visited id → w'.scope.find? id = w.scope.find? id)
    (gone : ∀ id, w.scope.find? id = none → w'.scope.find? id = none) :
    Elapses visited [] w w' where
  journal := journal
  origin := by rw [World.origin, World.origin, World.changes, World.changes, generation, journal]
  nextId := Nat.le_of_eq nextId.symm
  inside := by simp
  kept := fun id watcher another found => .inl ((same id another).trans found)
  gone := fun id _ absent => ⟨gone id absent, by simp⟩
  added := by simp

theorem refl (visited : Nat → Prop) (w : World κ σ) : Elapses visited [] w w :=
  of_same rfl rfl rfl (fun _ _ => rfl) fun _ absent => absent

theorem trans (first : Elapses visited events w w') (second : Elapses visited more w' w'')
    (old : ∀ id, visited id → id < w.scope.nextId) : Elapses visited (more ++ events) w w'' where
  journal := by rw [second.journal, first.journal, List.append_assoc]
  origin := second.origin.trans first.origin
  nextId := Nat.le_trans first.nextId second.nextId
  inside := List.forall_mem_append.2 ⟨second.inside, first.inside⟩
  kept := by
    intro id watcher another found
    rcases first.kept id watcher another found with still | ⟨absent, mem⟩
    · exact (second.kept id watcher another still).imp_right fun ⟨absent, mem⟩ =>
        ⟨absent, List.mem_append_left _ mem⟩
    · have below := Nat.lt_of_lt_of_le (Scope.lt_nextId_of_find? found) first.nextId
      exact .inr ⟨(second.gone id below absent).1, List.mem_append_right _ mem⟩
  gone := by
    intro id below absent
    obtain ⟨absent₁, quiet₁⟩ := first.gone id below absent
    obtain ⟨absent₂, quiet₂⟩ := second.gone id (Nat.lt_of_lt_of_le below first.nextId) absent₁
    exact ⟨absent₂, List.forall_mem_append.2 ⟨quiet₂, quiet₁⟩⟩
  added := by
    intro later id listens comparison earlier split
    rcases List.append_eq_append_cons split with ⟨rest, here, _⟩ | ⟨rest, rfl, here⟩
    · obtain ⟨early, below, fresh⟩ := second.added _ _ _ _ _ here
      exact ⟨Nat.le_trans first.nextId early, below, fresh⟩
    · obtain ⟨early, below, fresh⟩ := first.added _ _ _ _ _ here
      refine ⟨early, Nat.lt_of_lt_of_le below second.nextId, ?_⟩
      rcases fresh with mem | ⟨watcher, found, unseen⟩
      · exact .inl (List.mem_append_right _ mem)
      · have another : ¬ visited id := fun mem => Nat.not_lt_of_le early (old id mem)
        rcases second.kept id watcher another found with still | ⟨_, mem⟩
        · exact .inr ⟨watcher, still, unseen⟩
        · exact .inl (List.mem_append_left _ mem)

theorem report (w : World κ σ) {event : Event} (plain : event.isStructural = false)
    (inside : event.endsPass = false)
    (asks : ∀ id, event.asks id = true → visited id ∧ (w.scope.find? id).isSome = true) :
    Elapses visited [event] w (w.report event) where
  journal := rfl
  origin := (Follows.report w plain).origin
  nextId := Nat.le_refl _
  inside := by simpa using ⟨inside, fun id here => (asks id here).1⟩
  kept := fun _ _ _ found => .inl found
  gone := by
    intro id _ absent
    refine ⟨absent, ?_⟩
    simp only [List.mem_singleton, forall_eq]
    cases here : event.asks id with
    | false => rfl
    | true =>
      have present := (asks id here).2
      rw [absent] at present
      cases present
  added := by
    intro later id listens comparison earlier split
    cases later with
    | nil =>
      cases split
      cases plain
    | cons event later => simp at split

theorem mark (visited : Nat → Prop) (w : World κ σ) (marker : Option Marker) :
    Elapses visited [] w (w.mark marker) :=
  of_same rfl rfl rfl (fun _ _ => rfl) fun _ absent => absent

end Elapses

/-- An operation removes watchers or registers new ones; the other watchers stay. -/
theorem Stepped.elapses {w w' : World κ σ} (stepped : w.Stepped w') :
    ∃ events, Elapses (fun _ => False) events w w' ∧ ∀ event ∈ events, event.isOperation = true := by
  cases stepped with
  | changed =>
    exact ⟨[], .of_same rfl rfl rfl (fun _ _ => rfl) fun _ absent => absent, by simp⟩
  | @remarked event remark =>
    refine ⟨[event], .report w ?_ ?_ ?_, ?_⟩ <;>
      cases event <;> simp_all [Event.isRemark, Event.isStructural, Event.endsPass, Event.asks,
        Event.isOperation]
  | registered cache source listener comparison =>
    have found : ∀ id, (({ w with cache } : World κ σ).register source listener
        comparison).2.scope.find? id = if id = w.scope.nextId then
          some ⟨w.scope.nextId, source, listener, comparison, none⟩ else w.scope.find? id :=
      fun id => Scope.find?_add source listener comparison
    refine ⟨[.registered w.scope.nextId listener.isSome comparison], ⟨rfl, ?_, Nat.le_succ _, ?_, ?_,
      ?_, ?_⟩, by simp [Event.isOperation]⟩
    · exact (Stepped.registered cache source listener comparison).follows.origin
    · simp [Event.endsPass, Event.asks]
    · intro id watcher _ before
      rw [found, if_neg (Nat.ne_of_lt (Scope.lt_nextId_of_find? before))]
      exact .inl before
    · intro id below absent
      rw [found, if_neg (Nat.ne_of_lt below)]
      exact ⟨absent, by simp [Event.asks]⟩
    · intro later id listens comparison' earlier split
      cases later with
      | nil =>
        cases split
        exact ⟨Nat.le_refl _, Nat.lt_succ_self _, .inr ⟨_, (found _).trans (if_pos rfl), rfl, rfl⟩⟩
      | cons event later =>
        simp at split
  | deregistered id =>
    cases here : w.scope.find? id with
    | none =>
      simp only [World.deregister, here]
      exact ⟨[], .refl _ w, by simp⟩
    | some watcher =>
      have follows := (Stepped.deregistered (w := w) id).follows
      simp only [World.deregister, here] at follows ⊢
      have found : ∀ other, (w.scope.remove id).find? other =
          if other = id then none else w.scope.find? other := fun other => Scope.find?_remove
      refine ⟨[.deregistered id], ⟨rfl, follows.origin, Nat.le_refl _, ?_, ?_, ?_, ?_⟩,
        by simp [Event.isOperation]⟩
      · simp [Event.endsPass, Event.asks]
      · intro other watcher' _ before
        show (w.scope.remove id).find? other = _ ∨ (w.scope.remove id).find? other = _ ∧ _
        rw [found]
        split
        · rename_i same
          exact .inr ⟨rfl, by simp [same]⟩
        · exact .inl before
      · intro other _ absent
        refine ⟨?_, by simp [Event.asks]⟩
        show (w.scope.remove id).find? other = _
        rw [found, absent, ite_self]
      · intro later other listens comparison earlier split
        cases later with
        | nil => cases split
        | cons event later => simp at split

end World

/-- So does a script that starts no digest. -/
theorem Script.StartsNoDigest.elapses {script : Script κ σ α} (quiet : script.StartsNoDigest)
    {nested : Digest κ σ} {values values' : List Value} {w w' : World κ σ} {exit : Exit α}
    (run : script.run nested values w = some (exit, values', w')) : w.Follows w' ∧
      ∃ events, World.Elapses (fun _ => False) events w w' ∧
        ∀ event ∈ events, event.isOperation = true := by
  obtain ⟨result, alone⟩ := quiet.run values w
  cases (Script.run_eq nested alone).symm.trans run
  refine ⟨Script.follows alone, Script.run_induction (I := fun _ after => ∃ events,
    World.Elapses (fun _ => False) events w after ∧ ∀ event ∈ events, event.isOperation = true)
    ?_ (fun none _ => by cases none) alone ⟨[], .refl _ w, by simp⟩⟩
  rintro op answer values w₁ values' w₂ step ⟨events, elapses, operations⟩
  obtain ⟨more, elapses', operations'⟩ := (Op.run_stepped step).elapses
  exact ⟨more ++ events, elapses.trans elapses' (fun _ => False.elim),
    List.forall_mem_append.2 ⟨operations', operations⟩⟩

namespace World

/-- What a visit to a registered watcher does in a pass that started in the given generation. -/
structure Visited (generation : UInt64) (id : Nat) (turn : Turn) (events : List Event)
    (w w' : World κ σ) : Prop where
  elapses : Elapses (· = id) events w w'
  once : events.countP (Event.asks id) = 1
  marker : w'.scope.marker = none ∨
    w'.scope.marker = if turn = .dirty then some ⟨id, generation⟩ else w.scope.marker
  settled : turn = .settled → w'.scope.marker = some ⟨id, w'.scope.generation⟩
  calm : turn ≠ .dirty → ∀ event ∈ events, event.isCall = false
  told : w.Unseen id true → Told id events

variable {client : Client κ σ} {nested : Digest κ σ} {w w' : World κ σ}

theorem evaluate_elapses (asks : ∀ key, (client.watch key).StartsNoDigest) {watcher : Watcher κ}
    {answer : Except Fault Value} (run : evaluate client nested watcher w = some (answer, w')) :
    (w.report (.asked watcher.id)).Follows w' ∧
      ∃ events, Elapses (fun _ => False) events (w.report (.asked watcher.id)) w' ∧
        ∀ event ∈ events, event.isOperation = true := by
  unfold evaluate at run
  cases source : watcher.source with
  | expression accessor =>
    simp only [source] at run
    cases run
    exact ⟨.of_same rfl rfl rfl rfl, [],
      .of_same rfl rfl rfl (fun _ _ => rfl) fun _ absent => absent, by simp⟩
  | callable key =>
    simp only [source] at run
    cases ran : (client.watch key).run nested [] (w.report (.asked watcher.id)) with
    | none =>
      rw [ran] at run
      cases run
    | some result =>
      obtain ⟨exit, values, w₁⟩ := result
      have elapsed := (asks key).elapses ran
      rw [ran] at run
      rcases exit with (message | ref) | panic <;> cases run <;> exact elapsed

theorem announce_elapses {watcher : Watcher κ} (found : w.scope.find? watcher.id = some watcher)
    (new : Value) : w.Follows (w.announce watcher new).2 ∧
      ∃ events, Elapses (· = watcher.id) events w (w.announce watcher new).2 ∧
        (∀ event ∈ events, ∀ id, event.asks id = false) ∧ (watcher.listener.isSome = true →
          ∃ old heap, .fired watcher.id new old heap ∈ events) := by
  have follows := w.record_follows watcher new
  have recorded : Elapses (· = watcher.id) [] w (w.record watcher new).2 := by
    refine .of_same rfl rfl rfl (fun id another => Scope.find?_setLast_of_ne another) fun id absent => ?_
    rw [Scope.find?_eq_none_iff] at absent ⊢
    exact (Scope.ids_setLast _ _ _).symm ▸ absent
  unfold announce
  cases listens : watcher.listener with
  | none => exact ⟨follows, [], recorded, by simp, by simp⟩
  | some key =>
    let told : Event := .fired watcher.id new ((w.record watcher new).1.getD new)
      (w.record watcher new).2.heap
    have reported : Elapses (· = watcher.id) [told] (w.record watcher new).2
        ((w.record watcher new).2.report told) :=
      .report _ rfl rfl fun id asks => Bool.noConfusion asks
    refine ⟨follows.trans (.report _ rfl), [told], recorded.trans reported ?_, ?_,
      fun _ => ⟨_, _, List.mem_singleton_self _⟩⟩
    · rintro id rfl
      exact Scope.lt_nextId_of_find? found
    · simp [told, Event.asks]

theorem absorb_elapses (w : World κ σ) (watcher : Nat) (phase : Phase) (result : Except Fault Unit) :
    ∃ events, Elapses (fun _ => False) events w (w.absorb watcher phase result) := by
  cases result with
  | ok => exact ⟨[], .refl _ w⟩
  | error fault => exact ⟨_, .report w rfl rfl fun id asks => Bool.noConfusion asks⟩

theorem Elapses.asks_none {events : List Event} (elapses : Elapses (fun _ => False) events w w')
    (id : Nat) : ∀ event ∈ events, event.asks id = false := fun event mem =>
  Bool.eq_false_iff.2 fun asks => (elapses.inside event mem).2 id asks

theorem tell_elapses (listens : ∀ key new old, (client.listen key new old).StartsNoDigest)
    {watcher : Watcher κ} {new : Value} (found : w.scope.find? watcher.id = some watcher)
    (run : tell client nested watcher new w = some w') : w.Follows w' ∧
      ∃ events, Elapses (· = watcher.id) events w w' ∧
        (∀ event ∈ events, ∀ id, event.asks id = false) ∧
        (watcher.listener.isSome = true → ∃ old heap, .fired watcher.id new old heap ∈ events) := by
  obtain ⟨follows, events, elapses, quiet, told⟩ := announce_elapses found new
  rcases tell_cases run with rfl | ⟨key, exit, values, w₁, result, rfl, ran⟩
  · exact ⟨follows, events, elapses, quiet, told⟩
  · obtain ⟨follows₁, events₁, elapses₁, _⟩ := (listens key ⟨0⟩ ⟨1⟩).elapses ran
    obtain ⟨events₂, elapses₂⟩ := w₁.absorb_elapses watcher.id .listener result
    have after := elapses₁.trans elapses₂ fun _ => False.elim
    refine ⟨(follows.trans follows₁).trans (absorb_follows _ _ _ _), (events₂ ++ events₁) ++ events,
      elapses.trans (after.weaken fun _ => False.elim) ?_, ?_, ?_⟩
    · rintro id rfl
      exact Scope.lt_nextId_of_find? found
    · exact List.forall_mem_append.2 ⟨fun event mem id => after.asks_none id event mem, quiet⟩
    · intro listener
      obtain ⟨old, heap, mem⟩ := told listener
      exact ⟨old, heap, List.mem_append_right _ mem⟩

theorem settle_elapses (listens : ∀ key new old, (client.listen key new old).StartsNoDigest)
    {generation : UInt64} {watcher : Watcher κ} {new : Value} {turn : Turn}
    (found : w.scope.find? watcher.id = some watcher)
    (run : settle client nested generation watcher new w = some (turn, w')) :
    ∃ events, Elapses (· = watcher.id) events w w' ∧
      (∀ event ∈ events, ∀ id, event.asks id = false) ∧
      (w'.scope.marker = none ∨ w'.scope.marker =
        if turn = .dirty then some ⟨watcher.id, generation⟩ else w.scope.marker) ∧
      (turn = .settled → w'.scope.marker = some ⟨watcher.id, w'.scope.generation⟩) ∧
      (turn ≠ .dirty → events = []) ∧
      (watcher.last = none → watcher.listener.isSome = true →
        ∃ old heap, .fired watcher.id new old heap ∈ events) := by
  cases matched : watcher.isSettled w.heap new with
  | true =>
    unfold settle at run
    rw [if_pos matched] at run
    cases run
    refine ⟨[], .refl _ w, by simp, .inr ?_, fun stops => ?_, by simp, fun unseen => ?_⟩
    · split <;> simp
    · split at stops
      · assumption
      · cases stops
    · simp [Watcher.isSettled, unseen] at matched
  | false =>
    rw [settle_changed nested generation matched] at run
    obtain ⟨w₁, told, result⟩ := Option.map_eq_some_iff.1 run
    cases result
    obtain ⟨follows, events, elapses, quiet, called⟩ := tell_elapses listens
      (show (w.mark (some ⟨watcher.id, generation⟩)).scope.find? watcher.id = some watcher
        from found) told
    refine ⟨events ++ [], (Elapses.mark _ w _).trans elapses ?_, by simpa using quiet, ?_, by simp,
      by simp, fun _ listener => by simpa using called listener⟩
    · rintro id rfl
      exact Scope.lt_nextId_of_find? found
    · rw [if_pos rfl]
      rcases follows.steps with ⟨_, same, _⟩ | ⟨_, lost⟩
      · exact .inr same
      · exact .inl lost

/-- A watcher is asked once, and then it is still there unless it was removed meanwhile. -/
theorem asked_elapses (asks : ∀ key, (client.watch key).StartsNoDigest) {watcher : Watcher κ}
    {answer : Except Fault Value} (found : w.scope.find? watcher.id = some watcher)
    (run : evaluate client nested watcher w = some (answer, w')) :
    ∃ events, Elapses (· = watcher.id) events w w' ∧
      events.countP (Event.asks watcher.id) = 1 ∧ (∀ event ∈ events, event.isCall = false) ∧
      (w'.scope.marker = none ∨ w'.scope.marker = w.scope.marker) ∧
      (w'.scope.find? watcher.id = some watcher ∨
        w'.scope.find? watcher.id = none ∧ .deregistered watcher.id ∈ events) := by
  have asking : Elapses (· = watcher.id) [.asked watcher.id] w (w.report (.asked watcher.id)) := by
    refine .report w rfl rfl fun id asks => ?_
    have same : watcher.id = id := by simpa [Event.asks] using asks
    exact ⟨same.symm, by rw [← same, found]; rfl⟩
  obtain ⟨follows, events, elapses, operations⟩ := evaluate_elapses asks run
  refine ⟨events ++ [.asked watcher.id], asking.trans (elapses.weaken fun _ => False.elim) ?_, ?_,
    List.forall_mem_append.2 ⟨fun event mem => ?_, by simp [Event.isCall]⟩, ?_, ?_⟩
  · rintro id rfl
    exact Scope.lt_nextId_of_find? found
  · have quiet := elapses.asks_none watcher.id
    rw [List.countP_append, List.countP_eq_zero.2 fun event mem => by simp [quiet event mem]]
    simp [Event.asks]
  · have operation := operations event mem
    cases event <;> first | rfl | cases operation
  · rcases follows.steps with ⟨_, same, _⟩ | ⟨_, lost⟩
    · exact .inr same
    · exact .inl lost
  · rcases elapses.kept watcher.id watcher (fun mem => mem) found with still | ⟨absent, removal⟩
    · exact .inl still
    · exact .inr ⟨absent, List.mem_append_left _ removal⟩

/-- Visiting a registered watcher. -/
theorem visit_elapses (asks : ∀ key, (client.watch key).StartsNoDigest)
    (listens : ∀ key new old, (client.listen key new old).StartsNoDigest) {generation : UInt64}
    {watcher : Watcher κ} {turn : Turn} (found : w.scope.find? watcher.id = some watcher)
    (run : visit client nested generation watcher.id w = some (turn, w')) :
    ∃ events, Visited generation watcher.id turn events w w' := by
  have below : ∀ {v : World κ σ}, v.scope.find? watcher.id = some watcher →
      ∀ id, id = watcher.id → id < v.scope.nextId := by
    rintro v found id rfl
    exact Scope.lt_nextId_of_find? found
  unfold visit at run
  simp only [found] at run
  cases evaluated : evaluate client nested watcher w with
  | none =>
    rw [evaluated] at run
    cases run
  | some result =>
    obtain ⟨answer, w₁⟩ := result
    obtain ⟨asked, elapses, once, calm, marker, stays⟩ := asked_elapses asks found evaluated
    -- whatever follows the question, the watcher is not asked again
    have counted : ∀ more : List Event, (∀ event ∈ more, event.asks watcher.id = false) →
        (more ++ asked).countP (Event.asks watcher.id) = 1 := by
      intro more others
      rw [List.countP_append, once, List.countP_eq_zero.2 fun event mem => by
        simp [others event mem]]
    rw [evaluated] at run
    cases answer with
    | error fault =>
      cases run
      have failed : Elapses (· = watcher.id) [.faulted watcher.id .watch fault] w₁
          (w₁.report (.faulted watcher.id .watch fault)) :=
        .report w₁ rfl rfl fun id asks => Bool.noConfusion asks
      exact ⟨_, elapses.trans failed (below found), counted _ (by simp [Event.asks]),
        by rw [if_neg nofun]; exact marker, nofun,
        fun _ => List.forall_mem_append.2 ⟨by simp [Event.isCall], calm⟩,
        fun _ => .inl ⟨fault, List.mem_append_left _ (List.mem_singleton_self _)⟩⟩
    | ok new =>
      simp only at run
      rcases stays with still | ⟨absent, removal⟩
      · simp only [still] at run
        have answered : Elapses (· = watcher.id) [.answered watcher.id new w₁.heap] w₁
            (w₁.report (.answered watcher.id new w₁.heap)) :=
          .report w₁ rfl rfl fun id asks => Bool.noConfusion asks
        obtain ⟨settling, elapses', quiet, marked, stops, none, told⟩ := settle_elapses listens
          (show ((w₁.report (.answered watcher.id new w₁.heap)).scope.find? watcher.id = some watcher)
            from still) run
        refine ⟨_, elapses.trans (answered.trans elapses' (below still)) (below found), counted _ ?_,
          ?_, stops, fun clean => ?_, ?_⟩
        · exact List.forall_mem_append.2 ⟨fun event mem => quiet event mem _, by simp [Event.asks]⟩
        · rcases marked with lost | marked
          · exact .inl lost
          · by_cases dirty : turn = .dirty
            · rw [if_pos dirty] at marked ⊢
              exact .inr marked
            · rw [if_neg dirty] at marked ⊢
              exact marker.imp marked.trans marked.trans
        · rw [none clean]
          exact List.forall_mem_append.2 ⟨by simp [Event.isCall], calm⟩
        · rintro ⟨watcher', found', unseen, listener⟩
          cases found.symm.trans found'
          obtain ⟨old, heap, mem⟩ := told unseen listener
          exact .inr (.inr ⟨new, old, heap, List.mem_append_left _ (List.mem_append_left _ mem)⟩)
      · simp only [absent] at run
        cases run
        exact ⟨asked, elapses, once, by simpa using marker, by simp, fun _ => calm,
          fun _ => .inr (.inl removal)⟩

/-! A whole pass. -/

/-- In a pass the watcher was asked once, or it was removed before its turn. -/
def Attended (id : Nat) (pass : List Event) : Prop :=
  pass.countP (Event.asks id) = 1 ∨ pass.countP (Event.asks id) = 0 ∧
    ∃ after before, pass = after ++ .deregistered id :: before ∧
      ∀ other, .asked other ∈ before → other < id

/-- The marker was set in a pass that started after at most `count` changes to the set of watchers,
but not before there were `base`. -/
def MarkedBy (base count : Nat) (w : World κ σ) : Prop :=
  ∀ marker, w.scope.marker = some marker → ∃ early, base ≤ early ∧ early ≤ count ∧
    marker.generation = w.origin + UInt64.ofNat early

/-- No watcher of the list is marked, or else the set of watchers has changed since. -/
def Unmarked (base : Nat) (rest : List Nat) (w : World κ σ) : Prop :=
  ∀ marker, w.scope.marker = some marker → marker.watcher ∉ rest ∨
    ∃ early, base ≤ early ∧ early < w.changes ∧ marker.generation = w.origin + UInt64.ofNat early

theorem Elapses.changes_eq {visited : Nat → Prop} {events : List Event}
    (elapses : Elapses visited events w w') :
    w'.changes = events.countP Event.isStructural + w.changes := by
  rw [World.changes, elapses.journal, List.countP_append, World.changes]

namespace Visited

variable {base count id : Nat} {generation : UInt64} {turn : Turn} {rest : List Nat}
  {events : List Event}

theorem markedBy (visited : Visited generation id turn events w w') (early : base ≤ count)
    (started : generation = w.origin + UInt64.ofNat count) (marked : w.MarkedBy base count) :
    w'.MarkedBy base count := by
  intro marker here
  rw [visited.elapses.origin]
  rcases visited.marker with lost | same
  · cases lost.symm.trans here
  · split at same
    · cases same.symm.trans here
      exact ⟨count, early, Nat.le_refl _, started⟩
    · exact marked marker (same.symm.trans here)

theorem unmarked (visited : Visited generation id turn events w w')
    (ascending : (id :: rest).Pairwise (· < ·)) (unmarked : w.Unmarked base (id :: rest)) :
    w'.Unmarked base rest := by
  intro marker here
  rw [visited.elapses.origin, visited.elapses.changes_eq]
  rcases visited.marker with lost | same
  · cases lost.symm.trans here
  · split at same
    · cases same.symm.trans here
      exact .inl fun mem => Nat.lt_irrefl _ ((List.pairwise_cons.1 ascending).1 id mem)
    · rcases unmarked marker (same.symm.trans here) with apart | ⟨early, based, less, set⟩
      · exact .inl fun mem => apart (List.mem_cons_of_mem _ mem)
      · exact .inr ⟨early, based, Nat.lt_add_left _ less, set⟩

/-- Nothing stops a pass at a watcher that is not marked. -/
theorem not_settled (visited : Visited generation id turn events w w')
    (unmarked : w.Unmarked base (id :: rest)) (bound : w'.changes < base + UInt64.size) :
    turn ≠ .settled := by
  rintro rfl
  have here := visited.settled rfl
  rcases visited.marker with lost | same
  · cases lost.symm.trans here
  · rcases unmarked _ (same.symm.trans here) with apart | ⟨early, based, less, set⟩
    · exact apart List.mem_cons_self
    · have wrapped : UInt64.ofNat early = UInt64.ofNat w'.changes := by
        rw [w'.generation_eq, visited.elapses.origin] at set
        exact ((UInt64.add_right_inj _).1 set).symm
      have counted := visited.elapses.changes_eq
      have size : UInt64.size = 18446744073709551616 := rfl
      have same := congrArg UInt64.toNat wrapped
      simp only [UInt64.toNat_ofNat'] at same
      omega

/-- Visits to others do not ask the watcher again. -/
theorem attended (visited : Visited generation id turn events w w') {more : List Event}
    {w'' : World κ σ} (elapses : Elapses (· ∈ rest) more w' w'') (apart : id ∉ rest) :
    Attended id (more ++ events) ∧ (w.Unseen id true → Told id (more ++ events)) := by
  have none : more.countP (Event.asks id) = 0 := List.countP_eq_zero.2 fun event mem asks =>
    apart ((elapses.inside event mem).2 id asks)
  refine ⟨.inl ?_, fun unseen => (visited.told unseen).mono (List.subset_append_right _ _)⟩
  rw [List.countP_append, none, visited.once]

/-- A watcher that is visited later is not asked before, but it may have been removed. -/
theorem later_attended (visited : Visited generation id turn events w w') {more : List Event}
    {w'' : World κ σ} (elapses : Elapses (· ∈ rest) more w' w'') {other : Nat} (less : id < other)
    (found : (w.scope.find? other).isSome = true)
    (attended : (w'.scope.find? other).isSome = true →
      Attended other more ∧ (w'.Unseen other true → Told other more)) :
    Attended other (more ++ events) ∧ (w.Unseen other true → Told other (more ++ events)) := by
  have before : ∀ asked, .asked asked ∈ events → asked < other := by
    intro asked mem
    have same : asked = id := (visited.elapses.inside _ mem).2 asked (by simp [Event.asks])
    exact same ▸ less
  have none : events.countP (Event.asks other) = 0 := List.countP_eq_zero.2 fun event mem asks =>
    Nat.ne_of_gt less ((visited.elapses.inside event mem).2 other asks)
  obtain ⟨watcher, found⟩ := Option.isSome_iff_exists.1 found
  rcases visited.elapses.kept other watcher (Nat.ne_of_gt less) found with still | ⟨absent, removal⟩
  · obtain ⟨attended, told⟩ := attended (by rw [still]; rfl)
    refine ⟨?_, ?_⟩
    · rcases attended with once | ⟨never, after, sooner, rfl, early⟩
      · exact .inl (by rw [List.countP_append, none, once])
      · refine .inr ⟨by rw [List.countP_append, none, never], after, sooner ++ events,
          by simp, fun asked mem => ?_⟩
        exact (List.mem_append.1 mem).elim (early asked) (before asked)
    · rintro ⟨watcher', found', unseen⟩
      cases found.symm.trans found'
      exact (told ⟨watcher, still, unseen⟩).mono (List.subset_append_left _ _)
  · have below := Nat.lt_of_lt_of_le (Scope.lt_nextId_of_find? found) visited.elapses.nextId
    have never : more.countP (Event.asks other) = 0 := List.countP_eq_zero.2 fun event mem => by
      simp [(elapses.gone other below absent).2 event mem]
    obtain ⟨after, sooner, split⟩ := List.append_of_mem removal
    refine ⟨.inr ⟨by rw [List.countP_append, none, never], more ++ after, sooner, by simp [split],
      fun asked mem => before asked ?_⟩, fun _ => .inr (.inl (List.mem_append_right _ removal))⟩
    rw [split]
    exact List.mem_append_right _ (List.mem_cons_of_mem _ mem)

end Visited

/-- What visits to the watchers of a list do, in a pass that started after `count` changes to the set
of watchers. -/
structure VisitedAll (base count : Nat) (rest : List Nat) (changed : Bool) (events : List Event)
    (w w' : World κ σ) : Prop where
  elapses : Elapses (· ∈ rest) events w w'
  calm : changed = false → ∀ event ∈ events, event.isCall = false
  marked : w.MarkedBy base count → w'.MarkedBy base count
  attended : w.Unmarked base rest → w'.changes < base + UInt64.size → ∀ id ∈ rest,
    (w.scope.find? id).isSome = true → Attended id events ∧ (w.Unseen id true → Told id events)

namespace VisitedAll

variable {base count id : Nat} {generation : UInt64} {turn : Turn} {rest : List Nat}
  {events more : List Event} {changed : Bool}

theorem nil (base count : Nat) (changed : Bool) (w : World κ σ) :
    VisitedAll base count [] changed [] w w :=
  ⟨.refl _ w, by simp, fun marked => marked, by simp⟩

/-- A watcher that was removed before its turn has none. -/
theorem skip (visited : VisitedAll base count rest changed events w w')
    (absent : w.scope.find? id = none) : VisitedAll base count (id :: rest) changed events w w' where
  elapses := visited.elapses.weaken fun _ => List.mem_cons_of_mem _
  calm := visited.calm
  marked := visited.marked
  attended := by
    intro unmarked bound other mem present
    rcases List.mem_cons.1 mem with rfl | mem
    · rw [absent] at present
      cases present
    · exact visited.attended (fun marker here => (unmarked marker here).imp_left fun apart mem =>
        apart (List.mem_cons_of_mem _ mem)) bound other mem present

/-- The pass stops at a settled watcher, but only at one that is marked. -/
theorem stop (first : Visited generation id .settled events w w') (early : base ≤ count)
    (started : generation = w.origin + UInt64.ofNat count) :
    VisitedAll base count (id :: rest) changed events w w' where
  elapses := first.elapses.weaken fun _ same => same ▸ List.mem_cons_self
  calm := fun _ => first.calm nofun
  marked := first.markedBy early started
  attended := fun unmarked bound => absurd rfl (first.not_settled unmarked bound)

/-- Otherwise the rest of the list follows. -/
theorem cons (first : Visited generation id turn events w w') (early : base ≤ count)
    (started : generation = w.origin + UInt64.ofNat count)
    (ascending : (id :: rest).Pairwise (· < ·)) (below : ∀ other ∈ id :: rest, other < w.scope.nextId)
    (dirties : turn = .dirty → changed = true) {w'' : World κ σ}
    (others : VisitedAll base count rest changed more w' w'') :
    VisitedAll base count (id :: rest) changed (more ++ events) w w'' where
  elapses := (first.elapses.weaken fun _ same => same ▸ List.mem_cons_self).trans
    (others.elapses.weaken fun _ => List.mem_cons_of_mem _) below
  calm := by
    intro none
    refine List.forall_mem_append.2 ⟨others.calm none, first.calm fun dirty => ?_⟩
    exact Bool.false_ne_true (none.symm.trans (dirties dirty))
  marked := fun marks => others.marked (first.markedBy early started marks)
  attended := by
    intro unmarked bound other mem present
    have less := (List.pairwise_cons.1 ascending).1
    rcases List.mem_cons.1 mem with rfl | mem
    · exact first.attended others.elapses fun mem => Nat.lt_irrefl _ (less _ mem)
    · exact first.later_attended others.elapses (less other mem) present
        (others.attended (first.unmarked ascending unmarked) bound other mem)

end VisitedAll

/-- The visits of a pass that started in the given generation. -/
theorem visitAll_elapses (asks : ∀ key, (client.watch key).StartsNoDigest)
    (listens : ∀ key new old, (client.listen key new old).StartsNoDigest) (base count : Nat)
    {generation : UInt64} {rest : List Nat} {dirty changed : Bool} (early : base ≤ count)
    (started : generation = w.origin + UInt64.ofNat count) (ascending : rest.Pairwise (· < ·))
    (below : ∀ id ∈ rest, id < w.scope.nextId)
    (run : visitAll client nested generation rest dirty w = some (changed, w')) :
    ∃ events, VisitedAll base count rest changed events w w' := by
  induction rest generalizing w dirty with
  | nil =>
    cases run
    exact ⟨[], .nil ..⟩
  | cons head rest ih =>
    have later := (List.pairwise_cons.1 ascending).2
    simp only [visitAll] at run
    cases found : w.scope.find? head with
    | none =>
      have passed : visit client nested generation head w = some (.clean, w) := by
        simp only [visit, found]
      rw [passed] at run
      obtain ⟨events, visited⟩ := ih started later
        (fun id mem => below id (List.mem_cons_of_mem _ mem)) run
      exact ⟨events, visited.skip found⟩
    | some watcher =>
      obtain ⟨_, rfl⟩ := Scope.find?_eq_some_iff.1 found
      cases passed : visit client nested generation watcher.id w with
      | none =>
        rw [passed] at run
        cases run
      | some result =>
        obtain ⟨turn, w₁⟩ := result
        obtain ⟨events, first⟩ := visit_elapses asks listens found passed
        rw [passed] at run
        by_cases stops : turn = .settled
        · subst stops
          cases run
          exact ⟨events, .stop first early started⟩
        · have goes : ∃ dirty, visitAll client nested generation rest dirty w₁ = some (changed, w') ∧
              (turn = .dirty → dirty = true) := by
            cases turn with
            | settled => exact absurd rfl stops
            | clean => exact ⟨dirty, run, by simp⟩
            | dirty => exact ⟨true, run, by simp⟩
          obtain ⟨dirty₁, others, dirties⟩ := goes
          obtain ⟨more, visited⟩ := ih (by rw [first.elapses.origin, started]) later
            (fun id mem => Nat.lt_of_lt_of_le (below id (List.mem_cons_of_mem _ mem))
              first.elapses.nextId) others
          refine ⟨more ++ events, .cons first early started ascending below (fun dirty => ?_) visited⟩
          exact dirty_of_visitAll (dirties dirty ▸ others)

end World
end DataBinding
