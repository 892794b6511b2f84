import DataBinding.Proofs.Moments
import DataBinding.Proofs.Passes
import Mathlib.Data.List.DropRight

/-! Watchers that are added while digests are on. Stopping a pass early never leaves out a watcher that
was added since the last pass started: adding it changed the generation, and the marks that the
rest of that pass sets are of the generation in which the pass started. -/
namespace DataBinding

variable {κ σ α : Type}

def Event.startsPass : Event → Bool
  | .passStarted => true
  | _ => false

/-- What happened since the last pass started. -/
def sinceStart (events : List Event) : List Event := events.takeWhile fun event => !event.startsPass

/-- Of what happened after the start of a pass, what happened before its end. -/
def passOf (later : List Event) : List Event := later.rtakeWhile fun event => !event.endsPass

section

variable {more pass later events : List Event}

theorem sinceStart_append (within : ∀ event ∈ more, event.startsPass = false) :
    sinceStart (more ++ events) = more ++ sinceStart events :=
  List.takeWhile_append_of_pos fun event mem => by simp [within event mem]

theorem sinceStart_started (within : ∀ event ∈ pass, event.startsPass = false) :
    sinceStart (pass ++ .passStarted :: events) = pass := by
  rw [sinceStart_append within, sinceStart, List.takeWhile_cons_of_neg (by simp [Event.startsPass]),
    List.append_nil]

theorem startsPass_eq_false (absent : .passStarted ∉ more) :
    ∀ event ∈ more, event.startsPass = false := by
  intro event mem
  cases event <;> first | rfl | exact absurd mem absent

/-- The first of the passes that started. -/
theorem first_started (mem : .passStarted ∈ events) :
    ∃ later mid, events = later ++ .passStarted :: mid ∧ .passStarted ∉ mid := by
  obtain ⟨mid, later, split, absent⟩ := List.eq_append_cons_of_mem (List.mem_reverse.2 mem)
  refine ⟨later.reverse, mid.reverse, ?_, by simpa using absent⟩
  rw [← List.reverse_reverse events, split]
  simp

theorem passOf_eq_self (within : ∀ event ∈ pass, event.endsPass = false) : passOf pass = pass :=
  List.rtakeWhile_eq_self_iff.2 fun event mem => by simp [within event mem]

/-- What happens after the end of a pass does not belong to it. -/
theorem passOf_ended {stop : Event} (ends : stop.endsPass = true) :
    passOf (more ++ stop :: later) = passOf later := by
  unfold passOf List.rtakeWhile
  rw [List.reverse_append, List.reverse_cons, List.append_assoc, List.takeWhile_append]
  split
  · rename_i whole
    rw [List.singleton_append, List.takeWhile_cons_of_neg (by simp [ends]), List.append_nil,
      (List.takeWhile_prefix _).eq_of_length whole]
  · rfl

end

namespace World

/-- A watcher that was registered before a pass has its turn in it, unless it was removed before. -/
def Greeted (id : Nat) (listens : Bool) (mid pass : List Event) : Prop :=
  .deregistered id ∈ mid ∨ Attended id pass ∧ (listens = true → Told id pass)

/-- The events since there were `base` changes to the set of watchers, and what they tell about the
state between passes. -/
structure Orderly (base : Nat) (before events : List Event) (w : World κ σ) : Prop where
  journal : w.journal = events ++ before
  marked : ∃ count, base ≤ count ∧ w.MarkedBy base count ∧
    count + (sinceStart events).countP Event.isStructural ≤ w.changes
  added : ∀ later id listens comparison earlier,
    sinceStart events = later ++ .registered id listens comparison :: earlier →
      id < w.scope.nextId ∧ (.deregistered id ∈ later ∨ w.Unseen id listens)
  greeted : ∀ later earlier, events = later ++ .passStarted :: earlier →
    ∀ mid id listens comparison rest,
      sinceStart earlier = mid ++ .registered id listens comparison :: rest →
        Greeted id listens mid (passOf later)
  calm : ∀ later passes earlier, events = later ++ .converged passes :: earlier →
    ∀ event ∈ sinceStart earlier, event.isCall = false

/-- Every pass that started has ended. -/
def Idle (events : List Event) : Prop :=
  ∀ later earlier, events = later ++ .passStarted :: earlier → ∃ event ∈ later, event.endsPass = true

theorem passOf_idle {events more later earlier : List Event} (idle : Idle events)
    (split : events = later ++ .passStarted :: earlier) : passOf (more ++ later) = passOf later := by
  obtain ⟨event, mem, ends⟩ := idle later earlier split
  obtain ⟨after, before, rfl⟩ := List.append_of_mem mem
  rw [← List.append_assoc, passOf_ended ends, passOf_ended ends]

namespace Orderly

variable {base : Nat} {before events more : List Event} {w w' : World κ σ}

theorem mark (orderly : w.Orderly base before events) :
    (w.mark none).Orderly base before events where
  journal := orderly.journal
  marked := by
    obtain ⟨count, early, _, counted⟩ := orderly.marked
    exact ⟨count, early, nofun, counted⟩
  added := orderly.added
  greeted := orderly.greeted
  calm := orderly.calm

/-- What callables and clients do outside of passes. -/
theorem elapses (orderly : w.Orderly base before events) (idle : Idle events)
    (elapses : Elapses (fun _ => False) more w w') (follows : w.Follows w')
    (operations : ∀ event ∈ more, event.isOperation = true) :
    w'.Orderly base before (more ++ events) ∧ Idle (more ++ events) := by
  have operation : ∀ {event}, event ∈ more → event.isOperation = true := fun mem => operations _ mem
  have since : sinceStart (more ++ events) = more ++ sinceStart events :=
    sinceStart_append fun event mem => by
      have operation := operations event mem
      cases event <;> first | rfl | cases operation
  have split : ∀ later event earlier, event.isOperation = false →
      more ++ events = later ++ event :: earlier →
        ∃ rest, later = more ++ rest ∧ events = rest ++ event :: earlier := by
    intro later event earlier other split
    rcases List.append_eq_append_cons split with ⟨rest, here, _⟩ | here
    · have operation := operations event (by simp [here])
      exact absurd operation (by simp [other])
    · exact here
  refine ⟨⟨by rw [elapses.journal, orderly.journal, List.append_assoc], ?_, ?_, ?_, ?_⟩, ?_⟩
  · obtain ⟨count, early, marked, counted⟩ := orderly.marked
    refine ⟨count, early, fun marker here => ?_, ?_⟩
    · rw [elapses.origin]
      rcases follows.steps with ⟨_, same, _⟩ | ⟨_, lost⟩
      · exact marked marker (same.symm.trans here)
      · cases lost.symm.trans here
    · rw [since, List.countP_append, elapses.changes_eq]
      omega
  · intro later id listens comparison earlier given
    rw [since] at given
    rcases List.append_eq_append_cons given with ⟨rest, here, _⟩ | ⟨rest, rfl, here⟩
    · obtain ⟨_, below, fresh⟩ := elapses.added _ _ _ _ _ here
      exact ⟨below, fresh⟩
    · obtain ⟨below, fresh⟩ := orderly.added _ _ _ _ _ here
      refine ⟨Nat.lt_of_lt_of_le below elapses.nextId, ?_⟩
      rcases fresh with removal | ⟨watcher, found, unseen⟩
      · exact .inl (List.mem_append_right _ removal)
      · rcases elapses.kept id watcher (fun mem => mem) found with still | ⟨_, removal⟩
        · exact .inr ⟨watcher, still, unseen⟩
        · exact .inl (List.mem_append_left _ removal)
  · intro later earlier given mid id listens comparison rest added
    obtain ⟨rest', rfl, here⟩ := split _ _ _ rfl given
    rw [passOf_idle idle here]
    exact orderly.greeted _ _ here _ _ _ _ _ added
  · intro later passes earlier given
    obtain ⟨rest, rfl, here⟩ := split _ _ _ rfl given
    exact orderly.calm _ _ _ here
  · intro later earlier given
    obtain ⟨rest, rfl, here⟩ := split _ _ _ rfl given
    obtain ⟨event, mem, ends⟩ := idle _ _ here
    exact ⟨event, List.mem_append_right _ mem, ends⟩

/-- A digest ends. -/
theorem ends (orderly : w.Orderly base before events) {stop : Event} (ends : stop.endsPass = true)
    (starts : stop.startsPass = false) (calm : ∀ passes, stop = .converged passes →
      ∀ event ∈ sinceStart events, event.isCall = false) :
    (w.report stop).Orderly base before (stop :: events) ∧ Idle (stop :: events) := by
  have plain : stop.isStructural = false := by cases stop <;> first | rfl | cases ends
  have since : sinceStart (stop :: events) = stop :: sinceStart events :=
    List.takeWhile_cons_of_pos (by simp [starts])
  have started : ∀ later earlier, stop :: events = later ++ .passStarted :: earlier →
      ∃ rest, later = stop :: rest ∧ events = rest ++ .passStarted :: earlier := by
    intro later earlier given
    cases later with
    | nil =>
      cases given
      cases starts
    | cons event rest =>
      cases given
      exact ⟨rest, rfl, rfl⟩
  refine ⟨⟨congrArg (_ :: ·) orderly.journal, ?_, ?_, ?_, ?_⟩, ?_⟩
  · obtain ⟨count, early, marked, counted⟩ := orderly.marked
    refine ⟨count, early, fun marker here => ?_, ?_⟩
    · rw [(Follows.report w plain).origin]
      exact marked marker here
    · rw [since, List.countP_cons_of_neg (by simp [plain]), changes_report w plain]
      exact counted
  · intro later id listens comparison earlier given
    rw [since] at given
    cases later with
    | nil =>
      cases given
      cases plain
    | cons event rest =>
      obtain ⟨rfl, here⟩ := List.cons.inj given
      exact (orderly.added _ _ _ _ _ here).imp_right fun fresh =>
        fresh.imp_left (List.mem_cons_of_mem _)
  · intro later earlier given
    obtain ⟨rest, rfl, here⟩ := started _ _ given
    have same : passOf (stop :: rest) = passOf rest := by
      rw [← List.nil_append (stop :: rest), passOf_ended ends]
    rw [same]
    exact orderly.greeted _ _ here
  · intro later passes earlier given
    cases later with
    | nil =>
      cases given
      exact calm passes rfl
    | cons event rest =>
      obtain ⟨rfl, here⟩ := List.cons.inj given
      exact orderly.calm _ _ _ here
  · intro later earlier given
    obtain ⟨rest, rfl, _⟩ := started _ _ given
    exact ⟨stop, List.mem_cons_self, ends⟩

end Orderly

variable {base : Nat} {before events : List Event} {w w' : World κ σ} {client : Client κ σ}
  {nested : Digest κ σ}

/-- A pass has a turn for every watcher that was added since the pass before it started: adding it
changed the generation, so that no watcher counts as marked any more. -/
theorem Orderly.turns (orderly : w.Orderly base before events) {changed : Bool} {pass : List Event}
    (visited : VisitedAll base w.changes w.scope.ids changed pass (w.report .passStarted) w')
    (bound : w'.changes < base + UInt64.size) {mid rest : List Event} {id : Nat} {listens : Bool}
    {comparison : Comparison} (added : sinceStart events = mid ++ .registered id listens comparison :: rest) :
    Greeted id listens mid pass := by
  obtain ⟨count, _, marked, counted⟩ := orderly.marked
  have structural : 0 < (sinceStart events).countP Event.isStructural := by
    rw [added]
    exact List.countP_pos_iff.2 ⟨_, List.mem_append_right _ List.mem_cons_self, rfl⟩
  have unmarked : (w.report .passStarted).Unmarked base w.scope.ids := by
    intro marker here
    obtain ⟨early, based, less, set⟩ := marked marker here
    rw [changes_report w rfl, (Follows.report w rfl).origin]
    exact .inr ⟨early, based, by omega, set⟩
  obtain ⟨_, removal | ⟨watcher, found, fresh, listener⟩⟩ := orderly.added _ _ _ _ _ added
  · exact .inl removal
  · obtain ⟨attended, told⟩ := visited.attended unmarked bound id (Scope.mem_ids_of_find? found)
      (by rw [show (w.report .passStarted).scope.find? id = some watcher from found]; rfl)
    exact .inr ⟨attended, fun listens => told ⟨watcher, found, fresh, listener.trans listens⟩⟩

/-- The events stay in order over a pass. -/
theorem Orderly.pass (asks : ∀ key, (client.watch key).StartsNoDigest)
    (listens : ∀ key new old, (client.listen key new old).StartsNoDigest) {changed : Bool}
    (orderly : w.Orderly base before events) (run : pass client nested w = some (changed, w'))
    (bound : w'.changes < base + UInt64.size) :
    ∃ events', w'.Orderly base before events' ∧
      (changed = false → ∀ event ∈ sinceStart events', event.isCall = false) := by
  obtain ⟨count, early, marked, counted⟩ := orderly.marked
  have origin : (w.report .passStarted).origin = w.origin := (Follows.report w rfl).origin
  have changes : (w.report .passStarted).changes = w.changes := changes_report w rfl
  have based : base ≤ w.changes := by omega
  obtain ⟨pass, visited⟩ := visitAll_elapses asks listens base w.changes based
    (by rw [origin, ← generation_eq]) w.scope.ascending
    (fun id mem => by
      obtain ⟨watcher, inside, rfl⟩ := List.mem_map.1 mem
      exact w.scope.below watcher inside) run
  have inside : ∀ event ∈ pass, event.endsPass = false :=
    fun event mem => (visited.elapses.inside event mem).1
  have since : sinceStart (pass ++ .passStarted :: events) = pass :=
    sinceStart_started fun event mem => by
      have going := inside event mem
      cases event <;> first | rfl | cases going
  -- an end of a pass is not among the events of this one
  have split : ∀ later event earlier, event.endsPass = true →
      pass ++ .passStarted :: events = later ++ event :: earlier →
        ∃ rest, later = pass ++ rest ∧ .passStarted :: events = rest ++ event :: earlier := by
    intro later event earlier ends given
    rcases List.append_eq_append_cons given with ⟨rest, here, _⟩ | here
    · have going := inside event (by simp [here])
      exact absurd ends (by simp [going])
    · exact here
  refine ⟨pass ++ .passStarted :: events, ⟨?_, ?_, ?_, ?_, ?_⟩, by rw [since]; exact visited.calm⟩
  · rw [visited.elapses.journal, show (w.report .passStarted).journal = .passStarted :: w.journal
      from rfl, orderly.journal, List.append_assoc, List.cons_append]
  · refine ⟨w.changes, based, visited.marked fun marker here => ?_, ?_⟩
    · obtain ⟨earlier, after, less, set⟩ := marked marker here
      exact ⟨earlier, after, by omega, origin ▸ set⟩
    · rw [since, visited.elapses.changes_eq, changes]
      omega
  · intro later id listens' comparison earlier given
    rw [since] at given
    obtain ⟨_, below, fresh⟩ := visited.elapses.added _ _ _ _ _ given
    exact ⟨below, fresh⟩
  · intro later earlier given mid id listens' comparison rest added
    obtain ⟨between, rfl, later⟩ := split _ _ _ rfl given
    cases between with
    | nil =>
      cases later
      rw [List.append_nil, passOf_eq_self inside]
      exact orderly.turns visited bound added
    | cons event between =>
      obtain ⟨rfl, here⟩ := List.cons.inj later
      rw [passOf_ended rfl]
      exact orderly.greeted _ _ here _ _ _ _ _ added
  · intro later passes earlier given
    obtain ⟨between, rfl, later⟩ := split _ _ _ rfl given
    cases between with
    | nil => cases later
    | cons event between =>
      obtain ⟨rfl, here⟩ := List.cons.inj later
      exact orderly.calm _ _ _ here

theorem Orderly.passes (asks : ∀ key, (client.watch key).StartsNoDigest)
    (listens : ∀ key new old, (client.listen key new old).StartsNoDigest)
    (keeps : ∀ n, nested.Keeps fun _ w => n ≤ w.changes) {left done : Nat}
    {outcome : Except Divergence Unit} (orderly : w.Orderly base before events)
    (run : passes client nested left done w = some (outcome, w'))
    (bound : w'.changes < base + UInt64.size) :
    ∃ events', w'.Orderly base before events' ∧ Idle events' := by
  induction left generalizing w done events with
  | zero =>
    cases run
    exact ⟨_, orderly.ends rfl rfl (by simp)⟩
  | succ left ih =>
    simp only [World.passes] at run
    cases passed : World.pass client nested w with
    | none =>
      rw [passed] at run
      cases run
    | some result =>
      obtain ⟨changed, w₁⟩ := result
      rw [passed] at run
      cases changed with
      | false =>
        cases run
        obtain ⟨events', orderly', calm⟩ := orderly.pass asks listens passed
          (Nat.lt_of_le_of_lt (changes_le_report _ _) bound)
        exact ⟨_, orderly'.ends rfl rfl fun _ _ => calm rfl⟩
      | true =>
        have later := (stable_changes w₁.changes).passes (keeps _) [] run (Nat.le_refl _)
        obtain ⟨events', orderly', _⟩ := orderly.pass asks listens passed
          (Nat.lt_of_le_of_lt later bound)
        exact ih orderly' run

/-- Nothing that a client does between its callables' turns breaks the order of the events. -/
theorem Orderly.script (asks : ∀ key, (client.watch key).StartsNoDigest)
    (listens : ∀ key new old, (client.listen key new old).StartsNoDigest) {depth : Nat}
    {script : Script κ σ α} {values values' : List Value} {exit : Exit α}
    (run : script.run (digest client depth) values w = some (exit, values', w'))
    (orderly : w.Orderly base before events) (idle : Idle events)
    (bound : w'.changes < base + UInt64.size) :
    ∃ events', w'.Orderly base before events' ∧ Idle events' := by
  refine Script.run_induction (I := fun _ w => w.changes < base + UInt64.size →
    ∃ events, w.Orderly base before events ∧ Idle events) ?_ ?_ run (fun _ => ⟨events, orderly, idle⟩)
    bound
  · intro op answer values w values' w' step inv bound
    have stepped := Op.run_stepped step
    obtain ⟨events, orderly, idle⟩ := inv (Nat.lt_of_le_of_lt stepped.follows.changes_le bound)
    obtain ⟨more, elapses, operations⟩ := stepped.elapses
    exact ⟨_, orderly.elapses idle elapses stepped.follows operations⟩
  · intro values w outcome w' digested inv bound
    have later := (stable_changes w.changes).digest client depth [] digested (Nat.le_refl _)
    obtain ⟨events, orderly, idle⟩ := inv (Nat.lt_of_le_of_lt later bound)
    cases depth with
    | zero => cases digested
    | succ depth =>
      exact orderly.mark.passes asks listens (fun n => (stable_changes n).digest client depth)
        digested bound

theorem reaches_orderly (asks : ∀ key, (client.watch key).StartsNoDigest)
    (listens : ∀ key new old, (client.listen key new old).StartsNoDigest) {config : Config}
    {w v : World κ σ} (reaches : Reaches client (w.renew config) v)
    (bound : v.changes < w.changes + UInt64.size) :
    ∃ events, v.Orderly w.changes w.journal events ∧ Idle events := by
  induction reaches with
  | start =>
    refine ⟨[], ⟨rfl, ⟨w.changes, Nat.le_refl _, nofun, Nat.le_refl _⟩, ?_, ?_, ?_⟩, ?_⟩ <;>
      simp [sinceStart, Idle]
  | @run w₁ w₂ _ depth script exit _ ran ih =>
    unfold World.runScript at ran
    obtain ⟨⟨_, values, _⟩, ran, same⟩ := Option.map_eq_some_iff.1 ran
    cases same
    have later := (stable_changes w₁.changes).script
      ((stable_changes w₁.changes).digest client depth) [] ran (Nat.le_refl _)
    obtain ⟨events, orderly, idle⟩ := ih (Nat.lt_of_le_of_lt later bound)
    exact orderly.script asks listens ran idle bound

/-- The first pass that starts after a watcher was registered asks it once, unless it was removed
before its turn, and then calls its listener, unless the watcher failed. A watcher that was
registered in a pass that had called a listener before, and not removed, has had its turn when the
digest converges. This is so in every run over a scope in which no callable starts a digest and the
set of watchers has changed fewer than 2^64 times. -/
theorem newcomers_attended (client : Client κ σ) (asks : ∀ key, (client.watch key).StartsNoDigest)
    (listens : ∀ key new old, (client.listen key new old).StartsNoDigest) (config : Config)
    {w v : World κ σ} (reaches : Reaches client (w.renew config) v)
    (bound : v.changes < w.changes + UInt64.size) : ∃ events, v.journal = events ++ w.journal ∧
      (∀ later mid id listens comparison earlier,
        events = later ++ .passStarted :: (mid ++ .registered id listens comparison :: earlier) →
          .passStarted ∉ mid → Greeted id listens mid (passOf later)) ∧
      ∀ later passes after id listens comparison between called new old heap earlier,
        events = later ++ .converged passes :: (after ++ .registered id listens comparison ::
          (between ++ .fired called new old heap :: earlier)) →
        .passStarted ∉ between → .deregistered id ∉ after →
          ∃ rest mid, after = rest ++ .passStarted :: mid ∧ .passStarted ∉ mid ∧
            (passOf rest).countP (Event.asks id) = 1 ∧
            (listens = true → (∃ fault, .faulted id .watch fault ∈ passOf rest) ∨
              ∃ new old heap, .fired id new old heap ∈ passOf rest) := by
  obtain ⟨events, orderly, _⟩ := reaches_orderly asks listens reaches bound
  have greeted : ∀ later mid id listens comparison earlier,
      events = later ++ .passStarted :: (mid ++ .registered id listens comparison :: earlier) →
        .passStarted ∉ mid → Greeted id listens mid (passOf later) := by
    intro later mid id listens comparison earlier split absent
    refine orderly.greeted _ _ split mid id listens comparison (sinceStart earlier) ?_
    rw [sinceStart_append (startsPass_eq_false absent)]
    exact congrArg _ (List.takeWhile_cons_of_pos rfl)
  refine ⟨events, orderly.journal, greeted, ?_⟩
  intro later passes after id listens comparison between called new old heap earlier split absent kept
  -- the pass that found no change called no listener, so it is another one
  have started : .passStarted ∈ after := by
    by_contra still
    have last : sinceStart ((after ++ .registered id listens comparison :: between) ++
          .fired called new old heap :: earlier) =
        (after ++ .registered id listens comparison :: between) ++
          sinceStart (.fired called new old heap :: earlier) :=
      sinceStart_append (startsPass_eq_false (by simp [still, absent]))
    have quiet := orderly.calm _ _ _ split (.fired called new old heap) (by
      rw [← List.cons_append, ← List.append_assoc, last]
      exact List.mem_append_right _ (by simp [sinceStart, Event.startsPass]))
    cases quiet
  obtain ⟨rest, mid, rfl, first⟩ := first_started started
  have turn := greeted (later ++ .converged passes :: rest) mid id listens comparison
    (between ++ .fired called new old heap :: earlier) (by simp [split]) first
  rw [passOf_ended rfl] at turn
  have within : ∀ {event}, event ∈ passOf rest → event ∈ rest :=
    fun mem => (List.rtakeWhile_suffix _ _).subset mem
  have remains : .deregistered id ∉ passOf rest := fun mem =>
    kept (List.mem_append_left _ (within mem))
  rcases turn with removal | ⟨attended, told⟩
  · exact absurd (List.mem_append_right _ (List.mem_cons_of_mem _ removal)) kept
  · refine ⟨rest, mid, rfl, first, ?_, fun listener => ?_⟩
    · rcases attended with once | ⟨_, _, _, removed, _⟩
      · exact once
      · exact absurd (by simp [removed]) remains
    · rcases told listener with fault | removal | fired
      · exact .inl fault
      · exact absurd removal remains
      · exact .inr fired

/-- A listener that registers a second watcher, which has a listener of its own. -/
def recruiter : Client Bool Unit where
  watch _ := do
    let v ← Script.obtain (.get "a")
    return .ok v
  listen second _ _ := do
    if !second then
      let _ ← Script.register true (some true) .reference
    return .ok ()

def recruiting : Script Bool Unit Unit := do
  let _ ← Script.register false (some false) .reference
  let _ ← Script.digest

theorem newcomers_attended_recruiting : ∃ v : World Bool Unit,
    Reaches recruiter ((World.initial .default ()).renew .default) v ∧
    v.changes < UInt64.size ∧ ∃ after earlier,
      v.journal = .converged 3 :: (after ++ .registered 1 true .reference :: earlier) ∧
      ∃ rest mid, after = rest ++ .passStarted :: mid ∧ .passStarted ∉ mid ∧
        (passOf rest).countP (Event.asks 1) = 1 ∧
        ((∃ fault, .faulted 1 .watch fault ∈ passOf rest) ∨
          ∃ new old heap, .fired 1 new old heap ∈ passOf rest) := by
  have asks : ∀ key, (recruiter.watch key).StartsNoDigest := fun key => ⟨rfl, fun _ => trivial⟩
  have listens : ∀ key new old, (recruiter.listen key new old).StartsNoDigest := by
    rintro (_ | _) new old
    · exact ⟨rfl, fun _ => trivial⟩
    · trivial
  obtain ⟨exit, v, ran, few, a, b, c, d, e, f, g, h, i, j, k, new, old, heap, earlier, split, kept⟩ :
      ∃ exit v, ((World.initial .default ()).renew .default).runScript recruiter 1 recruiting =
        some (exit, v) ∧ v.changes = 2 ∧ ∃ a b c d e f g h i j k new old heap earlier,
          v.journal = .converged 3 :: ([a, b, c, d, e, f, g, h, i, j, k] ++
            .registered 1 true .reference :: .fired 0 new old heap :: earlier) ∧
          removed [a, b, c, d, e, f, g, h, i, j, k] 1 = false :=
    ⟨_, _, rfl, by decide +kernel, _, _, _, _, _, _, _, _, _, _, _, _, _, _, _, rfl, rfl⟩
  have bound : v.changes < UInt64.size := few ▸ by decide
  have reaches := Reaches.start.run ran
  obtain ⟨events, journal, _, attended⟩ := newcomers_attended recruiter asks listens .default reaches
    (Nat.lt_add_left _ bound)
  obtain ⟨rest, mid, here, first, once, told⟩ := attended [] 3 _ 1 true .reference [] 0 new old heap
    earlier ((journal.trans (List.append_nil _)).symm.trans split) (by simp)
    (fun mem => by simp [removed_iff.2 mem] at kept)
  exact ⟨v, reaches, bound, _, _, split, rest, mid, here, first, once, told rfl⟩

end World
end DataBinding
