import DataBinding.Proofs.Convergence
import DataBinding.Proofs.Passes

/-! Digests that do not settle. Without nested digests a watcher that changes whenever it is asked
is never left out: a pass stops early only at the marked watcher, and up to the turn of the
changing one no watcher that is still to come is marked. So there is a change in every pass, and
the passes go on to the limit. -/
namespace DataBinding

variable {κ σ α : Type}

/-- The listener of the watcher is called. -/
def Event.fires (id : Nat) : Event → Bool
  | .fired watcher _ _ _ => watcher == id
  | _ => false

theorem Event.fires_of_not_call {event : Event} (quiet : event.isCall = false) (id : Nat) :
    event.fires id = false := by
  cases event <;> first | rfl | cases quiet

theorem Event.fires_of_isOperation {event : Event} (operation : event.isOperation = true)
    (id : Nat) : event.fires id = false := by
  cases event <;> first | rfl | cases operation

namespace World

/-! What stays. -/

theorem stable_config (config : Config) :
    Stable (κ := κ) (σ := σ) fun _ w => w.scope.config = config where
  fewer := fun _ same => same
  step := by
    intro held values values' w w' op answer run same
    cases Op.run_stepped run with
    | changed | remarked | registered => exact same
    | deregistered id =>
      unfold World.deregister
      split <;> exact same
  report := fun _ _ same => same
  asked := fun _ same => same
  call := fun _ same => same
  mark := fun _ same => same
  matched := fun _ _ same => same
  changed := by
    intro held w watcher new marker _ _ same
    simp only [announce]
    split <;> exact same

/-- Since the journal was `before` the watcher has been removed, or it still has its listener. -/
def Listening (id : Nat) (listener : Option κ) (before : List Event) (w : World κ σ) : Prop :=
  ∃ events, w.journal = events ++ before ∧ (.deregistered id ∈ events ∨
    ∃ watcher, w.scope.find? id = some watcher ∧ watcher.listener = listener)

namespace Listening

variable {id : Nat} {listener : Option κ} {before : List Event} {w w' : World κ σ}

theorem carry (listening : w.Listening id listener before) (journal : w'.journal = w.journal)
    (same : ∀ watcher, w.scope.find? id = some watcher →
      ∃ watcher', w'.scope.find? id = some watcher' ∧ watcher'.listener = watcher.listener) :
    w'.Listening id listener before := by
  obtain ⟨events, split, gone | ⟨watcher, found, listens⟩⟩ := listening
  · exact ⟨events, journal.trans split, .inl gone⟩
  · obtain ⟨watcher', found', listens'⟩ := same watcher found
    exact ⟨events, journal.trans split, .inr ⟨watcher', found', listens'.trans listens⟩⟩

theorem report (listening : w.Listening id listener before) (event : Event) :
    (w.report event).Listening id listener before := by
  obtain ⟨events, split, kept⟩ := listening
  exact ⟨event :: events, congrArg (event :: ·) split, kept.imp_left (List.mem_cons_of_mem _)⟩

end Listening

theorem stable_listening (id : Nat) (listener : Option κ) (before : List Event) :
    Stable (κ := κ) (σ := σ) fun _ w => w.Listening id listener before where
  fewer := fun _ listening => listening
  step := by
    intro held values values' w w' op answer run listening
    cases Op.run_stepped run with
    | changed => exact listening.carry rfl fun watcher found => ⟨watcher, found, rfl⟩
    | remarked => exact listening.report _
    | registered cache source listener' comparison =>
      have added : ({ w with
          cache, scope := w.scope.add source listener' comparison } : World κ σ).Listening id
            listener before := by
        refine listening.carry rfl fun watcher found => ⟨watcher, ?_, rfl⟩
        show (w.scope.add source listener' comparison).find? id = _
        rw [Scope.find?_add, if_neg (Nat.ne_of_lt (Scope.lt_nextId_of_find? found)), found]
      exact added.report _
    | deregistered other =>
      unfold World.deregister
      split
      · by_cases same : id = other
        · obtain ⟨events, split, -⟩ := listening
          exact ⟨.deregistered other :: events, congrArg _ split, .inl (by simp [same])⟩
        · have removed : ({ w with scope := w.scope.remove other } : World κ σ).Listening id
              listener before := by
            refine listening.carry rfl fun watcher found => ⟨watcher, ?_, rfl⟩
            show (w.scope.remove other).find? id = _
            rw [Scope.find?_remove, if_neg same, found]
          exact removed.report _
      · exact listening
  report := fun _ _ listening => listening.report _
  asked := fun _ listening => listening.report _
  call := fun _ listening => listening.carry rfl fun watcher found => ⟨watcher, found, rfl⟩
  mark := fun _ listening => listening.carry rfl fun watcher found => ⟨watcher, found, rfl⟩
  matched := fun _ _ listening => listening.report _
  changed := by
    intro held w watcher new marker _ _ listening
    have recorded : ((((w.report (.answered watcher.id new w.heap)).mark marker).record
        watcher new).2).Listening id listener before := by
      refine (listening.report (.answered watcher.id new w.heap)).carry rfl fun other found => ?_
      show ∃ other', (w.scope.setLast watcher.id _).find? id = _ ∧ _
      by_cases same : id = watcher.id
      · subst same
        rw [Scope.find?_setLast, show w.scope.find? watcher.id = _ from found]
        exact ⟨_, rfl, rfl⟩
      · exact ⟨other, (Scope.find?_setLast_of_ne same).trans found, rfl⟩
    simp only [announce]
    split
    · exact recorded
    · exact recorded.report _

variable {client : Client κ σ} {nested : Digest κ σ} {w w' : World κ σ} {generation : UInt64}

theorem Elapses.fires_eq {visited : Nat → Prop} {events : List Event} {id : Nat}
    (elapses : Elapses visited events w w') (quiet : ∀ event ∈ events, event.fires id = false) :
    w'.journal.countP (Event.fires id) = w.journal.countP (Event.fires id) := by
  have none : events.countP (Event.fires id) = 0 := List.countP_eq_zero.2 fun event mem => by
    simp [quiet event mem]
  rw [elapses.journal, List.countP_append, none, Nat.zero_add]

section

variable (asks : ∀ key, (client.watch key).StartsNoDigest)
  (listens : ∀ key new old, (client.listen key new old).StartsNoDigest)

include asks listens

/-! Single visits. -/

theorem visit_returns (nested : Digest κ σ) (generation : UInt64) (id : Nat) (w : World κ σ) :
    ∃ turn w', visit client nested generation id w = some (turn, w') := by
  have evaluates (watcher : Watcher κ) (w : World κ σ) :
      ∃ result, evaluate client nested watcher w = some result := by
    unfold evaluate
    cases watcher.source with
    | expression accessor => exact ⟨_, rfl⟩
    | callable key =>
      obtain ⟨⟨exit, values, w₁⟩, run⟩ := (asks key).run [] (w.report (.asked watcher.id))
      simp only [Script.run_eq nested run]
      rcases exit with (message | ref) | panic <;> exact ⟨_, rfl⟩
  have tells (watcher : Watcher κ) (new : Value) (w : World κ σ) :
      ∃ w', tell client nested watcher new w = some w' := by
    cases heard : watcher.listener with
    | none =>
      unfold tell react
      rw [heard]
      exact ⟨_, rfl⟩
    | some key =>
      obtain ⟨⟨exit, values, w₁⟩, run⟩ := (listens key ⟨0⟩ ⟨1⟩).run
        [new, (w.announce watcher new).1] (w.announce watcher new).2
      obtain ⟨result, told⟩ := tell_of_run heard (Script.run_eq nested run)
      exact ⟨_, told⟩
  unfold visit
  cases w.scope.find? id with
  | none => exact ⟨_, _, rfl⟩
  | some watcher =>
    obtain ⟨⟨answer, w₁⟩, evaluated⟩ := evaluates watcher w
    simp only [evaluated]
    cases answer with
    | error fault => exact ⟨_, _, rfl⟩
    | ok new =>
      cases still : w₁.scope.find? id with
      | none => exact ⟨_, _, by simp only [still]; rfl⟩
      | some watcher' =>
        simp only [still]
        cases matched : watcher'.isSettled (w₁.report (.answered id new w₁.heap)).heap new with
        | true => exact ⟨_, _, if_pos matched⟩
        | false =>
          obtain ⟨w₂, told⟩ := tells watcher' new
            ((w₁.report (.answered id new w₁.heap)).mark (some ⟨watcher'.id, generation⟩))
          exact ⟨.dirty, w₂, by rw [settle_changed nested generation matched, told, Option.map_some]⟩

omit asks in
/-- Telling a watcher calls its listener once and no other. -/
theorem tell_fires {watcher : Watcher κ} {new : Value}
    (run : tell client nested watcher new w = some w') (id : Nat) :
    w'.journal.countP (Event.fires id) = w.journal.countP (Event.fires id) +
      if watcher.listener.isSome ∧ id = watcher.id then 1 else 0 := by
  have announced : (w.announce watcher new).2.journal.countP (Event.fires id) =
      w.journal.countP (Event.fires id) +
        if watcher.listener.isSome ∧ id = watcher.id then 1 else 0 := by
    unfold announce
    cases watcher.listener with
    | none => simp [record]
    | some key =>
      by_cases same : id = watcher.id
      · simp [record, World.report, Event.fires, same]
      · have apart : ¬ watcher.id = id := fun equal => same equal.symm
        simp [record, World.report, Event.fires, same, apart]
  rcases tell_cases run with rfl | ⟨key, exit, values, w₁, result, rfl, ran⟩
  · exact announced
  · obtain ⟨-, events, elapses, operations⟩ := (listens key ⟨0⟩ ⟨1⟩).elapses ran
    have listened := elapses.fires_eq fun event mem =>
      Event.fires_of_isOperation (operations event mem) id
    have absorbed : (w₁.absorb watcher.id .listener result).journal.countP (Event.fires id) =
        w₁.journal.countP (Event.fires id) := by
      cases result <;> simp [absorb, World.report, Event.fires]
    rw [absorbed, listened, announced]

/-- A visit calls the listener of its watcher if it finds a change, and no other. -/
theorem visit_fires {watcher : Watcher κ} {turn : Turn}
    (found : w.scope.find? watcher.id = some watcher)
    (run : visit client nested generation watcher.id w = some (turn, w')) (id : Nat) :
    w'.journal.countP (Event.fires id) = w.journal.countP (Event.fires id) +
      if turn = .dirty ∧ watcher.listener.isSome ∧ id = watcher.id then 1 else 0 := by
  unfold visit at run
  simp only [found] at run
  cases evaluated : evaluate client nested watcher w with
  | none =>
    rw [evaluated] at run
    cases run
  | some result =>
    obtain ⟨answer, w₁⟩ := result
    obtain ⟨events, elapses, -, calm, -, stays⟩ := asked_elapses asks found evaluated
    have asked : w₁.journal.countP (Event.fires id) = w.journal.countP (Event.fires id) :=
      elapses.fires_eq fun event mem => Event.fires_of_not_call (calm event mem) id
    rw [evaluated] at run
    cases answer with
    | error fault =>
      cases run
      simpa [absorb, World.report, Event.fires] using asked
    | ok new =>
      simp only at run
      rcases stays with still | ⟨absent, -⟩
      · simp only [still] at run
        have answered : (w₁.report (.answered watcher.id new w₁.heap)).journal.countP
            (Event.fires id) = w.journal.countP (Event.fires id) := by
          simpa [World.report, Event.fires] using asked
        cases matched : watcher.isSettled (w₁.report (.answered watcher.id new w₁.heap)).heap new with
        | true =>
          rw [settle, if_pos matched] at run
          obtain ⟨rfl, rfl⟩ := Prod.mk.inj (Option.some.inj run)
          have clean (h : Prop) [Decidable h] : (if h then Turn.settled else .clean) ≠ .dirty := by
            split <;> simp
          rw [answered, if_neg fun dirty => clean _ dirty.1]
          rfl
        | false =>
          rw [settle_changed nested generation matched] at run
          obtain ⟨w₂, told, result⟩ := Option.map_eq_some_iff.1 run
          cases result
          have fires := tell_fires listens told id
          have marked : (World.mark (some ⟨watcher.id, generation⟩)
              (w₁.report (.answered watcher.id new w₁.heap))).journal =
              (w₁.report (.answered watcher.id new w₁.heap)).journal := rfl
          rw [marked, answered] at fires
          simpa using fires
      · simp only [absent] at run
        cases run
        simpa using asked

/-- What the turn of a watcher does in a pass that started in the given generation. -/
structure Turned (generation : UInt64) (id : Nat) (turn : Turn) (events : List Event)
    (w w' : World κ σ) : Prop where
  elapses : Elapses (· = id) events w w'
  asked : events.countP (Event.asks id) = if (w.scope.find? id).isSome then 1 else 0
  told : turn = .dirty → ∃ watcher, w.scope.find? id = some watcher ∧
    events.countP (Event.fires id) = if watcher.listener.isSome then 1 else 0
  silent : ∀ other, turn = .dirty ∧ other = id ∨ events.countP (Event.fires other) = 0
  marker : ∀ marker, w'.scope.marker = some marker →
    if turn = .dirty then marker.watcher = id else w.scope.marker = some marker
  settled : turn = .settled → ∃ marker, marker.watcher = id ∧ w.scope.marker = some marker

omit asks listens in
/-- A visit asks no other watcher. -/
theorem Turned.unasked {turn : Turn} {id other : Nat} {events : List Event}
    (turned : Turned generation id turn events w w') (apart : other ≠ id) :
    events.countP (Event.asks other) = 0 :=
  List.countP_eq_zero.2 fun event mem asks => apart ((turned.elapses.inside event mem).2 other asks)

theorem visit_turned {turn : Turn} {id : Nat}
    (run : visit client nested generation id w = some (turn, w')) :
    ∃ events, Turned generation id turn events w w' := by
  cases found : w.scope.find? id with
  | none =>
    simp only [visit, found] at run
    cases run
    exact ⟨[], .refl _ w, by simp [found], by simp, by simp, fun _ same => same, by simp⟩
  | some watcher =>
    obtain ⟨_, rfl⟩ := Scope.find?_eq_some_iff.1 found
    obtain ⟨events, visited⟩ := visit_elapses asks listens found run
    have fires := visit_fires asks listens found run
    simp only [visited.elapses.journal, List.countP_append] at fires
    refine ⟨events, visited.elapses, by rw [visited.once, found]; rfl, ?_, ?_, ?_, ?_⟩
    · rintro rfl
      refine ⟨watcher, found, ?_⟩
      have here := fires watcher.id
      simp only [true_and, and_true] at here
      omega
    · intro other
      by_cases here : turn = .dirty ∧ other = watcher.id
      · exact .inl here
      · have none := fires other
        rw [if_neg fun parts => here ⟨parts.1, parts.2.2⟩] at none
        exact .inr (by omega)
    · intro marker after
      rcases visited.marker with lost | same
      · cases lost.symm.trans after
      · split at same
        · rename_i dirty
          cases same.symm.trans after
          exact (if_pos dirty).symm ▸ rfl
        · rename_i clean
          exact (if_neg clean).symm ▸ same.symm.trans after
    · rintro rfl
      have here := visited.settled rfl
      rcases visited.marker with lost | same
      · cases lost.symm.trans here
      · exact ⟨_, rfl, same.symm.trans here⟩

end

/-! Whole passes. -/

/-- A watcher that was registered before is found there afterwards only if it was there. -/
theorem Elapses.before {visited : Nat → Prop} {events : List Event} {id : Nat} {watcher : Watcher κ}
    (elapses : Elapses visited events w w') (apart : ¬ visited id) (below : id < w.scope.nextId)
    (found : w'.scope.find? id = some watcher) : w.scope.find? id = some watcher := by
  cases here : w.scope.find? id with
  | none =>
    have absent := (elapses.gone id below here).1
    cases absent.symm.trans found
  | some earlier =>
    rcases elapses.kept id earlier apart here with still | ⟨absent, _⟩
    · exact still.symm.trans found
    · cases absent.symm.trans found

/-- What visits to the watchers of `rest` do that find those of `changed` changed. -/
structure Surveyed (rest changed : List Nat) (events : List Event) (w w' : World κ σ) : Prop where
  elapses : Elapses (· ∈ rest) events w w'
  asked : ∀ id, events.countP (Event.asks id) ≤ 1
  told : ∀ id ∈ changed, id ∈ rest ∧ events.countP (Event.asks id) = 1 ∧
    ∃ watcher, w.scope.find? id = some watcher ∧
      events.countP (Event.fires id) = if watcher.listener.isSome then 1 else 0
  silent : ∀ id, id ∉ changed → events.countP (Event.fires id) = 0
  marker : ∀ marker, w'.scope.marker = some marker →
    marker.watcher ∈ rest ∨ w.scope.marker = some marker
  /-- A watcher that is changed whenever it is asked has its turn, unless an earlier one is marked. -/
  reached : ∀ id ∈ rest, (w.scope.find? id).isSome = true →
    (∀ marker, w.scope.marker = some marker → marker.watcher ∈ rest → id ≤ marker.watcher) →
    .deregistered id ∉ events → (0 < events.countP (Event.asks id) → id ∈ changed) →
      id ∈ changed ∧ ∀ marker, w'.scope.marker = some marker → id ≤ marker.watcher

namespace Surveyed

variable {id : Nat} {turn : Turn} {rest changed : List Nat} {events more : List Event}
  {w'' : World κ σ}

theorem nil (w : World κ σ) : Surveyed [] [] [] w w :=
  ⟨.refl _ w, by simp, by simp, by simp, fun _ same => .inr same, by simp⟩

/-- Visits to others do not ask the watcher. -/
theorem unasked (surveyed : Surveyed rest changed events w w') (apart : id ∉ rest) :
    events.countP (Event.asks id) = 0 :=
  List.countP_eq_zero.2 fun event mem asks => apart ((surveyed.elapses.inside event mem).2 id asks)

/-- Visits to others do not call the listener of the watcher. -/
theorem uncalled (surveyed : Surveyed rest changed events w w') (apart : id ∉ rest) :
    events.countP (Event.fires id) = 0 :=
  surveyed.silent id fun mem => apart (surveyed.told id mem).1

/-- The pass stops at a watcher only if it is marked. -/
theorem stop (first : Turned generation id .settled events w w')
    (ascending : (id :: rest).Pairwise (· < ·)) : Surveyed (id :: rest) [] events w w' where
  elapses := first.elapses.weaken fun _ same => same ▸ List.mem_cons_self
  asked := by
    intro other
    by_cases same : other = id
    · rw [same, first.asked]
      split <;> omega
    · have none := first.unasked same
      omega
  told := by simp
  silent := fun other _ => (first.silent other).resolve_left fun dirty => nomatch dirty.1
  marker := fun marker after => .inr (first.marker marker after)
  reached := by
    intro other mem present early _ dirty
    obtain ⟨marker, rfl, marked⟩ := first.settled rfl
    have less := early marker marked List.mem_cons_self
    rcases List.mem_cons.1 mem with rfl | mem
    · refine absurd (dirty ?_) List.not_mem_nil
      rw [first.asked, if_pos present]
      exact Nat.one_pos
    · have greater := (List.pairwise_cons.1 ascending).1 other mem
      omega

theorem mem_changed_cons {other : Nat} :
    other ∈ (if turn = .dirty then id :: changed else changed) ↔
      turn = .dirty ∧ other = id ∨ other ∈ changed := by
  by_cases dirty : turn = .dirty <;> simp [dirty]

/-- A watcher has its turn at the first visit or at a later one. -/
theorem reached_cons (first : Turned generation id turn events w w')
    (ascending : (id :: rest).Pairwise (· < ·)) (others : Surveyed rest changed more w' w'')
    {other : Nat} (mem : other ∈ id :: rest) (present : (w.scope.find? other).isSome = true)
    (early : ∀ marker, w.scope.marker = some marker → marker.watcher ∈ id :: rest →
      other ≤ marker.watcher)
    (stays : .deregistered other ∉ more ++ events)
    (dirty : 0 < (more ++ events).countP (Event.asks other) →
      turn = .dirty ∧ other = id ∨ other ∈ changed) :
    (turn = .dirty ∧ other = id ∨ other ∈ changed) ∧
      ∀ marker, w''.scope.marker = some marker → other ≤ marker.watcher := by
  obtain ⟨less, -⟩ := List.pairwise_cons.1 ascending
  have fresh : id ∉ rest := fun mem => Nat.lt_irrefl id (less id mem)
  rw [List.countP_append] at dirty
  rcases List.mem_cons.1 mem with rfl | mem
  · have asked : events.countP (Event.asks other) = 1 := by rw [first.asked, if_pos present]
    have changes := dirty (by omega)
    refine ⟨changes, fun marker after => ?_⟩
    have own : turn = .dirty := changes.elim And.left fun mem =>
      absurd (others.told other mem).1 fresh
    rcases others.marker marker after with inside | same
    · exact Nat.le_of_lt (less _ inside)
    · have here := first.marker marker same
      rw [if_pos own] at here
      exact Nat.le_of_eq here.symm
  · have apart : other ≠ id := Nat.ne_of_gt (less other mem)
    have removed : .deregistered other ∉ more ∧ .deregistered other ∉ events := by simpa using stays
    obtain ⟨watcher, found⟩ := Option.isSome_iff_exists.1 present
    have still : w'.scope.find? other = some watcher :=
      (first.elapses.kept other watcher apart found).resolve_right fun gone => removed.2 gone.2
    have ahead : ∀ marker, w'.scope.marker = some marker → marker.watcher ∈ rest →
        other ≤ marker.watcher := by
      intro marker same inside
      have here := first.marker marker same
      split at here
      · exact absurd (here ▸ inside) fresh
      · exact early marker here (List.mem_cons_of_mem _ inside)
    have changes : 0 < more.countP (Event.asks other) → other ∈ changed := fun asks =>
      (dirty (by omega)).resolve_left fun here => apart here.2
    obtain ⟨reached, later⟩ :=
      others.reached other mem (by rw [still]; rfl) ahead removed.1 changes
    exact ⟨.inr reached, later⟩

/-- Otherwise the visits to the others follow. -/
theorem cons (first : Turned generation id turn events w w')
    (ascending : (id :: rest).Pairwise (· < ·)) (below : ∀ other ∈ id :: rest, other < w.scope.nextId)
    (others : Surveyed rest changed more w' w'') :
    Surveyed (id :: rest) (if turn = .dirty then id :: changed else changed) (more ++ events) w w'' := by
  have apart : ∀ other ∈ rest, other ≠ id := fun other mem =>
    Nat.ne_of_gt ((List.pairwise_cons.1 ascending).1 other mem)
  have fresh : id ∉ rest := fun mem => apart id mem rfl
  constructor
  case elapses =>
    exact (first.elapses.weaken fun _ same => same ▸ List.mem_cons_self).trans
      (others.elapses.weaken fun _ => List.mem_cons_of_mem _) below
  case asked =>
    intro other
    rw [List.countP_append]
    by_cases same : other = id
    · subst same
      rw [others.unasked fresh, first.asked]
      split <;> omega
    · rw [first.unasked same]
      exact others.asked other
  case told =>
    intro other mem
    rw [List.countP_append, List.countP_append]
    rcases mem_changed_cons.1 mem with ⟨dirty, rfl⟩ | mem
    · obtain ⟨watcher, found, fires⟩ := first.told dirty
      refine ⟨List.mem_cons_self, ?_, watcher, found, ?_⟩
      · rw [others.unasked fresh, first.asked, found]
        rfl
      · rw [others.uncalled fresh, Nat.zero_add, fires]
    · obtain ⟨inside, asks, watcher, found, fires⟩ := others.told other mem
      have calm := (first.silent other).resolve_left fun here => apart other inside here.2
      have before := first.elapses.before (apart other inside)
        (below other (List.mem_cons_of_mem _ inside)) found
      refine ⟨List.mem_cons_of_mem _ inside, ?_, watcher, before, ?_⟩
      · rw [asks, first.unasked (apart other inside)]
      · rw [calm, fires, Nat.add_zero]
  case silent =>
    intro other absent
    have none := mt mem_changed_cons.2 absent
    rw [List.countP_append, others.silent other fun mem => none (.inr mem),
      (first.silent other).resolve_left fun here => none (.inl here)]
  case marker =>
    intro marker after
    rcases others.marker marker after with inside | same
    · exact .inl (List.mem_cons_of_mem _ inside)
    · have here := first.marker marker same
      split at here
      · exact .inl (here ▸ List.mem_cons_self)
      · exact .inr here
  case reached =>
    intro other mem present early stays dirty
    rw [mem_changed_cons] at dirty ⊢
    exact reached_cons first ascending others mem present early stays dirty

end Surveyed

section

variable (asks : ∀ key, (client.watch key).StartsNoDigest)
  (listens : ∀ key new old, (client.listen key new old).StartsNoDigest)

include asks listens

/-- Visits to watchers in the order of their registration. -/
theorem visitAll_surveyed (nested : Digest κ σ) (generation : UInt64) {rest : List Nat} (dirty : Bool)
    (ascending : rest.Pairwise (· < ·))
    (below : ∀ id ∈ rest, id < w.scope.nextId) :
    ∃ dirty' w' events, visitAll client nested generation rest dirty w = some (dirty', w') ∧
      Surveyed rest (changedAll client nested generation rest w) events w w' := by
  induction rest generalizing w dirty with
  | nil => exact ⟨dirty, w, [], rfl, .nil w⟩
  | cons id rest ih =>
    obtain ⟨turn, w₁, run⟩ := visit_returns asks listens nested generation id w
    obtain ⟨events, turned⟩ := visit_turned asks listens run
    have later : ∀ dirty, ∃ dirty' w' more,
        visitAll client nested generation rest dirty w₁ = some (dirty', w') ∧
          Surveyed rest (changedAll client nested generation rest w₁) more w₁ w' := fun dirty =>
      ih dirty (List.pairwise_cons.1 ascending).2 fun other mem =>
        Nat.lt_of_lt_of_le (below other (List.mem_cons_of_mem _ mem)) turned.elapses.nextId
    simp only [visitAll, changedAll, run]
    cases turn with
    | settled => exact ⟨dirty, w₁, events, rfl, .stop turned ascending⟩
    | clean =>
      obtain ⟨dirty', w', more, others, surveyed⟩ := later dirty
      exact ⟨dirty', w', more ++ events, others, surveyed.cons turned ascending below⟩
    | dirty =>
      obtain ⟨dirty', w', more, others, surveyed⟩ := later true
      exact ⟨dirty', w', more ++ events, others, surveyed.cons turned ascending below⟩

/-- A single pass. -/
theorem pass_surveyed (nested : Digest κ σ) (w : World κ σ) :
    ∃ w' events, pass client nested w = some
        (!(changedAll client nested w.scope.generation w.scope.ids (w.report .passStarted)).isEmpty,
          w') ∧
      Surveyed w.scope.ids
        (changedAll client nested w.scope.generation w.scope.ids (w.report .passStarted)) events
        (w.report .passStarted) w' := by
  obtain ⟨dirty, w', events, run, surveyed⟩ := visitAll_surveyed asks listens nested
    w.scope.generation (w := w.report .passStarted) false w.scope.ascending fun id mem => by
      obtain ⟨watcher, inside, rfl⟩ := List.mem_map.1 mem
      exact w.scope.below watcher inside
  have found := visitAll_changed run
  rw [Bool.false_or] at found
  exact ⟨w', events, found ▸ run, surveyed⟩

end

/-! The passes of a digest. -/

/-- The journal of passes, the latest event first. -/
def journalOf : List (List Event) → List Event
  | [] => []
  | pass :: later => journalOf later ++ (pass ++ [.passStarted])

/-- The events of a pass that found the given watchers changed. -/
structure Tallies (pass : List Event) (changed : List Nat) : Prop where
  inside : ∀ event ∈ pass, event.endsPass = false
  asked : ∀ id, pass.countP (Event.asks id) ≤ 1
  fired : ∀ id, pass.countP (Event.fires id) ≤ 1
  told : ∀ id ∈ changed, pass.countP (Event.asks id) = 1
  silent : ∀ id, id ∉ changed → pass.countP (Event.fires id) = 0

theorem Surveyed.tallies {rest changed : List Nat} {events : List Event}
    (surveyed : Surveyed rest changed events w w') : Tallies events changed where
  inside := fun event mem => (surveyed.elapses.inside event mem).1
  asked := surveyed.asked
  fired := by
    intro id
    by_cases mem : id ∈ changed
    · obtain ⟨_, _, watcher, _, fires⟩ := surveyed.told id mem
      rw [fires]
      split <;> omega
    · rw [surveyed.silent id mem]
      exact Nat.zero_le 1
  told := fun id mem => (surveyed.told id mem).2.1
  silent := surveyed.silent

/-- Passes after `done` earlier ones, when `left` are allowed, and how they end: at the first pass that
finds no watcher changed, or when none is left. -/
structure Course (ttl left done : Nat) (changes : List (List Nat)) (passes : List (List Event))
    (outcome : Except Divergence Unit) (w w' : World κ σ) : Prop where
  journal : ∃ stop, w'.journal = stop :: (journalOf passes ++ w.journal) ∧
    (outcome = .ok () ∧ stop = .converged (done + passes.length) ∨
      outcome = .error ⟨ttl⟩ ∧ stop = .diverged ⟨ttl⟩)
  tallies : List.Forall₂ Tallies passes changes
  limited : passes.length ≤ left
  diverges : outcome = .error ⟨ttl⟩ ↔ passes.length = left ∧ [] ∉ changes
  last : ∀ n, changes[n]? = some [] → passes.length = n + 1

/-- In none of the passes the watcher is removed, and whenever it is asked it is changed. -/
structure Restless (id : Nat) (passes : List (List Event)) (changes : List (List Nat)) : Prop where
  stays : ∀ pass ∈ passes, .deregistered id ∉ pass
  changed : List.Forall₂ (fun pass changed => 0 < pass.countP (Event.asks id) → id ∈ changed)
    passes changes

namespace Course

variable {ttl left done : Nat} {changes : List (List Nat)} {passes : List (List Event)}
  {outcome : Except Divergence Unit} {changed : List Nat} {pass : List Event} {v : World κ σ}

theorem exhausted (ttl done : Nat) (w : World κ σ) :
    Course ttl 0 done [] [] (.error ⟨ttl⟩) w (w.report (.diverged ⟨ttl⟩)) :=
  ⟨⟨_, rfl, .inr ⟨rfl, rfl⟩⟩, .nil, Nat.le_refl 0, by simp, by simp⟩

theorem clean (tallies : Tallies pass []) (journal : v.journal = pass ++ .passStarted :: w.journal)
    (ttl left done : Nat) :
    Course ttl (left + 1) done [[]] [pass] (.ok ()) w (v.report (.converged (done + 1))) where
  journal := ⟨.converged (done + 1), by simp [World.report, journalOf, journal], .inl ⟨rfl, rfl⟩⟩
  tallies := .cons tallies .nil
  limited := by simp
  diverges := by simp
  last := by
    intro n here
    cases n with
    | zero => rfl
    | succ n => simp at here

theorem dirty (tallies : Tallies pass changed) (some : changed ≠ [])
    (journal : v.journal = pass ++ .passStarted :: w.journal)
    (course : Course ttl left (done + 1) changes passes outcome v w') :
    Course ttl (left + 1) done (changed :: changes) (pass :: passes) outcome w w' where
  journal := by
    obtain ⟨stop, here, ends⟩ := course.journal
    refine ⟨stop, by simp [here, journal, journalOf], ?_⟩
    rwa [List.length_cons, ← Nat.add_assoc, Nat.add_right_comm]
  tallies := .cons tallies course.tallies
  limited := Nat.succ_le_succ course.limited
  diverges := by
    rw [course.diverges, List.length_cons, Nat.add_right_cancel_iff, List.mem_cons, not_or]
    exact and_congr_right' (by simp [some.symm])
  last := by
    intro n here
    cases n with
    | zero => exact absurd (Option.some.inj here) some
    | succ n => exact congrArg (· + 1) (course.last n here)

/-- No listener is called more often than there are passes. -/
theorem fires_le (course : Course ttl left done changes passes outcome w w') (id : Nat) :
    w'.journal.countP (Event.fires id) ≤ w.journal.countP (Event.fires id) + left := by
  have laid : ∀ {passes changes}, List.Forall₂ Tallies passes changes →
      (journalOf passes).countP (Event.fires id) ≤ passes.length := by
    intro passes changes each
    induction each with
    | nil => exact Nat.le_refl 0
    | @cons pass changed passes changes tallies each ih =>
      have once := tallies.fired id
      have start : [Event.passStarted].countP (Event.fires id) = 0 := rfl
      simp only [journalOf, List.countP_append, start, List.length_cons]
      omega
  obtain ⟨stop, journal, ends⟩ := course.journal
  have quiet : stop.fires id = false := by
    rcases ends with ⟨_, rfl⟩ | ⟨_, rfl⟩ <;> rfl
  rw [journal, List.countP_cons_of_neg (by simp [quiet]), List.countP_append]
  have few := laid course.tallies
  have limited := course.limited
  omega

/-- A watcher that every pass finds changed, and that nothing removes. -/
theorem restless (course : Course ttl left done changes passes outcome w w') {id : Nat}
    (every : ∀ changed ∈ changes, id ∈ changed) (stays : .deregistered id ∉ w'.journal) :
    Restless id passes changes := by
  obtain ⟨stop, journal, -⟩ := course.journal
  have kept : .deregistered id ∉ journalOf passes := fun mem =>
    stays (journal ▸ List.mem_cons_of_mem _ (List.mem_append_left _ mem))
  have each := course.tallies
  clear course journal stays
  induction each with
  | nil => exact ⟨by simp, .nil⟩
  | @cons pass changed passes changes _ each ih =>
    obtain ⟨stays, rest⟩ := ih (fun changed mem => every changed (List.mem_cons_of_mem _ mem))
      fun mem => kept (List.mem_append_left _ mem)
    refine ⟨List.forall_mem_cons.2 ⟨fun mem => kept ?_, stays⟩,
      .cons (fun _ => every changed List.mem_cons_self) rest⟩
    exact List.mem_append_right _ (List.mem_append_left _ mem)

end Course

/-- In a pass that starts with no earlier watcher marked, a watcher that is changed whenever it is
asked has its turn, and then no earlier one is marked again. -/
theorem Surveyed.has_turn {changed : List Nat} {events : List Event} {watcher : Watcher κ}
    (surveyed : Surveyed w.scope.ids changed events (w.report .passStarted) w')
    (found : w.scope.find? watcher.id = some watcher)
    (early : ∀ marker, w.scope.marker = some marker → watcher.id ≤ marker.watcher)
    (stays : .deregistered watcher.id ∉ events)
    (dirty : 0 < events.countP (Event.asks watcher.id) → watcher.id ∈ changed) :
    watcher.id ∈ changed ∧ ∀ marker, w'.scope.marker = some marker → watcher.id ≤ marker.watcher := by
  have present : ((w.report .passStarted).scope.find? watcher.id).isSome = true := by
    rw [show (w.report .passStarted).scope.find? watcher.id = some watcher from found]
    rfl
  exact surveyed.reached watcher.id (Scope.mem_ids_of_find? found) present
    (fun marker here _ => early marker here) stays dirty

/-- A watcher that is not removed in a pass has its listener afterwards. -/
theorem pass_listener {depth : Nat} {dirty : Bool} {events : List Event} {watcher : Watcher κ}
    (run : pass client (digest client depth) w = some (dirty, w'))
    (journal : w'.journal = events ++ .passStarted :: w.journal)
    (found : w.scope.find? watcher.id = some watcher) (stays : .deregistered watcher.id ∉ events) :
    ∃ later, w'.scope.find? watcher.id = some later ∧ later.listener = watcher.listener := by
  obtain ⟨more, split, kept⟩ : w'.Listening watcher.id watcher.listener w.journal :=
    (stable_listening watcher.id watcher.listener w.journal).visitAll
      ((stable_listening _ _ _).digest client depth) [] run
      ⟨[.passStarted], rfl, .inr ⟨watcher, found, rfl⟩⟩
  have same : more = events ++ [.passStarted] := by
    refine List.append_cancel_right (split.symm.trans (journal.trans ?_))
    rw [List.append_assoc]
    rfl
  refine kept.resolve_left fun removed => stays ?_
  rw [same] at removed
  simpa using removed

section

variable (asks : ∀ key, (client.watch key).StartsNoDigest)
  (listens : ∀ key new old, (client.listen key new old).StartsNoDigest)

include asks listens

/-- Passes take their course. With a watcher that is changed whenever it is asked and no earlier one
marked, every pass reaches this watcher, and then again no earlier one is marked. -/
theorem passes_course (depth left done : Nat) (w : World κ σ) :
    ∃ outcome w' passes, World.passes client (digest client depth) left done w = some (outcome, w') ∧
      Course w.scope.config.ttl left done (changedPasses client (digest client depth) left w) passes
        outcome w w' ∧
      ∀ watcher, w.scope.find? watcher.id = some watcher →
        (∀ marker, w.scope.marker = some marker → watcher.id ≤ marker.watcher) →
        Restless watcher.id passes (changedPasses client (digest client depth) left w) →
          outcome = .error ⟨w.scope.config.ttl⟩ ∧ ∀ pass ∈ passes,
            pass.countP (Event.asks watcher.id) = 1 ∧
            pass.countP (Event.fires watcher.id) = if watcher.listener.isSome then 1 else 0 := by
  induction left generalizing done w with
  | zero =>
    exact ⟨_, _, [], rfl, .exhausted .., fun watcher _ _ _ => ⟨rfl, by simp⟩⟩
  | succ left ih =>
    obtain ⟨v, events, ran, surveyed⟩ := pass_surveyed asks listens (digest client depth) w
    have started := surveyed.elapses.journal
    have ttl : v.scope.config = w.scope.config :=
      (stable_config w.scope.config).visitAll ((stable_config _).digest client depth) [] ran rfl
    simp only [World.passes, changedPasses, ran]
    generalize changedAll client (digest client depth) w.scope.generation w.scope.ids
      (w.report .passStarted) = changed at surveyed ran
    cases changed with
    | nil =>
      refine ⟨_, _, [events], rfl, .clean surveyed.tallies started _ left done, ?_⟩
      intro watcher found early restless
      obtain ⟨none, -⟩ := surveyed.has_turn found early (restless.stays events List.mem_cons_self)
        (List.forall₂_cons.1 restless.changed).1
      exact absurd none List.not_mem_nil
    | cons head tail =>
      obtain ⟨outcome, w', passes, run, course, unmasked⟩ := ih (done + 1) v
      rw [ttl] at course unmasked
      refine ⟨outcome, w', events :: passes, run,
        .dirty surveyed.tallies (List.cons_ne_nil head tail) started course, ?_⟩
      intro watcher found early restless
      have stays := restless.stays events List.mem_cons_self
      obtain ⟨first, rest⟩ := List.forall₂_cons.1 restless.changed
      obtain ⟨mem, marked⟩ := surveyed.has_turn found early stays first
      obtain ⟨_, asked, here, found', fires⟩ := surveyed.told watcher.id mem
      cases found.symm.trans found'
      obtain ⟨later, still, listens'⟩ := pass_listener ran started found stays
      have named : later.id = watcher.id := (Scope.find?_eq_some_iff.1 still).2
      rw [← named] at still marked rest ⊢
      obtain ⟨diverged, each⟩ := unmasked later still marked
        ⟨fun pass mem => named ▸ restless.stays pass (List.mem_cons_of_mem _ mem), rest⟩
      refine ⟨diverged, List.forall_mem_cons.2 ⟨?_, ?_⟩⟩
      · rw [named]
        exact ⟨asked, fires⟩
      · rw [← listens']
        exact each

/-- A digest without nested ones takes at least one pass and at most as many as the limit allows. It
fails exactly if it takes them all and each finds a change; it ends after the first pass that finds
none. In a pass no listener is called twice. A watcher that is changed whenever it is asked, and is
never removed, makes the digest fail: each pass asks it once and calls its listener once, if it has
one, whatever the other watchers and their listeners do. -/
theorem digest_limit (depth : Nat) (w : World κ σ) :
    ∃ outcome w' passes, digest client (depth + 1) w = some (outcome, w') ∧
      Course w.scope.config.ttl (max w.scope.config.ttl 1) 0 (digestChanges client (depth + 1) w)
        passes outcome w w' ∧
      (∀ id, w'.journal.countP (Event.fires id) ≤
        w.journal.countP (Event.fires id) + max w.scope.config.ttl 1) ∧
      ∀ watcher ∈ w.scope.watchers,
        Restless watcher.id passes (digestChanges client (depth + 1) w) →
          outcome = .error ⟨w.scope.config.ttl⟩ ∧ passes.length = max w.scope.config.ttl 1 ∧
          ∀ pass ∈ passes, pass.countP (Event.asks watcher.id) = 1 ∧
            pass.countP (Event.fires watcher.id) = if watcher.listener.isSome then 1 else 0 := by
  obtain ⟨outcome, w', passes, run, course, unmasked⟩ := passes_course asks listens depth
    (max w.scope.config.ttl 1) 0 (w.mark none)
  have course : Course w.scope.config.ttl (max w.scope.config.ttl 1) 0
      (digestChanges client (depth + 1) w) passes outcome w w' :=
    ⟨course.journal, course.tallies, course.limited, course.diverges, course.last⟩
  refine ⟨outcome, w', passes, run, course, course.fires_le, fun watcher mem restless => ?_⟩
  obtain ⟨diverged, each⟩ := unmasked watcher (Scope.find?_eq_some_iff.2 ⟨mem, rfl⟩) nofun restless
  exact ⟨diverged, (course.diverges.1 diverged).1, each⟩

end

/-- One watcher makes a new array whenever it is asked, and its listener stores it in a field that
another one watches. -/
def restless : Client Bool Unit where
  watch makes := do
    let v ← if makes then Script.obtain (.array []) else Script.obtain (.get "a")
    return .ok v
  listen makes new _ := do
    if makes then Script.change (.set "a" new)
    return .ok ()

def restlessTwo : Script Bool Unit Unit := do
  let _ ← Script.register false (some false) .reference
  let _ ← Script.register true (some true) .reference

theorem digest_limit_two : ∃ w w' : World Bool Unit,
    (World.initial ⟨2⟩ ()).runScript restless 1 restlessTwo = some (.returned (), w) ∧
    digest restless 1 w = some (.error ⟨2⟩, w') ∧ ∃ passes : List (List Event),
      passes.length = 2 ∧ ∀ pass ∈ passes, pass.countP (Event.asks 1) = 1 ∧
        pass.countP (Event.fires 1) = 1 := by
  have asks : ∀ key, (restless.watch key).StartsNoDigest := by
    rintro (_ | _) <;> exact ⟨rfl, fun _ => trivial⟩
  have listens : ∀ key new old, (restless.listen key new old).StartsNoDigest := by
    rintro (_ | _) new old
    · trivial
    · exact ⟨rfl, fun _ => trivial⟩
  obtain ⟨w, v, result, ran, first, second, watchers, ttl, changes, digested, same, listens', kept⟩ :
      ∃ w v result, (World.initial ⟨2⟩ ()).runScript restless 1 restlessTwo = some (.returned (), w) ∧
        ∃ first second, w.scope.watchers = [first, second] ∧ w.scope.config.ttl = 2 ∧
          digestChanges restless 1 w = [[0, 1], [0, 1]] ∧
          digest restless 1 w = some (result, v) ∧ second.id = 1 ∧ second.listener.isSome = true ∧
          removed v.journal 1 = false :=
    ⟨_, _, _, rfl, _, _, rfl, rfl, rfl, rfl, rfl, rfl, by decide +kernel⟩
  obtain ⟨outcome, w', passes, run, course, _, unmasked⟩ := digest_limit asks listens 0 w
  cases digested.symm.trans run
  rw [changes] at course unmasked
  have stays : .deregistered 1 ∉ v.journal := fun mem => by simp [removed_iff.2 mem] at kept
  obtain ⟨rfl, length, each⟩ := unmasked second (by simp [watchers])
    (same ▸ course.restless (by simp) stays)
  rw [ttl] at length run
  rw [same, if_pos listens'] at each
  exact ⟨w, v, ran, run, passes, length, each⟩

end World
end DataBinding
