import DataBinding.Proofs.Invariants
import DataBinding.Proofs.Journals
import DataBinding.Proofs.Sealing
import Mathlib.Data.List.Infix

/-! What listeners are told. The value that a watcher keeps matches what its listener was told
last: the values that are kept by reference are immutable handles, and those that are kept by
value are copies out of the client's reach. So every journal is faithful, whatever the client
does with the containers that it can reach. -/
namespace DataBinding

variable {κ σ α : Type} {comparison : Comparison} {heap heap' : Heap} {v new : Value}
  {past : Value × Heap}

/-! Matching. -/

namespace Comparison

theorem equal_iff_matches (seen : comparison.Matches heap v past) :
    comparison.equal heap new v = true ↔ comparison.Matches heap new past := by
  cases comparison with
  | reference =>
    constructor
    · intro same
      exact Value.identical_trans same seen
    · intro same
      exact Value.identical_trans same (Value.identical_symm seen)
  | value =>
    show heap.deepEqual new v = true ↔ heap.Similar new past.2 past.1
    rw [← Heap.similar_iff_deepEqual]
    constructor
    · intro same
      exact same.trans seen
    · intro same
      exact same.trans seen.symm

theorem matches_of_equal {last : Value} (same : comparison.equal heap new last = true) :
    comparison.Matches heap last (new, heap) := by
  cases comparison with
  | reference => exact Value.identical_symm same
  | value => exact ((Heap.similar_iff_deepEqual new last).2 same).symm

/-- What a value of a later heap matches, if it has not changed. Only what is compared by value must
stay as it is. -/
theorem Matches.similar (seen : comparison.Matches heap v past)
    (same : comparison = .value → heap.Similar v heap' v) : comparison.Matches heap' v past := by
  cases comparison with
  | reference => exact seen
  | value => exact (same rfl).symm.trans seen

theorem equal_eq (first : heap.Similar new heap' new) (second : heap.Similar v heap' v) :
    comparison.equal heap' new v = comparison.equal heap new v := by
  cases comparison with
  | reference => rfl
  | value =>
    show heap'.deepEqual new v = heap.deepEqual new v
    rw [Bool.eq_iff_iff, ← Heap.similar_iff_deepEqual, ← Heap.similar_iff_deepEqual]
    constructor
    · intro same
      exact (first.trans same).trans second.symm
    · intro same
      exact (first.symm.trans same).trans second

theorem grows_remember (comparison : Comparison) (heap : Heap) (v : Value) :
    heap.Grows (comparison.remember heap v).2 := by
  cases comparison with
  | reference => exact .refl _ _
  | value => exact heap.grows_deepCopy v

/-- What is kept of a value matches it as it was before. -/
theorem remember_matches_before (holds : heap.Holds [v]) :
    comparison.Matches (comparison.remember heap v).2 (comparison.remember heap v).1 (v, heap) := by
  cases comparison with
  | reference => exact Value.identical_refl v
  | value => exact (Heap.similar_deepCopy holds).symm

/-- It matches the value as it is afterwards, too. -/
theorem remember_matches (holds : heap.Holds [v]) :
    comparison.Matches (comparison.remember heap v).2 (comparison.remember heap v).1
      (v, (comparison.remember heap v).2) := by
  cases comparison with
  | reference => exact Value.identical_refl v
  | value =>
    have listed : v.Within (· ∈ heap.reached [v]) := Heap.reached_roots List.mem_cons_self
    have grown := holds.alike.grow (.refl _ _) (heap.grows_deepCopy v)
    have same := grown.similar (Value.alike_identity listed)
    exact (Heap.similar_deepCopy holds).symm.trans same

end Comparison

/-! What watchers keep. -/

/-- What a watcher saw last matches what its listener was told last. -/
def Watcher.Informed (watcher : Watcher κ) (heap : Heap) (journal : List Event) : Prop :=
  match watcher.last with
  | none => toldLast watcher.id journal = none ∧ Unanswered watcher.id journal
  | some v => ∃ past, toldLast watcher.id journal = some past ∧
      watcher.comparison.Matches heap v past

namespace Watcher.Informed

variable {watcher : Watcher κ} {journal : List Event}

theorem append {events : List Event} (others : ∀ event ∈ events, event.isOf watcher.id = false)
    (informed : watcher.Informed heap journal) : watcher.Informed heap (events ++ journal) := by
  unfold Informed at informed ⊢
  rw [toldLast_append others]
  split at informed
  · exact ⟨informed.1, informed.2.append others⟩
  · exact informed

/-- Nothing has been told of a watcher that has not been heard of. -/
theorem of_silent (unseen : watcher.last = none)
    (silent : ∀ event ∈ journal, event.isOf watcher.id = false) :
    watcher.Informed heap journal := by
  have none : watcher.Informed heap [] := by
    unfold Informed
    rw [unseen]
    exact ⟨rfl, fun _ _ => List.not_mem_nil⟩
  simpa using none.append silent

theorem similar (informed : watcher.Informed heap journal)
    (same : ∀ v, watcher.last = some v → watcher.comparison = .value → heap.Similar v heap' v) :
    watcher.Informed heap' journal := by
  unfold Informed at informed ⊢
  split at informed
  · exact informed
  · rename_i v seen
    obtain ⟨past, told, matching⟩ := informed
    exact ⟨past, told, matching.similar (same v seen)⟩

/-- A value that matches the one kept is no news. -/
theorem matched (informed : watcher.Informed heap journal)
    (settled : watcher.isSettled heap new = true) :
    watcher.Informed heap (.answered watcher.id new heap :: journal) ∧
      (Faithful watcher.id watcher.comparison journal →
        Faithful watcher.id watcher.comparison (.answered watcher.id new heap :: journal)) := by
  obtain ⟨v, seen, equal⟩ := (Option.any_eq_true _ _).1 settled
  simp only [Informed, seen] at informed ⊢
  obtain ⟨past, told, matching⟩ := informed
  exact ⟨⟨past, told, matching⟩, fun faithful =>
    .matched told ((Comparison.equal_iff_matches matching).1 equal) faithful⟩

/-- A value that does not match is told with the one kept before. -/
theorem changed (informed : watcher.Informed heap journal)
    (differs : watcher.isSettled heap new = false) (grown : heap.Similar new heap' new)
    (same : ∀ v, watcher.last = some v → heap.Similar v heap' v)
    (faithful : Faithful watcher.id watcher.comparison journal) :
    Faithful watcher.id watcher.comparison
      (.fired watcher.id new (watcher.last.getD new) heap' ::
        .answered watcher.id new heap :: journal) := by
  cases seen : watcher.last with
  | none =>
    simp only [Informed, seen] at informed
    exact .first informed.1 informed.2 faithful
  | some v =>
    simp only [Informed, seen] at informed
    obtain ⟨past, told, matching⟩ := informed
    have unequal : watcher.comparison.equal heap new v = false := by
      simpa [Watcher.isSettled, seen] using differs
    refine .changed told (fun same => ?_) (matching.similar fun _ => same v seen) ?_ faithful
    · exact Bool.false_ne_true
        (unequal.symm.trans ((Comparison.equal_iff_matches matching).2 same))
    · rw [Option.getD_some, Comparison.equal_eq grown (same v seen)]
      exact unequal

end Watcher.Informed

namespace World

/-- The journal of a world, with what its watchers keep. -/
structure Chronicle (w : World κ σ) : Prop where
  numbered : ∀ event ∈ w.journal, ∀ id, event.subject = some id → id < w.scope.nextId
  registered : ∀ watcher ∈ w.scope.watchers, ∀ listens comparison,
    .registered watcher.id listens comparison ∈ w.journal →
      listens = watcher.listener.isSome ∧ comparison = watcher.comparison
  faithful : ∀ id comparison, .registered id true comparison ∈ w.journal →
    Faithful id comparison w.journal
  informed : ∀ watcher ∈ w.scope.watchers, watcher.listener.isSome = true →
    watcher.Informed w.heap w.journal

namespace Chronicle

variable {held : List Value} {w w' : World κ σ} {shared : Handle → Prop}
  {sealed : Nat → Handle → Prop} {watcher : Watcher κ}

/-- An event that is about no watcher. -/
theorem report (chronicle : w.Chronicle) {event : Event} (plain : event.subject = none) :
    (w.report event).Chronicle := by
  have others : ∀ id, ∀ other ∈ [event], other.isOf id = false := fun id other mem =>
    other.isOf_eq_false (by simp [List.mem_singleton.1 mem, plain])
  have before : ∀ {id listens comparison}, .registered id listens comparison ∈ event :: w.journal →
      .registered id listens comparison ∈ w.journal := by
    intro id listens comparison registered
    rcases List.mem_cons.1 registered with rfl | registered
    · cases plain
    · exact registered
  exact {
    numbered := List.forall_mem_cons.2
      ⟨fun id same => (by cases plain.symm.trans same), chronicle.numbered⟩
    registered := fun watcher mem listens comparison registered =>
      chronicle.registered watcher mem listens comparison (before registered)
    faithful := fun id comparison registered =>
      (chronicle.faithful id comparison (before registered)).append (others id)
    informed := fun watcher mem listens =>
      (chronicle.informed watcher mem listens).append (others watcher.id) }

/-- The client changes what it shares. -/
theorem change (chronicle : w.Chronicle) (zones : w.Zones held shared sealed) {heap : Heap}
    (keeps : ∀ id, w.heap.Keeps (sealed id) heap) (kept : Members Value) (cache : Cache) (client : σ) :
    ({ w with heap, kept, cache, client } : World κ σ).Chronicle where
  numbered := chronicle.numbered
  registered := chronicle.registered
  faithful := chronicle.faithful
  informed := by
    intro watcher mem listens
    apply (chronicle.informed watcher mem listens).similar
    intro v seen comparison
    have place := zones.last watcher mem v seen
    simp only [Watcher.place, comparison] at place
    exact (zones.copies watcher.id).similar (keeps watcher.id) place

/-- Nothing has been told of a watcher yet when it is registered. -/
theorem register (chronicle : w.Chronicle) (source : Source κ) (listener : Option κ)
    (comparison : Comparison) : (w.register source listener comparison).2.Chronicle := by
  have fresh : ∀ event ∈ w.journal, event.subject ≠ some w.scope.nextId := by
    intro event mem same
    exact Nat.lt_irrefl _ (chronicle.numbered event mem _ same)
  have silent : ∀ event ∈ w.journal, event.isOf w.scope.nextId = false := by
    intro event mem
    exact event.isOf_eq_false (fresh event mem)
  refine ⟨?_, ?_, ?_, ?_⟩
  · intro event mem id same
    rcases List.mem_cons.1 mem with rfl | mem
    · cases same
      exact Nat.lt_succ_self _
    · exact Nat.lt_succ_of_lt (chronicle.numbered event mem id same)
  · intro watcher mem listens comparison registered
    rcases List.mem_append.1 mem with mem | mem
    · rcases List.mem_cons.1 registered with same | registered
      · obtain ⟨number, _⟩ := Event.registered.inj same
        exact absurd number (Nat.ne_of_lt (w.scope.below watcher mem))
      · exact chronicle.registered watcher mem listens comparison registered
    · cases List.mem_singleton.1 mem
      rcases List.mem_cons.1 registered with same | registered
      · cases same
        exact ⟨rfl, rfl⟩
      · exact absurd rfl (fresh _ registered)
  · intro id comparison registered
    rcases List.mem_cons.1 registered with same | registered
    · obtain ⟨rfl, _⟩ := Event.registered.inj same
      have faithful := Faithful.append silent (.nil : Faithful _ comparison [])
      rw [List.append_nil] at faithful
      exact .other rfl faithful
    · exact .other rfl (chronicle.faithful id comparison registered)
  · have others : ∀ id, ∀ event ∈ [Event.registered w.scope.nextId listener.isSome comparison],
        event.isOf id = false := by
      intro id event mem
      rw [List.mem_singleton.1 mem]
      rfl
    intro watcher mem listens
    rcases List.mem_append.1 mem with mem | mem
    · exact (chronicle.informed watcher mem listens).append (others watcher.id)
    · cases List.mem_singleton.1 mem
      have seen : Watcher.Informed ⟨w.scope.nextId, source, listener, comparison, none⟩ w.heap
        w.journal := .of_silent rfl silent
      exact seen.append (others w.scope.nextId)

theorem deregister (chronicle : w.Chronicle) (id : Nat) : (w.deregister id).Chronicle := by
  unfold World.deregister
  cases w.scope.find? id with
  | none => exact chronicle
  | some watcher =>
    have reported : (w.report (.deregistered id)).Chronicle := chronicle.report rfl
    exact {
      numbered := reported.numbered
      registered := fun watcher mem => reported.registered watcher (List.mem_filter.1 mem).1
      faithful := reported.faithful
      informed := fun watcher mem => reported.informed watcher (List.mem_filter.1 mem).1 }

theorem step (chronicle : w.Chronicle) (zones : w.Zones held shared sealed)
    (stepped : w.Stepped w') (keeps : ∀ id, w.heap.Keeps (sealed id) w'.heap) : w'.Chronicle := by
  cases stepped with
  | changed heap kept cache client => exact chronicle.change zones keeps kept cache client
  | @remarked event remark =>
    refine chronicle.report ?_
    cases event <;> first | rfl | cases remark
  | registered cache source listener comparison =>
    exact (chronicle.change zones (fun id => .refl _ _) w.kept cache w.client).register source
      listener comparison
  | deregistered id => exact chronicle.deregister id

theorem renew (chronicle : w.Chronicle) (config : Config) : (w.renew config).Chronicle where
  numbered := chronicle.numbered
  registered := nofun
  faithful := chronicle.faithful
  informed := nofun

/-- What is registered of a watcher of the scope. -/
theorem informed_of_registered (chronicle : w.Chronicle) (mem : watcher ∈ w.scope.watchers)
    (registered : .registered watcher.id true comparison ∈ w.journal) :
    comparison = watcher.comparison ∧ watcher.listener.isSome = true ∧
      watcher.Informed w.heap w.journal := by
  obtain ⟨listens, same⟩ := chronicle.registered watcher mem true comparison registered
  exact ⟨same, listens.symm, chronicle.informed watcher mem listens.symm⟩

/-- Events of one watcher, with which at most what this watcher keeps has changed. -/
theorem about (chronicle : w.Chronicle) (mem : watcher ∈ w.scope.watchers) {events : List Event}
    (journal : w'.journal = events ++ w.journal)
    (own : ∀ event ∈ events, event.isOf watcher.id = true)
    (nextId : w'.scope.nextId = w.scope.nextId)
    (watchers : ∀ other ∈ w'.scope.watchers, ∃ before ∈ w.scope.watchers, other.id = before.id ∧
      other.listener = before.listener ∧ other.comparison = before.comparison ∧
        (before.id = watcher.id ∨ other = before))
    (same : ∀ other ∈ w.scope.watchers, ∀ v, other.last = some v → w.heap.Similar v w'.heap v)
    (faithful : watcher.listener.isSome = true → watcher.Informed w.heap w.journal →
      Faithful watcher.id watcher.comparison w.journal →
        Faithful watcher.id watcher.comparison w'.journal)
    (informed : ∀ other ∈ w'.scope.watchers, other.id = watcher.id →
      other.listener.isSome = true → other.Informed w'.heap w'.journal) : w'.Chronicle := by
  have before : ∀ {id listens comparison}, .registered id listens comparison ∈ w'.journal →
      .registered id listens comparison ∈ w.journal := by
    intro id listens comparison registered
    rw [journal] at registered
    rcases List.mem_append.1 registered with registered | registered
    · cases own _ registered
    · exact registered
  have others : ∀ id, id ≠ watcher.id → ∀ event ∈ events, event.isOf id = false :=
    fun id differs event inside => event.not_isOf (own event inside) differs
  refine ⟨?_, ?_, ?_, ?_⟩
  · intro event inside id subject
    rw [nextId]
    rw [journal] at inside
    rcases List.mem_append.1 inside with inside | inside
    · cases (event.subject_of_isOf (own event inside)).symm.trans subject
      exact w.scope.below watcher mem
    · exact chronicle.numbered event inside id subject
  · intro other inside listens comparison registered
    obtain ⟨earlier, mem', sameId, sameListener, sameComparison, _⟩ := watchers other inside
    rw [sameListener, sameComparison]
    exact chronicle.registered earlier mem' listens comparison (sameId ▸ before registered)
  · intro id comparison registered
    have told := chronicle.faithful id comparison (before registered)
    by_cases here : id = watcher.id
    · subst here
      obtain ⟨rfl, listens, seen⟩ := chronicle.informed_of_registered mem (before registered)
      exact faithful listens seen told
    · rw [journal]
      exact told.append (others id here)
  · intro other inside listens
    by_cases here : other.id = watcher.id
    · exact informed other inside here listens
    · obtain ⟨earlier, mem', sameId, _, _, same' | rfl⟩ := watchers other inside
      · exact absurd (sameId.trans same') here
      · rw [journal]
        exact ((chronicle.informed other mem' listens).append (others other.id here)).similar
          fun v seen _ => same other mem' v seen

/-- The source of a watcher gives a value that matches the one kept. -/
theorem matched (chronicle : w.Chronicle) (mem : watcher ∈ w.scope.watchers)
    (settled : watcher.isSettled w.heap new = true) :
    (w.report (.answered watcher.id new w.heap)).Chronicle := by
  have journal : (w.report (.answered watcher.id new w.heap)).journal =
    [.answered watcher.id new w.heap] ++ w.journal := rfl
  refine chronicle.about mem journal (by simp [Event.isOf]) rfl
    (fun other mem' => ⟨other, mem', rfl, rfl, rfl, .inr rfl⟩) (fun _ _ v _ => .refl _ v)
    (fun _ informed => (informed.matched settled).2) fun other mem' same listens => ?_
  cases Scope.eq_of_id_eq mem' mem same
  exact ((chronicle.informed watcher mem listens).matched settled).1

/-- The source of a watcher gives a value that does not match. The value is kept, and if there is a
listener it is told. -/
theorem announce (chronicle : w.Chronicle) (zones : w.Zones (held ++ [new]) shared sealed)
    (mem : watcher ∈ w.scope.watchers) (differs : watcher.isSettled w.heap new = false)
    (marker : Option Marker) :
    (((w.report (.answered watcher.id new w.heap)).mark marker).announce watcher
      new).2.Chronicle := by
  have grows := watcher.comparison.grows_remember w.heap new
  have given : new.Within shared := zones.held new (by simp)
  have grown := zones.common.similar grows.keeps given
  have same : ∀ other ∈ w.scope.watchers, ∀ v, other.last = some v →
      w.heap.Similar v (watcher.comparison.remember w.heap new).2 v := by
    intro other mem' v seen
    have place := zones.last other mem' v seen
    unfold Watcher.place at place
    split at place
    · exact zones.common.similar grows.keeps place
    · exact (zones.copies other.id).similar grows.keeps place
  have holds : w.heap.Holds [new] := zones.common.holds (by simpa using given)
  have kept := watcher.comparison.remember_matches holds
  have watchers : ∀ other ∈ (w.scope.setLast watcher.id
      (watcher.comparison.remember w.heap new).1).watchers, ∃ before ∈ w.scope.watchers,
        other.id = before.id ∧ other.listener = before.listener ∧
          other.comparison = before.comparison ∧ (before.id = watcher.id ∨ other = before) := by
    intro other mem'
    obtain ⟨before, mem', id, listener, comparison, cases⟩ := Scope.mem_setLast mem'
    exact ⟨before, mem', id, listener, comparison, cases.imp And.left And.right⟩
  unfold World.announce
  cases listener : watcher.listener with
  | none =>
    have journal : (((w.report (.answered watcher.id new w.heap)).mark marker).record watcher
      new).2.journal = [.answered watcher.id new w.heap] ++ w.journal := rfl
    refine chronicle.about mem journal (by simp [Event.isOf]) rfl watchers same ?_ ?_
    · simp [listener]
    · intro other mem' sameId listens
      obtain ⟨before, mem', id, sameListener, _⟩ := Scope.mem_setLast mem'
      cases Scope.eq_of_id_eq mem' mem (id.symm.trans sameId)
      simp [sameListener, listener] at listens
  | some key =>
    let recorded := (((w.report (.answered watcher.id new w.heap)).mark marker).record watcher new).2
    let call : Event := .fired watcher.id new (watcher.last.getD new) recorded.heap
    have journal : (recorded.report call).journal =
      [call, .answered watcher.id new w.heap] ++ w.journal := rfl
    refine chronicle.about mem journal (by simp [Event.isOf, call]) rfl watchers same ?_ ?_
    · intro _ informed
      exact informed.changed differs grown (same watcher mem)
    · intro other mem' sameId _
      obtain ⟨before, mem', id, _, sameComparison, ⟨_, seen⟩ | ⟨another, _⟩⟩ :=
        Scope.mem_setLast mem'
      · cases Scope.eq_of_id_eq mem' mem (id.symm.trans sameId)
        simp only [Watcher.Informed, seen, sameComparison, sameId]
        exact ⟨_, toldLast_fired, kept⟩
      · exact absurd (id.symm.trans sameId) another

end Chronicle

/-- The journal is faithful so far, and the copies that are kept are out of reach. -/
def Recorded (held : List Value) (w : World κ σ) : Prop :=
  w.Chronicle ∧ ∃ shared sealed, w.Zones held shared sealed

theorem stable_recorded : Stable (κ := κ) (σ := σ) Recorded where
  fewer := fun less ⟨chronicle, _, _, zones⟩ => ⟨chronicle, _, _, zones.fewer less⟩
  step := by
    rintro held values values' w w' op answer run ⟨chronicle, shared, sealed, zones⟩
    obtain ⟨shared', keeps, zones'⟩ := zones.run run
    exact ⟨chronicle.step zones (Op.run_stepped run) keeps, shared', sealed, zones'⟩
  report := by
    rintro held w event progress ⟨chronicle, shared, sealed, zones⟩
    refine ⟨chronicle.report ?_, shared, sealed, { zones with }⟩
    cases event <;> first | rfl | cases progress
  asked := fun _ ⟨chronicle, shared, sealed, zones⟩ =>
    ⟨chronicle.report rfl, shared, sealed, { zones with }⟩
  call := by
    rintro held w accessor ⟨chronicle, shared, sealed, zones⟩
    obtain ⟨shared', keeps, zones'⟩ := zones.call accessor
    exact ⟨chronicle.change zones keeps w.kept w.cache w.client, shared', sealed, zones'⟩
  mark := fun marker ⟨chronicle, shared, sealed, zones⟩ =>
    ⟨{ chronicle with }, shared, sealed, { zones with }⟩
  matched := by
    rintro held w watcher new found settled ⟨chronicle, shared, sealed, zones⟩
    have fewer := zones.fewer fun v mem => .inl (List.mem_append_left [new] mem)
    exact ⟨chronicle.matched (List.mem_of_find?_eq_some found) settled, shared, sealed,
      { fewer with }⟩
  changed := by
    rintro held w watcher new marker found differs ⟨chronicle, shared, sealed, zones⟩
    have mem := List.mem_of_find?_eq_some found
    have answered : ((w.report (.answered watcher.id new w.heap)).mark marker).Zones
      (held ++ [new]) shared sealed := { zones with }
    obtain ⟨shared', sealed', recorded⟩ := answered.record mem
    refine ⟨chronicle.announce zones mem differs marker, shared', sealed', ?_⟩
    simp only [World.announce]
    split
    · exact recorded
    · exact { recorded with }

/-- The worlds that a client gets to from a first scope, with whatever scripts it runs and whenever
it drops the scope for a new one. -/
inductive Reachable : World κ σ → Prop where
  | initial (config : Config) (client : σ) : Reachable (.initial config client)
  | run {w w' : World κ σ} {α : Type} {client : Client κ σ} {depth : Nat} {script : Script κ σ α}
    {exit : Exit α} : Reachable w → w.runScript client depth script = some (exit, w') → Reachable w'
  | renew {w : World κ σ} (config : Config) : Reachable w → Reachable (w.renew config)

theorem Reachable.recorded {w : World κ σ} (reachable : w.Reachable) : w.Recorded [] := by
  induction reachable with
  | initial config client =>
    exact ⟨⟨nofun, nofun, nofun, nofun⟩, _, _, .initial config client⟩
  | run _ ran ih => exact stable_recorded.runScript ran ih
  | renew config _ ih =>
    obtain ⟨chronicle, shared, sealed, zones⟩ := ih
    exact ⟨chronicle.renew config, _, _, zones.renew config⟩

/-- Every listener is told faithfully. The first call has one value as the new and the old one. In a
later call the old value matches what the listener was told last, as it was then, and the new one
differs from it. A value that a source gives is told at once if it is the first one or does not match
what was told last, and otherwise it is not told. -/
theorem told_faithfully {w : World κ σ} (reachable : w.Reachable) {id : Nat}
    {comparison : Comparison} (registered : .registered id true comparison ∈ w.journal) :
    (∀ later new old heap earlier, w.journal = later ++ .fired id new old heap :: earlier →
      (∃ before journal, earlier = .answered id new before :: journal) ∧
        match toldLast id earlier with
        | none => old = new
        | some past => comparison.Matches heap old past ∧ comparison.equal heap new old = false) ∧
    ∀ later new heap earlier, w.journal = later ++ .answered id new heap :: earlier →
      ((∃ old heap', later.getLast? = some (.fired id new old heap')) ↔
        Unanswered id earlier ∨
          ∃ past, toldLast id earlier = some past ∧ ¬ comparison.Matches heap new past) := by
  have faithful := reachable.recorded.1.faithful id comparison registered
  constructor
  · intro later new old heap earlier split
    exact faithful.at_fired split
  · intro later new heap earlier split
    exact faithful.at_answered split

/-- A listener that changes the old value that it is given. -/
def meddler : Client Unit Unit where
  watch _ := do
    let v ← Script.obtain (.get "a")
    return .ok v
  listen _ new old := do
    Script.change (.insert old "next" new)
    return .ok ()

/-- Gives the meddler two values, one after the other. -/
def meddling : Script Unit Unit Unit := do
  let v ← Script.obtain (.object [])
  Script.change (.set "a" v)
  let _ ← Script.digest
  let v ← Script.obtain (.object [])
  Script.change (.set "a" v)
  let _ ← Script.digest

theorem told_faithfully_meddling : ∃ w : World Unit Unit, w.Reachable ∧
    .registered 0 true .reference ∈ w.journal ∧
    ∃ later new old heap earlier past, w.journal = later ++ .fired 0 new old heap :: earlier ∧
      toldLast 0 earlier = some past ∧ old.identical past.1 = true ∧
      new.identical old = false := by
  let start : World Unit Unit :=
    ((World.initial .default ()).register (.callable ()) (some ()) .reference).2
  have started : (World.initial .default ()).runScript meddler 0
    (Script.register () (some ()) .reference) = some (.returned 0, start) := rfl
  have ends : ((start.runScript meddler 1 meddling).any fun result =>
      result.2.journal.tails.any fun events =>
        (events.head?.bind (Event.told? 0)).isSome && (toldLast 0 events.tail).isSome) = true := by
    decide +kernel
  obtain ⟨⟨exit, w⟩, ran, called⟩ := (Option.any_eq_true _ _).1 ends
  have reachable : w.Reachable := .run (.run (.initial .default ()) started) ran
  have registered : .registered 0 true .reference ∈ w.journal :=
    (stable_journal _).runScript ran List.mem_cons_self
  obtain ⟨events, suffix, second⟩ := List.any_eq_true.1 called
  obtain ⟨later, split⟩ := (List.mem_tails _ _).1 suffix
  obtain ⟨first, before⟩ := Bool.and_eq_true_iff.1 second
  obtain ⟨now, isCall⟩ := Option.isSome_iff_exists.1 first
  obtain ⟨past, told⟩ := Option.isSome_iff_exists.1 before
  cases events with
  | nil => cases isCall
  | cons event earlier =>
    obtain ⟨old, rfl⟩ := Event.fired_of_told isCall
    obtain ⟨_, call⟩ := (told_faithfully reachable registered).1 _ _ _ _ _ split.symm
    rw [show toldLast 0 earlier = some past from told] at call
    exact ⟨w, reachable, registered, later, _, _, _, _, past, split.symm, told, call⟩

end World
end DataBinding
