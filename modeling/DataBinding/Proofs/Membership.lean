import DataBinding.Proofs.Generations
import DataBinding.Proofs.Moments
import DataBinding.Proofs.Watchers

/-! The watchers of a scope. At every moment of a run they are those that were registered and not yet
removed, once each, in the order of their registration. A watcher that was removed is not heard of
again: its callables are not entered any more, also not by the passes that were on when it was
removed, and removing it again changes nothing. -/
namespace DataBinding

variable {κ σ α : Type}

def Event.registration? : Event → Option Nat
  | .registered watcher _ _ => some watcher
  | _ => none

/-- The event removes the watcher. -/
def Event.removes (id : Nat) : Event → Bool
  | .deregistered watcher => watcher == id
  | _ => false

/-- With the event a callable of the watcher is entered. -/
def Event.enters (id : Nat) : Event → Bool
  | .asked watcher => watcher == id
  | .fired watcher _ _ _ => watcher == id
  | _ => false

/-- The watchers that were registered, the first one first. -/
def registrations (events : List Event) : List Nat :=
  (events.filterMap Event.registration?).reverse

def removed (events : List Event) (id : Nat) : Bool := events.any (Event.removes id)

/-- The watchers that were registered and not removed. -/
def members (events : List Event) : List Nat :=
  (registrations events).filter fun id => !removed events id

variable {event : Event} {events : List Event} {id : Nat}

theorem registrations_cons_registered {listens : Bool} {comparison : Comparison} :
    registrations (.registered id listens comparison :: events) = registrations events ++ [id] := by
  simp [registrations, Event.registration?]

theorem registrations_cons_other (other : event.registration? = none) :
    registrations (event :: events) = registrations events := by
  simp [registrations, other]

theorem removed_iff : removed events id = true ↔ .deregistered id ∈ events := by
  rw [removed, List.any_eq_true]
  constructor
  · rintro ⟨event, mem, removes⟩
    cases event with
    | deregistered watcher =>
      have same : watcher = id := by simpa [Event.removes] using removes
      exact same ▸ mem
    | _ => cases removes
  · intro mem
    exact ⟨_, mem, by simp [Event.removes]⟩

theorem members_cons_plain (plain : event.isStructural = false) :
    members (event :: events) = members events := by
  have other : event.registration? = none := by cases event <;> first | rfl | cases plain
  have keeps : ∀ id, event.removes id = false := by
    intro id
    cases event <;> first | rfl | cases plain
  simp [members, removed, registrations_cons_other other, keeps]

theorem members_cons_registered {listens : Bool} {comparison : Comparison}
    (fresh : removed events id = false) :
    members (.registered id listens comparison :: events) = members events ++ [id] := by
  have keeps : ∀ other, removed (.registered id listens comparison :: events) other =
      removed events other := fun _ => rfl
  simp [members, registrations_cons_registered, keeps, List.filter_append, fresh]

theorem members_cons_deregistered :
    members (.deregistered id :: events) = (members events).filter fun other => other != id := by
  rw [members, registrations_cons_other rfl, members, List.filter_filter]
  apply List.filter_congr
  intro other _
  have split : removed (.deregistered id :: events) other = (id == other || removed events other) := rfl
  rw [split, Bool.not_or, bne, Bool.beq_comm]

namespace World

/-- What a scope has to do with the events that came after those `before` it had watchers. -/
structure Ledger (before events : List Event) (w : World κ σ) : Prop where
  journal : w.journal = events ++ before
  numbered : ∀ id ∈ registrations events, id < w.scope.nextId
  known : ∀ id, removed events id = true → id ∈ registrations events
  members : w.scope.ids = members events
  final : events.Pairwise fun later earlier =>
    ∀ id, earlier.removes id = true → later.enters id = false

namespace Ledger

variable {before : List Event} {w w' : World κ σ}

theorem not_removed (ledger : w.Ledger before events) (mem : id ∈ w.scope.ids) :
    removed events id = false := by
  rw [ledger.members] at mem
  simpa using (List.mem_filter.1 mem).2

/-- A change of something else. -/
theorem carry (ledger : w.Ledger before events) (journal : w'.journal = w.journal)
    (nextId : w'.scope.nextId = w.scope.nextId) (ids : w'.scope.ids = w.scope.ids) :
    w'.Ledger before events where
  journal := journal.trans ledger.journal
  numbered := by
    rw [nextId]
    exact ledger.numbered
  known := ledger.known
  members := ids.trans ledger.members
  final := ledger.final

/-- An event that leaves the set of watchers and enters none but a registered one. -/
theorem report (ledger : w.Ledger before events) (plain : event.isStructural = false)
    (present : ∀ id, event.enters id = true → id ∈ w.scope.ids) :
    (w.report event).Ledger before (event :: events) := by
  have other : event.registration? = none := by cases event <;> first | rfl | cases plain
  have keeps : ∀ id, removed (event :: events) id = removed events id := by
    intro id
    cases event <;> first | rfl | cases plain
  refine ⟨congrArg (_ :: ·) ledger.journal, ?_, ?_, ?_, List.pairwise_cons.2 ⟨?_, ledger.final⟩⟩
  · rw [registrations_cons_other other]
    exact ledger.numbered
  · intro id
    rw [keeps, registrations_cons_other other]
    exact ledger.known id
  · rw [members_cons_plain plain]
    exact ledger.members
  · intro earlier mem id removes
    cases entered : event.enters id with
    | false => rfl
    | true =>
      have gone : removed events id = true := List.any_eq_true.2 ⟨earlier, mem, removes⟩
      exact absurd gone (by simp [ledger.not_removed (present id entered)])

theorem register (ledger : w.Ledger before events) (source : Source κ) (listener : Option κ)
    (comparison : Comparison) :
    (w.register source listener comparison).2.Ledger before
      (.registered w.scope.nextId listener.isSome comparison :: events) := by
  have unknown : w.scope.nextId ∉ registrations events := fun mem =>
    Nat.lt_irrefl _ (ledger.numbered _ mem)
  have fresh : removed events w.scope.nextId = false := by
    cases gone : removed events w.scope.nextId with
    | false => rfl
    | true => exact absurd (ledger.known _ gone) unknown
  refine ⟨congrArg (_ :: ·) ledger.journal, ?_, ?_, ?_, List.pairwise_cons.2 ⟨?_, ledger.final⟩⟩
  · rw [registrations_cons_registered]
    intro id mem
    rcases List.mem_append.1 mem with old | new
    · exact Nat.lt_succ_of_lt (ledger.numbered id old)
    · rw [List.mem_singleton.1 new]
      exact Nat.lt_succ_self _
  · intro id gone
    rw [registrations_cons_registered]
    exact List.mem_append_left _ (ledger.known id gone)
  · rw [members_cons_registered fresh, ← ledger.members]
    exact List.map_append
  · intro earlier _ id _
    rfl

theorem deregister (ledger : w.Ledger before events) (found : (w.scope.find? id).isSome = true) :
    (w.deregister id).Ledger before (.deregistered id :: events) := by
  obtain ⟨watcher, found⟩ := Option.isSome_iff_exists.1 found
  have inside := Scope.mem_ids_of_find? found
  have registered : id ∈ registrations events := by
    rw [ledger.members] at inside
    exact (List.mem_filter.1 inside).1
  have world : w.deregister id =
      ({ w with scope := w.scope.remove id } : World κ σ).report (.deregistered id) := by
    simp only [World.deregister, found]
  rw [world]
  refine ⟨congrArg (_ :: ·) ledger.journal, ?_, ?_, ?_, List.pairwise_cons.2 ⟨?_, ledger.final⟩⟩
  · rw [registrations_cons_other rfl]
    exact ledger.numbered
  · intro other gone
    rw [registrations_cons_other rfl]
    rcases List.mem_cons.1 (removed_iff.1 gone) with same | before
    · cases same
      exact registered
    · exact ledger.known other (removed_iff.2 before)
  · rw [members_cons_deregistered, ← ledger.members]
    exact (List.filter_map (p := fun other => other != id)).symm
  · intro earlier _ other _
    rfl

end Ledger

/-- Whatever happens is entered in the ledger. -/
theorem stable_ledger (before : List Event) :
    Stable (κ := κ) (σ := σ) fun _ w => ∃ events, w.Ledger before events where
  fewer := fun _ ledger => ledger
  step := by
    rintro held values values' w w' op answer run ⟨events, ledger⟩
    cases Op.run_stepped run with
    | changed => exact ⟨events, ledger.carry rfl rfl rfl⟩
    | @remarked event remark =>
      refine ⟨_, ledger.report ?_ ?_⟩ <;>
        cases event <;> simp_all [Event.isRemark, Event.isStructural, Event.enters]
    | registered cache source listener comparison =>
      have kept : ({ w with cache } : World κ σ).Ledger before events := ledger.carry rfl rfl rfl
      exact ⟨_, kept.register source listener comparison⟩
    | deregistered id =>
      cases found : w.scope.find? id with
      | none =>
        simp only [World.deregister, found]
        exact ⟨events, ledger⟩
      | some watcher => exact ⟨_, ledger.deregister (by simp [found])⟩
  report := by
    rintro held w event progress ⟨events, ledger⟩
    refine ⟨_, ledger.report ?_ ?_⟩ <;>
      cases event <;> simp_all [Event.isProgress, Event.isStructural, Event.enters]
  asked := by
    rintro held w watcher found ⟨events, ledger⟩
    refine ⟨_, ledger.report rfl fun id entered => ?_⟩
    have same : watcher.id = id := by simpa [Event.enters] using entered
    exact same ▸ Scope.mem_ids_of_find? found
  call := fun _ ⟨events, ledger⟩ => ⟨events, ledger.carry rfl rfl rfl⟩
  mark := fun _ ⟨events, ledger⟩ => ⟨events, ledger.carry rfl rfl rfl⟩
  matched := fun _ _ ⟨_, ledger⟩ => ⟨_, ledger.report rfl (by simp [Event.enters])⟩
  changed := by
    rintro held w watcher new marker found _ ⟨events, ledger⟩
    have answered : (w.report (.answered watcher.id new w.heap)).Ledger before
        (.answered watcher.id new w.heap :: events) := ledger.report rfl (by simp [Event.enters])
    have ids : (((w.report (.answered watcher.id new w.heap)).mark marker).record watcher
        new).2.scope.ids = w.scope.ids := Scope.ids_setLast _ _ _
    have recorded : (((w.report (.answered watcher.id new w.heap)).mark marker).record watcher
        new).2.Ledger before (.answered watcher.id new w.heap :: events) := answered.carry rfl rfl ids
    simp only [World.announce]
    split
    · exact ⟨_, recorded⟩
    · refine ⟨_, recorded.report rfl fun id entered => ?_⟩
      have same : watcher.id = id := by simpa [Event.enters] using entered
      rw [ids, ← same]
      exact Scope.mem_ids_of_find? found

/-- A scope has exactly the watchers that were registered and not removed, once each and in order. After
a watcher has been removed none of its callables is entered, and to remove it again changes nothing.
This is so at every moment of every run over the scope. -/
theorem removed_for_good (client : Client κ σ) (config : Config) {w v : World κ σ}
    (comes : ComesThrough client (w.renew config) v) : ∃ events, v.journal = events ++ w.journal ∧
      v.scope.ids = (registrations events).filter (fun id => !removed events id) ∧
      v.scope.ids.Nodup ∧
      (∀ id ∈ registrations events, v.deregister id = if removed events id then v else
        ({ v with scope := v.scope.remove id } : World κ σ).report (.deregistered id)) ∧
      ∀ id later earlier, events = later ++ .deregistered id :: earlier →
        ∀ event ∈ later, event.enters id = false := by
  have start : (w.renew config).Ledger w.journal [] :=
    ⟨rfl, by simp [registrations], by simp [removed], rfl, .nil⟩
  obtain ⟨events, ledger⟩ := (stable_ledger w.journal).comesThrough comes ⟨[], start⟩
  refine ⟨events, ledger.journal, ledger.members, ?_, ?_, ?_⟩
  · exact v.scope.ascending.imp fun less => Nat.ne_of_lt less
  · intro id registered
    cases found : v.scope.find? id with
    | none =>
      have absent := Scope.find?_eq_none_iff.1 found
      rw [ledger.members, members, List.mem_filter] at absent
      have gone : removed events id = true := by simpa [registered] using absent
      rw [if_pos gone]
      simp only [World.deregister, found]
    | some watcher =>
      have present := ledger.not_removed (Scope.mem_ids_of_find? found)
      rw [if_neg (by simp [present])]
      simp only [World.deregister, found]
  · intro id later earlier split event mem
    have final := ledger.final
    rw [split] at final
    exact (List.pairwise_append.1 final).2.2 event mem _ List.mem_cons_self id (by simp [Event.removes])

/-- A watcher that removes the first watcher, twice, when it is asked. -/
def quitter : Client Unit Unit where
  watch _ := do
    Script.deregister 0
    Script.deregister 0
    let v ← Script.obtain (.get "a")
    return .ok v
  listen _ _ _ := return .ok ()

/-- Two watchers that do so are asked in two digests. -/
def quitting : Script Unit Unit Unit := do
  let _ ← Script.register () (some ()) .reference
  let _ ← Script.register () (some ()) .reference
  let _ ← Script.digest
  let _ ← Script.digest

theorem removed_for_good_quitting : ∃ v : World Unit Unit,
    ComesThrough quitter ((World.initial .default ()).renew .default) v ∧
    v.scope.ids = [1] ∧ v.deregister 0 = v ∧
    ∃ later earlier, v.journal = later ++ .deregistered 0 :: earlier ∧
      (∃ event ∈ earlier, event.enters 0 = true) ∧ ∀ event ∈ later, event.enters 0 = false := by
  have ends : ((((World.initial .default ()).renew .default).runScript quitter 1 quitting).any
      fun (_, v) => registrations v.journal == [0, 1] && removed v.journal 0 &&
        !removed v.journal 1 && v.journal.any (Event.enters 0)) = true := by
    decide +kernel
  obtain ⟨⟨exit, v⟩, ran, found⟩ := (Option.any_eq_true _ _).1 ends
  simp only [Bool.and_eq_true, beq_iff_eq, Bool.not_eq_true'] at found
  obtain ⟨⟨⟨registered, gone⟩, present⟩, entered⟩ := found
  have comes := (Reaches.start.run ran).comesThrough
  obtain ⟨events, journal, ids, _, again, final⟩ := removed_for_good quitter .default comes
  rw [show ((World.initial .default ()).journal : List Event) = [] from rfl,
    List.append_nil] at journal
  subst journal
  obtain ⟨later, earlier, split⟩ := List.append_of_mem (removed_iff.1 gone)
  refine ⟨v, comes, by simp [ids, registered, gone, present], ?_, later, earlier, split, ?_,
    final 0 later earlier split⟩
  · rw [again 0 (by simp [registered]), if_pos gone]
  · obtain ⟨event, mem, enters⟩ := List.any_eq_true.1 entered
    rw [split] at mem
    rcases List.mem_append.1 mem with after | mem
    · exact absurd enters (by simp [final 0 later earlier split event after])
    · rcases List.mem_cons.1 mem with rfl | mem
      · cases enters
      · exact ⟨event, mem, enters⟩

end World
end DataBinding
