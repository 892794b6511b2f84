import DataBinding.Proofs.Similarity
import DataBinding.Scope.Event

/-! What a journal tells about one watcher: which values its source gave, and with which values its
listener was called. In a faithful journal the old value of a call is what the listener was
told before, as it was then, and there is a call exactly when there is something to tell. -/
namespace DataBinding

/-- The watcher that an event registers, or of which it gives a value. -/
def Event.subject : Event → Option Nat
  | .registered id _ _ => some id
  | .answered id _ _ => some id
  | .fired id _ _ _ => some id
  | _ => none

/-- The events that give a value of a watcher. -/
def Event.isOf (id : Nat) : Event → Bool
  | .answered watcher _ _ => watcher == id
  | .fired watcher _ _ _ => watcher == id
  | _ => false

theorem Event.isOf_eq_false {id : Nat} {event : Event} (other : event.subject ≠ some id) :
    event.isOf id = false := by
  cases event <;> simp_all [Event.subject, Event.isOf]

theorem Event.subject_of_isOf {id : Nat} {event : Event} (own : event.isOf id = true) :
    event.subject = some id := by
  cases event <;> simp_all [Event.subject, Event.isOf]

theorem Event.not_isOf {id other : Nat} {event : Event} (own : event.isOf id = true)
    (differs : other ≠ id) : event.isOf other = false := by
  refine event.isOf_eq_false fun same => differs ?_
  rw [event.subject_of_isOf own] at same
  exact (Option.some.inj same).symm

/-- What a call of the listener of a watcher tells, with the heap of its moment. -/
def Event.told? (id : Nat) : Event → Option (Value × Heap)
  | .fired watcher new _ heap => if watcher = id then some (new, heap) else none
  | _ => none

theorem Event.fired_of_told {id : Nat} {event : Event} {past : Value × Heap}
    (told : event.told? id = some past) : ∃ old, event = .fired id past.1 old past.2 := by
  cases event with
  | fired watcher new old heap =>
    by_cases own : watcher = id
    · subst own
      simp only [told?, if_true, Option.some.injEq] at told
      subst told
      exact ⟨old, rfl⟩
    · simp [told?, own] at told
  | _ => cases told

/-- What the latest call of the listener of a watcher told. -/
def toldLast (id : Nat) (journal : List Event) : Option (Value × Heap) :=
  journal.findSome? (Event.told? id)

/-- The source of a watcher has not given a value yet. -/
def Unanswered (id : Nat) (journal : List Event) : Prop :=
  ∀ new heap, .answered id new heap ∉ journal

/-- A value matches one of an earlier heap: it is identical, or has the structure that the other
one had then. -/
def Comparison.Matches (comparison : Comparison) (heap : Heap) (v : Value) (past : Value × Heap) :
    Prop :=
  match comparison with
  | .reference => v.identical past.1 = true
  | .value => heap.Similar v past.2 past.1

/-- A journal in which a listener is told faithfully. Each value that its watcher's source gives
matches the one that was told last, or it is told at once. -/
inductive Faithful (id : Nat) (comparison : Comparison) : List Event → Prop where
  | nil : Faithful id comparison []
  | other {event : Event} {journal : List Event} : event.isOf id = false →
    Faithful id comparison journal → Faithful id comparison (event :: journal)
  | matched {new : Value} {heap : Heap} {past : Value × Heap} {journal : List Event} :
    toldLast id journal = some past → comparison.Matches heap new past →
    Faithful id comparison journal → Faithful id comparison (.answered id new heap :: journal)
  | first {new : Value} {heap heap' : Heap} {journal : List Event} :
    toldLast id journal = none → Unanswered id journal → Faithful id comparison journal →
    Faithful id comparison (.fired id new new heap' :: .answered id new heap :: journal)
  | changed {new old : Value} {heap heap' : Heap} {past : Value × Heap} {journal : List Event} :
    toldLast id journal = some past → ¬ comparison.Matches heap new past →
    comparison.Matches heap' old past → comparison.equal heap' new old = false →
    Faithful id comparison journal →
    Faithful id comparison (.fired id new old heap' :: .answered id new heap :: journal)

variable {id : Nat} {comparison : Comparison} {journal earlier later : List Event} {new old : Value}
  {heap : Heap}

theorem toldLast_cons {event : Event} (other : event.isOf id = false) :
    toldLast id (event :: journal) = toldLast id journal := by
  cases event with
  | fired watcher new old heap =>
    have another : ¬ watcher = id := by simpa [Event.isOf] using other
    simp [toldLast, Event.told?, another]
  | _ => rfl

theorem toldLast_answered : toldLast id (.answered id new heap :: journal) = toldLast id journal := rfl

theorem toldLast_fired :
    toldLast id (.fired id new old heap :: journal) = some (new, heap) := by
  simp [toldLast, Event.told?]

/-! Events that are not of the watcher. -/

theorem toldLast_append {events : List Event} (others : ∀ event ∈ events, event.isOf id = false) :
    toldLast id (events ++ journal) = toldLast id journal := by
  induction events with
  | nil => rfl
  | cons event events ih =>
    obtain ⟨other, rest⟩ := List.forall_mem_cons.1 others
    rw [List.cons_append, toldLast_cons other, ih rest]

theorem Unanswered.append {events : List Event} (others : ∀ event ∈ events, event.isOf id = false)
    (unanswered : Unanswered id journal) : Unanswered id (events ++ journal) := by
  intro new heap mem
  rcases List.mem_append.1 mem with mem | mem
  · have other := others _ mem
    simp [Event.isOf] at other
  · exact unanswered new heap mem

theorem Faithful.append {events : List Event} (others : ∀ event ∈ events, event.isOf id = false)
    (faithful : Faithful id comparison journal) : Faithful id comparison (events ++ journal) := by
  induction events with
  | nil => exact faithful
  | cons event events ih =>
    obtain ⟨other, rest⟩ := List.forall_mem_cons.1 others
    exact .other other (ih rest)

namespace Faithful

/-- A listener is not told anything before its watcher's source has given a value. -/
theorem not_unanswered (faithful : Faithful id comparison journal) {past : Value × Heap}
    (told : toldLast id journal = some past) : ¬ Unanswered id journal := by
  induction faithful with
  | nil => cases told
  | other away _ ih =>
    rw [toldLast_cons away] at told
    intro unanswered
    apply ih told
    intro new heap mem
    exact unanswered new heap (List.mem_cons_of_mem _ mem)
  | matched =>
    intro unanswered
    exact unanswered _ _ List.mem_cons_self
  | first | changed =>
    intro unanswered
    exact unanswered _ _ (List.mem_cons_of_mem _ List.mem_cons_self)

/-- A call of the listener. -/
theorem at_fired (faithful : Faithful id comparison journal)
    (split : journal = later ++ .fired id new old heap :: earlier) :
    (∃ before journal, earlier = .answered id new before :: journal) ∧
      match toldLast id earlier with
      | none => old = new
      | some past => comparison.Matches heap old past ∧ comparison.equal heap new old = false := by
  induction faithful generalizing later with
  | nil => cases later <;> cases split
  | other away _ ih =>
    cases later with
    | nil =>
      cases split
      simp [Event.isOf] at away
    | cons event later =>
      cases split
      exact ih rfl
  | matched told matching _ ih =>
    cases later with
    | nil => cases split
    | cons event later =>
      cases split
      exact ih rfl
  | first told unanswered _ ih =>
    rcases later with _ | ⟨event, _ | ⟨event', later⟩⟩
    · cases split
      rw [toldLast_answered, told]
      exact ⟨⟨_, _, rfl⟩, rfl⟩
    · cases split
    · cases split
      exact ih rfl
  | changed told differs matching unequal _ ih =>
    rcases later with _ | ⟨event, _ | ⟨event', later⟩⟩
    · cases split
      rw [toldLast_answered, told]
      exact ⟨⟨_, _, rfl⟩, matching, unequal⟩
    · cases split
    · cases split
      exact ih rfl

/-- An event that is not of the watcher does not come between a value and its call. -/
theorem next_iff {event : Event} (plain : ∀ old heap, event ≠ .fired id new old heap) :
    (∃ old heap, (event :: later).getLast? = some (.fired id new old heap)) ↔
      ∃ old heap, later.getLast? = some (.fired id new old heap) := by
  cases later with
  | nil => simpa using plain
  | cons next later => rfl

/-- A value that the source gives. -/
theorem at_answered (faithful : Faithful id comparison journal)
    (split : journal = later ++ .answered id new heap :: earlier) :
    (∃ old heap', later.getLast? = some (.fired id new old heap')) ↔
      Unanswered id earlier ∨
        ∃ past, toldLast id earlier = some past ∧ ¬ comparison.Matches heap new past := by
  induction faithful generalizing later with
  | nil => cases later <;> cases split
  | other away _ ih =>
    cases later with
    | nil =>
      cases split
      simp [Event.isOf] at away
    | cons event later =>
      cases split
      rw [next_iff, ih rfl]
      rintro old heap rfl
      simp [Event.isOf] at away
  | matched told matching rest ih =>
    cases later with
    | nil =>
      cases split
      constructor
      · rintro ⟨_, _, ⟨⟩⟩
      · rintro (unanswered | ⟨past, told', differs⟩)
        · exact absurd unanswered (rest.not_unanswered told)
        · cases told.symm.trans told'
          exact absurd matching differs
    | cons event later =>
      cases split
      rw [next_iff (by simp), ih rfl]
  | first told unanswered _ ih =>
    rcases later with _ | ⟨event, _ | ⟨event', later⟩⟩
    · cases split
    · cases split
      constructor
      · exact fun _ => .inl unanswered
      · exact fun _ => ⟨_, _, rfl⟩
    · cases split
      rw [List.getLast?_cons_cons, next_iff (by simp), ih rfl]
  | changed told differs matching unequal _ ih =>
    rcases later with _ | ⟨event, _ | ⟨event', later⟩⟩
    · cases split
    · cases split
      constructor
      · exact fun _ => .inr ⟨_, told, differs⟩
      · exact fun _ => ⟨_, _, rfl⟩
    · cases split
      rw [List.getLast?_cons_cons, next_iff (by simp), ih rfl]

end Faithful
end DataBinding
