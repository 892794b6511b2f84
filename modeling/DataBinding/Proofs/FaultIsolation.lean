import DataBinding.Proofs.LeavingOut
import DataBinding.Proofs.Passes

/-! Failures of callables change nothing but the reports of them. A digest is run side by side with
one in which watchers that always fail are left out and listeners that fail return normally after the
same writes. A failing watcher is never recorded, marked or told of, and a failing listener is called
when the value has been recorded: so the two digests stay alike but for what is left out. -/
namespace DataBinding

variable {κ σ α : Type} {ρ ρ' : Pairing} {out : Nat → Bool}

/-- The same client, except that listeners that fail return normally after the same operations. -/
def Client.mended (client : Client κ σ) : Client κ σ where
  watch := client.watch
  listen key new old := do
    let _ ← (client.listen key new old).attempt
    return .ok ()

theorem Script.run_attempt {β : Type} (script : Script κ σ α) (b : β) (digest : Digest κ σ)
    (values : List Value) (w : World κ σ) :
    (script.attempt.bind fun _ => .pure b).run digest values w =
      (script.run digest values w).map fun (_, values, w) => (.returned b, values, w) := by
  induction script generalizing values w with
  | pure => rfl
  | panic => rfl
  | perform op next ih =>
    simp only [Script.attempt, Script.bind, Script.run]
    cases op.run digest values w with
    | none => rfl
    | some result => exact ih result.1 result.2.1 result.2.2

theorem Client.run_mended (client : Client κ σ) (key : κ) (new old : Ref) (digest : Digest κ σ)
    (values : List Value) (w : World κ σ) : (client.mended.listen key new old).run digest values w =
      ((client.listen key new old).run digest values w).map
        fun (_, values, w) => (.returned (.ok ()), values, w) :=
  (client.listen key new old).run_attempt (Except.ok ()) digest values w

/-! Journals that differ by failures. -/

def Event.isListenerFault : Event → Bool
  | .faulted _ .listener _ => true
  | _ => false

/-- A watcher that is left out has answered. -/
def Event.isAnswerOf (out : Nat → Bool) : Event → Bool
  | .answered watcher _ _ => out watcher
  | _ => false

/-- What happened, and what happened beside it without the failures: the reports of listeners that
failed are missing, and so are the evaluations of watchers that are left out, all of which failed. The
rest is equal but for the identity of containers. -/
inductive Besides (ρ : Pairing) (out : Nat → Bool) : List Event → List Event → Prop where
  | nil : Besides ρ out [] []
  | same {a b : Event} {events events' : List Event} : a.Alike ρ b → a.isListenerFault = false →
    Besides ρ out events events' → Besides ρ out (a :: events) (b :: events')
  | answered {δ : Pairing} {watcher : Nat} {new new' : Value} {heap heap' : Heap}
      {events events' : List Event} : δ ≤ ρ → Heap.Alike δ heap heap' → new.Alike δ new' →
    Besides ρ out events events' →
      Besides ρ out (.answered watcher new heap :: events) (.answered watcher new' heap' :: events')
  | mended {watcher : Nat} {fault : Fault} {events events' : List Event} :
    Besides ρ out events events' → Besides ρ out (.faulted watcher .listener fault :: events) events'
  | leftOut {watcher : Nat} {fault : Fault} {notes events events' : List Event} :
    out watcher = true → (∀ note ∈ notes, ∃ message, note = .note message) →
      Besides ρ out events events' →
        Besides ρ out (.faulted watcher .watch fault :: (notes ++ .asked watcher :: events)) events'

namespace Besides

variable {events events' news news' : List Event}

theorem mono (larger : ρ ≤ ρ') (besides : Besides ρ out events events') :
    Besides ρ' out events events' := by
  induction besides with
  | nil => exact .nil
  | same alike plain _ ih => exact .same (alike.mono larger) plain ih
  | answered smaller heaps values _ ih =>
    exact .answered (Pairing.le_trans smaller larger) heaps values ih
  | mended _ ih => exact .mended ih
  | leftOut left notes _ ih => exact .leftOut left notes ih

theorem append (latest : Besides ρ out news news') (besides : Besides ρ out events events') :
    Besides ρ out (news ++ events) (news' ++ events') := by
  induction latest with
  | nil => exact besides
  | same alike plain _ ih => exact .same alike plain ih
  | answered smaller heaps values _ ih => exact .answered smaller heaps values ih
  | mended _ ih => exact .mended ih
  | leftOut left notes _ ih =>
    rw [List.cons_append, List.append_assoc, List.cons_append]
    exact .leftOut left notes ih

theorem one {event : Event} (plain : ∀ watcher new old heap, event ≠ .fired watcher new old heap)
    (other : event.isListenerFault = false) : Besides ρ out [event] [event] :=
  .same (.other plain) other .nil

theorem operations (operations : ∀ event ∈ events, event.isOperation = true) :
    Besides ρ out events events := by
  induction events with
  | nil => exact .nil
  | cons event events ih =>
    obtain ⟨operation, others⟩ := List.forall_mem_cons.1 operations
    refine .same (.other ?_) ?_ (ih others)
    · rintro _ _ _ _ rfl
      cases operation
    · cases event <;> first | rfl | cases operation

end Besides

namespace World

variable {client : Client κ σ} {s l l' r r' w w' : World κ σ}

/-- A run that started in the world `s` and one without the failures, started without the watchers that
are left out. -/
structure Isolated (out : Nat → Bool) (s l r : World κ σ) (ρ : Pairing) : Prop where
  lockstep : Heap.Lockstep s.known ρ s.heap l.heap s.heap r.heap
  worlds : (l.leaveOut out).Alike ρ (Value.Alike ρ) r
  marker : l.scope.marker = r.scope.marker
  journals : ∃ events events', l.journal = events ++ s.journal ∧ r.journal = events' ++ s.journal ∧
    Besides ρ out events events'

namespace Isolated

theorem start (closed : w.Closed) (out : Nat → Bool) :
    Isolated out (w.leaveOut out) w (w.leaveOut out) (w.leaveOut out).known :=
  have alike := (closed.leaveOut out).alike
  ⟨.refl alike.heap, alike, rfl, [], [], rfl, rfl, .nil⟩

theorem step (isolated : Isolated out s l r ρ)
    (lockstep : Heap.Lockstep ρ ρ' l.heap l'.heap r.heap r'.heap)
    (worlds : (l'.leaveOut out).Alike ρ' (Value.Alike ρ') r')
    (marker : l'.scope.marker = r'.scope.marker) {news news' : List Event}
    (besides : Besides ρ' out news news') (left : l'.journal = news ++ l.journal)
    (right : r'.journal = news' ++ r.journal) : Isolated out s l' r' ρ' where
  lockstep := isolated.lockstep.trans lockstep
  worlds := worlds
  marker := marker
  journals := by
    obtain ⟨events, events', before, before', same⟩ := isolated.journals
    exact ⟨news ++ events, news' ++ events', by rw [left, before, List.append_assoc],
      by rw [right, before', List.append_assoc], besides.append (same.mono lockstep.larger)⟩

theorem mark (isolated : Isolated out s l r ρ) (marker : Option Marker) :
    Isolated out s (l.mark marker) (r.mark marker) ρ :=
  ⟨isolated.lockstep, { isolated.worlds with }, rfl, isolated.journals⟩

/-- Reports that both make. -/
theorem report (isolated : Isolated out s l r ρ) {event event' : Event}
    (besides : Besides ρ out [event] [event']) : Isolated out s (l.report event) (r.report event') ρ :=
  isolated.step (.refl isolated.worlds.heap) (isolated.worlds.report event event') isolated.marker
    besides rfl rfl

/-- The report of a failing listener is missing on one side. -/
theorem absorb (isolated : Isolated out s l r ρ) (watcher : Nat) (result : Except Fault Unit) :
    Isolated out s (l.absorb watcher .listener result) r ρ := by
  cases result with
  | ok => exact isolated
  | error fault =>
    show Isolated out s (l.report (.faulted watcher .listener fault)) r ρ
    exact isolated.step (.refl isolated.worlds.heap) { isolated.worlds with } isolated.marker
      (.mended .nil) rfl rfl

/-- A change is recorded and told alike. -/
theorem tell (writes : ∀ key new old, (client.listen key new old).Uses Op.usesData)
    (isolated : Isolated out s l r ρ) {a b : Watcher κ} (watchers : a.Alike (Value.Alike ρ) b)
    {v w : Value} (values : v.Alike ρ w) (nested nested' : Digest κ σ) :
    ∃ ρ' l' r', World.tell client nested a v l = some l' ∧
      World.tell client.mended nested' b w r = some r' ∧ Isolated out s l' r' ρ' := by
  obtain ⟨ρ₁, step, worlds, last⟩ := isolated.worlds.record watchers values
  rw [record_leaveOut] at step worlds last
  have recorded : Isolated out s (l.record a v).2 (r.record b w).2 ρ₁ :=
    isolated.step step worlds isolated.marker .nil rfl rfl
  unfold World.tell react
  rw [← watchers.id, ← watchers.listener]
  generalize l.record a v = left at *
  generalize r.record b w = right at *
  obtain ⟨old, l₁⟩ := left
  obtain ⟨old', r₁⟩ := right
  have new₁ := values.mono step.larger
  have old₁ := last.getD new₁
  cases a.listener with
  | none => exact ⟨ρ₁, l₁, r₁, rfl, rfl, recorded⟩
  | some key =>
    let call : Event := .fired a.id v (old.getD v) l₁.heap
    let call' : Event := .fired a.id w (old'.getD w) r₁.heap
    have fired : Isolated out s (l₁.report call) (r₁.report call') ρ₁ :=
      recorded.report (.same (.fired (Pairing.le_refl _) worlds.heap new₁ old₁) rfl .nil)
    have both := (client.listen key ⟨0⟩ ⟨1⟩).run_alike fired.worlds (.cons new₁ (.cons old₁ .nil))
    rw [Script.run_leaveOut out (writes key ⟨0⟩ ⟨1⟩)] at both
    obtain ⟨⟨exit, given, l₂⟩, ran⟩ :=
      (writes key ⟨0⟩ ⟨1⟩).startsNoDigest.run [v, old.getD v] (l₁.report call)
    rw [ran, Option.map_some] at both
    obtain ⟨⟨exit', given', r₂⟩, ran', together⟩ := both.some_of
    obtain ⟨rfl, ⟨ρ₂, step₂, worlds₂, _⟩, events, journal, journal', operations⟩ := together
    have marker : l₂.scope.marker = r₂.scope.marker := by
      rw [(writes key ⟨0⟩ ⟨1⟩).run_scope ran, (writes key ⟨0⟩ ⟨1⟩).run_scope ran']
      exact fired.marker
    have after : Isolated out s l₂ r₂ ρ₂ := fired.step step₂
      (worlds₂.imp fun _ _ => .mono step₂.larger) marker (.operations operations) journal journal'
    have listened : (client.listen key ⟨0⟩ ⟨1⟩).run nested [v, old.getD v]
        (l₁.report (.fired a.id v (old.getD v) l₁.heap)) = some (exit, given, l₂) :=
      Script.run_eq nested ran
    have listened' : (client.mended.listen key ⟨0⟩ ⟨1⟩).run nested' [w, old'.getD w]
        (r₁.report (.fired a.id w (old'.getD w) r₁.heap)) =
          some (.returned (.ok ()), given', r₂) := by
      rw [client.run_mended, Script.run_eq nested' ran']
      rfl
    simp only [listened, listened']
    rcases exit with (message | ⟨⟩) | panic
    · exact ⟨ρ₂, _, _, rfl, rfl, after.absorb a.id (.error (.failed message))⟩
    · exact ⟨ρ₂, _, _, rfl, rfl, after⟩
    · exact ⟨ρ₂, _, _, rfl, rfl, after.absorb a.id (.error (.panicked panic))⟩

end Isolated

/-! Visits. -/

/-- A watcher that is left out fails, and nothing comes of its visit. -/
theorem visit_leftOut (reads : ∀ key, (client.watch key).Uses Op.readsData)
    (writes : ∀ key new old, (client.listen key new old).Uses Op.usesData) {nested : Digest κ σ}
    {generation : UInt64} {id : Nat} {turn : Turn} (isolated : Isolated out s l r ρ)
    (left : out id = true) (run : visit client nested generation id l = some (turn, l'))
    (silent : l'.journal.countP (Event.isAnswerOf out) = l.journal.countP (Event.isAnswerOf out)) :
    turn = .clean ∧ Isolated out s l' r ρ := by
  unfold visit at run
  cases found : l.scope.find? id with
  | none =>
    simp only [found] at run
    cases run
    exact ⟨rfl, isolated⟩
  | some watcher =>
    obtain ⟨_, rfl⟩ := Scope.find?_eq_some_iff.1 found
    obtain ⟨answer, l₁, notes, grown, evaluated, journal, plain⟩ := evaluate_notes reads watcher l
    simp only [found, evaluated] at run
    cases answer with
    | error fault =>
      cases run
      refine ⟨rfl, ?_⟩
      show Isolated out s (l₁.report (.faulted watcher.id .watch fault)) r ρ
      have alone : Besides ρ out (.faulted watcher.id .watch fault ::
          (notes ++ [.asked watcher.id])) [] := .leftOut left plain .nil
      refine isolated.step (isolated.worlds.heap.lockstep_of_grows grown.heap (.refl _ _))
        (isolated.worlds.grown ⟨grown.heap, ?_, grown.kept, grown.client⟩
          (Reads.refl r).toGrown) ?_ alone ?_ rfl
      · exact congrArg (Scope.leaveOut out) grown.scope
      · rw [← isolated.marker]
        exact congrArg Scope.marker grown.scope
      · show _ :: l₁.journal = _
        rw [journal]
        simp
    | ok new =>
      have still : l₁.scope.find? watcher.id = some watcher := by rw [grown.scope, found]
      simp only [still] at run
      obtain ⟨events, elapses, _⟩ := settle_elapses
        (fun key new old => (writes key new old).startsNoDigest)
        (show (l₁.report (.answered watcher.id new l₁.heap)).scope.find? watcher.id = some watcher
          from still) run
      have after : l'.journal = events ++ .answered watcher.id new l₁.heap ::
          (notes ++ .asked watcher.id :: l.journal) := by
        rw [elapses.journal, World.report, journal]
      simp only [after, List.countP_append, List.countP_cons, Event.isAnswerOf, left, if_true] at silent
      omega

/-- Any other watcher answers alike on both sides. -/
theorem evaluate_isolated (reads : ∀ key, (client.watch key).Uses Op.readsData)
    (isolated : Isolated out s l r ρ) {a b : Watcher κ} (watchers : a.Alike (Value.Alike ρ) b)
    (nested nested' : Digest κ σ) : ∃ ρ' answer answer' l₁ r₁,
      evaluate client nested a l = some (answer, l₁) ∧
      evaluate client.mended nested' b r = some (answer', r₁) ∧ ρ ≤ ρ' ∧
      Isolated out s l₁ r₁ ρ' ∧ AnswerAlike ρ' answer answer' ∧ l.Grown l₁ ∧ r.Grown r₁ := by
  obtain ⟨answer, l₁, _, grown, evaluated, _⟩ := evaluate_notes reads a l
  obtain ⟨answer', r₁, _, grown', evaluated', _⟩ := evaluate_notes reads b r
  have both := evaluate_together client isolated.worlds watchers.source
  rw [evaluate_leaveOut out fun key => (reads key).mono fun _ => Op.usesData_of_reads, evaluated,
    show evaluate client noDigest b r = some (answer', r₁) from evaluated' noDigest,
    Option.map_some] at both
  cases both with
  | some together =>
  obtain ⟨⟨ρ', step, worlds, answers⟩, events, journal, journal', operations⟩ := together
  refine ⟨ρ', answer, answer', l₁, r₁, evaluated nested,
    (show evaluate client.mended nested' b r = _ from evaluated' nested'), step.larger, ?_, answers,
    grown, grown'⟩
  have asked : Besides ρ' out (events ++ [.asked a.id]) (events ++ [.asked b.id]) := by
    rw [watchers.id]
    exact (Besides.operations operations).append (.one (by simp) rfl)
  refine isolated.step step (worlds.imp fun _ _ => .mono step.larger) ?_ asked ?_ ?_
  · rw [grown.scope, grown'.scope, isolated.marker]
  · exact journal.trans (List.append_assoc events [.asked a.id] l.journal).symm
  · exact journal'.trans (List.append_assoc events [.asked b.id] r.journal).symm

/-- Alike answers are compared alike. -/
theorem settle_isolated (writes : ∀ key new old, (client.listen key new old).Uses Op.usesData)
    (isolated : Isolated out s l r ρ) {a b : Watcher κ} (watchers : a.Alike (Value.Alike ρ) b)
    {v w : Value} (values : v.Alike ρ w) (nested nested' : Digest κ σ) (generation : UInt64) :
    ∃ turn ρ' l' r', settle client nested generation a v l = some (turn, l') ∧
      settle client.mended nested' generation b w r = some (turn, r') ∧
      Isolated out s l' r' ρ' := by
  have same : a.isSettled l.heap v = b.isSettled r.heap w :=
    watchers.isSettled_eq isolated.worlds.heap values
  have generations : l.scope.generation = r.scope.generation := isolated.worlds.generation
  cases settled : a.isSettled l.heap v with
  | true =>
    unfold settle
    rw [if_pos settled, if_pos (same.symm.trans settled), ← isolated.marker, ← generations,
      ← watchers.id]
    exact ⟨_, ρ, l, r, rfl, rfl, isolated⟩
  | false =>
    rw [settle_changed nested generation settled,
      settle_changed nested' generation (same.symm.trans settled), ← watchers.id]
    obtain ⟨ρ', l', r', told, told', isolated'⟩ :=
      (isolated.mark (some ⟨a.id, generation⟩)).tell writes watchers values nested nested'
    rw [told, told']
    exact ⟨.dirty, ρ', l', r', rfl, rfl, isolated'⟩

/-- So the visit of a watcher that is not left out goes the same on both sides. -/
theorem visit_isolated (reads : ∀ key, (client.watch key).Uses Op.readsData)
    (writes : ∀ key new old, (client.listen key new old).Uses Op.usesData)
    (isolated : Isolated out s l r ρ) (nested nested' : Digest κ σ) (generation : UInt64) {id : Nat}
    (stays : out id = false) : ∃ turn ρ' l' r', visit client nested generation id l = some (turn, l') ∧
      visit client.mended nested' generation id r = some (turn, r') ∧ Isolated out s l' r' ρ' := by
  have both := Scope.find?_rel isolated.worlds.watchers id
  rw [show (l.leaveOut out).scope.find? id = l.scope.find? id by
    rw [World.leaveOut, Scope.find?_leaveOut, stays, if_neg Bool.false_ne_true]] at both
  unfold visit
  cases found : l.scope.find? id with
  | none =>
    rw [found] at both
    have missing : r.scope.find? id = none := by simpa using both.isSome_eq.symm
    rw [missing]
    exact ⟨.clean, ρ, l, r, rfl, rfl, isolated⟩
  | some a =>
    rw [found] at both
    obtain ⟨b, found', watchers⟩ := both.some_of
    obtain ⟨_, rfl⟩ := Scope.find?_eq_some_iff.1 found
    obtain ⟨ρ₁, answer, answer', l₁, r₁, evaluated, evaluated', larger, isolated₁, answers, grown,
      grown'⟩ := evaluate_isolated reads isolated watchers nested nested'
    simp only [found', evaluated, evaluated']
    cases answers with
    | error fault =>
      exact ⟨.clean, ρ₁, _, _, rfl, rfl, isolated₁.report (.one (by simp) rfl)⟩
    | @ok v w values =>
      have still : l₁.scope.find? a.id = some a := by rw [grown.scope, found]
      have still' : r₁.scope.find? a.id = some b := by rw [grown'.scope, found']
      simp only [still, still']
      exact settle_isolated writes (isolated₁.report (.answered (Pairing.le_refl _)
        isolated₁.worlds.heap values .nil)) (watchers.imp fun _ _ => .mono larger) values nested nested'
          generation

/-! Passes and digests. -/

/-- How often watchers that are left out have answered. -/
def answers (out : Nat → Bool) (w : World κ σ) : Nat := w.journal.countP (Event.isAnswerOf out)

section SideBySide

variable (reads : ∀ key, (client.watch key).Uses Op.readsData)
  (writes : ∀ key new old, (client.listen key new old).Uses Op.usesData) {nested : Digest κ σ}
  (nested' : Digest κ σ) (keeps : ∀ n, nested.Keeps fun _ w => n ≤ w.answers out)

include reads writes keeps

theorem visitAll_isolated {generation : UInt64} {rest : List Nat} {dirty changed : Bool}
    (isolated : Isolated out s l r ρ)
    (run : visitAll client nested generation rest dirty l = some (changed, l'))
    (silent : l'.answers out = l.answers out) :
    ∃ ρ' r', visitAll client.mended nested' generation (rest.filter fun id => !out id) dirty r =
      some (changed, r') ∧ Isolated out s l' r' ρ' := by
  induction rest generalizing l r ρ dirty with
  | nil =>
    cases run
    exact ⟨ρ, r, rfl, isolated⟩
  | cons id rest ih =>
    simp only [visitAll] at run
    cases visited : visit client nested generation id l with
    | none =>
      rw [visited] at run
      cases run
    | some result =>
      obtain ⟨turn, l₁⟩ := result
      have sooner := (stable_countP (Event.isAnswerOf out) (l.answers out)).visit (keeps _) []
        visited (Nat.le_refl _)
      have later : ∀ {dirty}, visitAll client nested generation rest dirty l₁ = some (changed, l') →
          l₁.answers out = l.answers out := fun others =>
        Nat.le_antisymm (silent ▸ (stable_countP (Event.isAnswerOf out) (l₁.answers out)).visitAll
          (keeps _) [] others (Nat.le_refl _)) sooner
      rw [visited] at run
      cases left : out id with
      | true =>
        have silent₁ : l₁.answers out = l.answers out := by
          cases turn with
          | settled =>
            cases run
            exact silent
          | clean | dirty => exact later run
        obtain ⟨rfl, isolated₁⟩ := visit_leftOut reads writes isolated left visited silent₁
        rw [List.filter_cons_of_neg (by simp [left])]
        exact ih isolated₁ run (silent.trans silent₁.symm)
      | false =>
        obtain ⟨turn', ρ₁, _, r₁, again, visited', isolated₁⟩ :=
          visit_isolated reads writes isolated nested nested' generation left
        cases visited.symm.trans again
        rw [List.filter_cons_of_pos (by simp [left])]
        simp only [visitAll, visited']
        cases turn with
        | settled =>
          cases run
          exact ⟨ρ₁, r₁, rfl, isolated₁⟩
        | clean => exact ih isolated₁ run (silent.trans (later run).symm)
        | dirty => exact ih isolated₁ run (silent.trans (later run).symm)

theorem passes_isolated {left done : Nat} {outcome : Except Divergence Unit}
    (isolated : Isolated out s l r ρ)
    (run : passes client nested left done l = some (outcome, l'))
    (silent : l'.answers out = l.answers out) :
    ∃ ρ' r', passes client.mended nested' left done r = some (outcome, r') ∧
      Isolated out s l' r' ρ' := by
  induction left generalizing l r ρ done with
  | zero =>
    cases run
    simp only [passes, ← isolated.worlds.config]
    exact ⟨ρ, _, rfl, isolated.report (.one (by simp) rfl)⟩
  | succ left ih =>
    simp only [passes] at run
    cases passed : pass client nested l with
    | none =>
      rw [passed] at run
      cases run
    | some result =>
      obtain ⟨changed, l₁⟩ := result
      have started : Isolated out s (l.report .passStarted) (r.report .passStarted) ρ :=
        isolated.report (.one (by simp) rfl)
      have sooner := (stable_countP (Event.isAnswerOf out) (l.answers out)).visitAll (keeps _) []
        passed (countP_le_report _ l .passStarted)
      have later : l₁.answers out ≤ l'.answers out := by
        rw [passed] at run
        cases changed with
        | false =>
          cases run
          exact countP_le_report _ l₁ _
        | true =>
          exact (stable_countP (Event.isAnswerOf out) (l₁.answers out)).passes (keeps _) [] run
            (Nat.le_refl _)
      have silent₁ : l₁.answers out = l.answers out := Nat.le_antisymm (silent ▸ later) sooner
      obtain ⟨ρ₁, r₁, passed', isolated₁⟩ := visitAll_isolated reads writes nested' keeps started passed
        silent₁
      have snapshot : l.scope.ids.filter (fun id => !out id) = r.scope.ids := by
        rw [← Scope.ids_leaveOut]
        exact Scope.ids_eq isolated.worlds.watchers
      have generation : l.scope.generation = r.scope.generation := isolated.worlds.generation
      rw [snapshot, generation] at passed'
      simp only [passes, show pass client.mended nested' r = some (changed, r₁) from passed']
      rw [passed] at run
      cases changed with
      | false =>
        cases run
        exact ⟨ρ₁, _, rfl, isolated₁.report (.one (by simp) rfl)⟩
      | true => exact ih isolated₁ run (silent.trans silent₁.symm)

end SideBySide

/-- Failures of callables are isolated. Beside a digest there is one without the watchers that always
fail in it, in which listeners that fail return normally: it has the same outcome, and nothing else
happens in it but what is left out, so that the same listeners are called with the same values in
the same order, in as many passes. It leaves the same data, and the other watchers with the same
last values, up to the identity of containers that were built meanwhile. -/
theorem digest_isolates_faults (client : Client κ σ)
    (reads : ∀ key, (client.watch key).Uses Op.readsData)
    (writes : ∀ key new old, (client.listen key new old).Uses Op.usesData) (w : World κ σ)
    (closed : w.Closed) (out : Nat → Bool) (depth : Nat) :
    ∃ outcome w₁ events₁, digest client (depth + 1) w = some (outcome, w₁) ∧
      w₁.journal = events₁ ++ w.journal ∧
      ((∀ id new heap, out id = true → .answered id new heap ∉ events₁) →
        ∃ ρ w₂ events₂, digest client.mended (depth + 1) (w.leaveOut out) = some (outcome, w₂) ∧
          w₂.journal = events₂ ++ w.journal ∧ Besides ρ out events₁ events₂ ∧
          (w₁.leaveOut out).Alike ρ (Value.Alike ρ) w₂ ∧
          (∀ h ∈ w.heap.reached (w.leaveOut out).roots, ρ.pairs h h) ∧
          ∀ a b, ρ.pairs a b → a = b ∧ a ∈ w.heap.reached (w.leaveOut out).roots ∨
            w.heap.size ≤ a.index ∧ w.heap.size ≤ b.index) := by
  have onlyReads := fun key => (reads key).onlyReads
  have quiet := fun key new old => (writes key new old).startsNoDigest
  have marked := Isolated.mark (.start closed out) none
  obtain ⟨outcome, w₁, run⟩ := passes_end onlyReads quiet (digest client depth)
    (w := w.mark none) (closed.alike.mark none none).closed_left (max w.scope.config.ttl 1) 0
  obtain ⟨events₁, journal⟩ := (stable_suffix w.journal).passes
    ((stable_suffix w.journal).digest client depth) [] run (List.suffix_refl _)
  refine ⟨outcome, w₁, events₁, run, journal.symm, fun silent => ?_⟩
  have silent' : w₁.answers out = (w.mark none).answers out := by
    have none : events₁.countP (Event.isAnswerOf out) = 0 := by
      refine List.countP_eq_zero.2 fun event mem answers => ?_
      cases event with
      | answered id new heap => exact silent id new heap answers mem
      | _ => cases answers
    rw [answers, ← journal, List.countP_append, none, Nat.zero_add]
    rfl
  obtain ⟨ρ, w₂, run', isolated⟩ := passes_isolated reads writes (digest client.mended depth)
    (fun n => (stable_countP _ n).digest client depth) marked run silent'
  obtain ⟨events, events', left, right, besides⟩ := isolated.journals
  have same : events = events₁ := List.append_cancel_right (left.symm.trans journal.symm)
  exact ⟨ρ, w₂, events', run', right, same ▸ besides, isolated.worlds,
    fun h mem => isolated.lockstep.larger h h ⟨rfl, mem⟩,
    fun a b pair => (isolated.lockstep.fresh pair).imp_left fun known => known⟩

/-- A watcher that fails, and one whose listener writes a field and then fails. -/
def failing : Client Bool Unit where
  watch reads := do
    let v ← Script.obtain (.get "a")
    if reads then return .ok v else return .error "no"
  listen _ new _ := do
    Script.change (.set "b" new)
    .panic .unknown

theorem digest_isolates_faults_failing :
    let w : World Bool Unit := (((World.initial .default ()).register (.callable false) none
      .reference).2.register (.callable true) (some true) .reference).2
    let out : Nat → Bool := (· == 0)
    w.Closed ∧ ∃ ρ w₁ w₂ events₁ events₂, digest failing 1 w = some (.ok (), w₁) ∧
      digest failing.mended 1 (w.leaveOut out) = some (.ok (), w₂) ∧ w₁.journal = events₁ ++ w.journal ∧
      w₂.journal = events₂ ++ w.journal ∧ Besides ρ out events₁ events₂ ∧
      (w₁.leaveOut out).Alike ρ (Value.Alike ρ) w₂ := by
  intro w out
  have closed : w.Closed := ((closed_initial .default ()).register _ _ _).register _ _ _
  have reads : ∀ key, (failing.watch key).Uses Op.readsData := by
    rintro (_ | _) <;> exact ⟨rfl, fun _ => trivial⟩
  have writes : ∀ key new old, (failing.listen key new old).Uses Op.usesData :=
    fun key new old => ⟨rfl, fun _ => trivial⟩
  have converges : ∃ w₁, digest failing 1 w = some (.ok (), w₁) ∧ w₁.answers out = 0 :=
    ⟨_, rfl, by decide⟩
  obtain ⟨outcome, w₁, events₁, run, journal, isolated⟩ :=
    digest_isolates_faults failing reads writes w closed out 0
  obtain ⟨w₁', run', silent⟩ := converges
  cases run.symm.trans run'
  obtain ⟨ρ, w₂, events₂, again, journal', besides, worlds, _⟩ := isolated fun id new heap left mem =>
    List.countP_eq_zero.1 silent (.answered id new heap) (journal ▸ List.mem_append_left _ mem) left
  exact ⟨closed, ρ, w₁, w₂, events₁, events₂, run, again, journal, journal', besides, worlds⟩

end World
end DataBinding
