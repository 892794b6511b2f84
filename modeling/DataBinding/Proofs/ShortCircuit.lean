import DataBinding.Proofs.Generations
import DataBinding.Proofs.PlainDigest

/-! Stopping a pass at the marker never changes what a digest does. A digest and a plain digest are
run side by side. Up to the stop they make the same visits in alike worlds; at the stop the
watchers that the plain pass still visits are settled. That is what the marker stands for: while
the set of watchers is the one in which it was set, every watcher behind it is settled or still
to be visited in this pass. -/
namespace DataBinding

variable {κ σ α : Type} {ρ ρ' : Pairing}

def Op.startsDigest : Op κ σ → Bool
  | .digest => true
  | _ => false

/-- No operation of the script starts a digest. -/
def Script.StartsNoDigest : Script κ σ α → Prop
  | .pure _ => True
  | .panic _ => True
  | .perform op next => op.startsDigest = false ∧ ∀ answer, (next answer).StartsNoDigest

/-- An operation that starts no digest has an answer. -/
theorem Op.run_answers (op : Op κ σ) (plain : op.startsDigest = false) (values : List Value)
    (w : World κ σ) : ∃ result, op.run noDigest values w = some result := by
  cases op with
  | digest => cases plain
  | evalExpr text locals =>
    simp only [Op.run]
    split <;> exact ⟨_, rfl⟩
  | _ => exact ⟨_, rfl⟩

theorem Script.StartsNoDigest.run {script : Script κ σ α} (quiet : script.StartsNoDigest)
    (values : List Value) (w : World κ σ) : ∃ result, script.run noDigest values w = some result := by
  induction script generalizing values w with
  | pure a => exact ⟨_, rfl⟩
  | panic p => exact ⟨_, rfl⟩
  | perform op next ih =>
    obtain ⟨plain, later⟩ := quiet
    obtain ⟨⟨answer, values', w'⟩, step⟩ := op.run_answers plain values w
    simp only [Script.run, step]
    exact ih answer (later answer) values' w'

/-! Side by side. -/

/-- Events that are equal but for the identity of containers. A call of a listener is compared in
the heaps of its moment. -/
inductive Event.Alike (ρ : Pairing) : Event → Event → Prop where
  | fired {δ : Pairing} {watcher : Nat} {new new' old old' : Value} {heap heap' : Heap} :
    δ ≤ ρ → Heap.Alike δ heap heap' → new.Alike δ new' → old.Alike δ old' →
      Event.Alike ρ (.fired watcher new old heap) (.fired watcher new' old' heap')
  | other {event : Event} : (∀ watcher new old heap, event ≠ .fired watcher new old heap) →
    Event.Alike ρ event event

theorem Event.Alike.mono (larger : ρ ≤ ρ') {a b : Event} (alike : a.Alike ρ b) : a.Alike ρ' b := by
  cases alike with
  | fired smaller heaps new old => exact .fired (Pairing.le_trans smaller larger) heaps new old
  | other plain => exact .other plain

/-- Two worlds that started as one and have come to alike worlds through alike milestones. -/
structure Coupled (s l r : World κ σ) (ρ : Pairing) : Prop where
  lockstep : Heap.Lockstep s.known ρ s.heap l.heap s.heap r.heap
  worlds : l.Alike ρ (Value.Alike ρ) r
  milestones : ∃ events events', l.milestones = events ++ s.milestones ∧
    r.milestones = events' ++ s.milestones ∧ List.Forall₂ (Event.Alike ρ) events events'

namespace Coupled

variable {s l l' r r' : World κ σ}

theorem refl (closed : s.Closed) : Coupled s s s s.known :=
  ⟨.refl closed.alike.heap, closed.alike, [], [], rfl, rfl, .nil⟩

theorem reads (coupled : Coupled s l r ρ) (left : l.Reads l') (right : r.Reads r') :
    Coupled s l' r' ρ where
  lockstep := coupled.lockstep.trans
    (coupled.worlds.heap.lockstep_of_grows left.heap right.heap)
  worlds := coupled.worlds.reads left right
  milestones := by
    rw [left.milestones, right.milestones]
    exact coupled.milestones

theorem mark (coupled : Coupled s l r ρ) (marker : Option Marker) :
    Coupled s (l.mark marker) r ρ :=
  ⟨coupled.lockstep, { coupled.worlds with }, coupled.milestones⟩

/-- A step that both worlds take together. -/
theorem step (coupled : Coupled s l r ρ)
    (lockstep : Heap.Lockstep ρ ρ' l.heap l'.heap r.heap r'.heap)
    (worlds : l'.Alike ρ' (Value.Alike ρ') r') (news news' : List Event)
    (left : l'.milestones = news ++ l.milestones) (right : r'.milestones = news' ++ r.milestones)
    (alike : List.Forall₂ (Event.Alike ρ') news news') : Coupled s l' r' ρ' where
  lockstep := coupled.lockstep.trans lockstep
  worlds := worlds
  milestones := by
    obtain ⟨events, events', before, before', same⟩ := coupled.milestones
    refine ⟨news ++ events, news' ++ events', by rw [left, before, List.append_assoc],
      by rw [right, before', List.append_assoc], List.rel_append alike ?_⟩
    exact same.imp fun _ _ => .mono lockstep.larger

theorem report (coupled : Coupled s l r ρ) (event : Event)
    (plain : ∀ watcher new old heap, event ≠ .fired watcher new old heap) :
    Coupled s (l.report event) (r.report event) ρ := by
  have added : ∀ w : World κ σ,
      (w.report event).milestones = [event].filter Event.isMilestone ++ w.milestones :=
    fun w => World.milestones_append rfl
  refine coupled.step (.refl coupled.worlds.heap) (coupled.worlds.report _ _) _ _ (added l)
    (added r) ?_
  exact List.forall₂_same.2 fun other mem => by
    rw [List.mem_singleton.1 (List.mem_filter.1 mem).1]
    exact .other plain

theorem absorb (coupled : Coupled s l r ρ) (watcher : Nat) (phase : Phase)
    (result : Except Fault Unit) :
    Coupled s (l.absorb watcher phase result) (r.absorb watcher phase result) ρ := by
  cases result with
  | ok => exact coupled
  | error fault => exact coupled.report (.faulted watcher phase fault) (by simp)

open World

/-- A change is recorded and told alike. -/
theorem tell {client : Client κ σ} (quiet : ∀ key new old, (client.listen key new old).StartsNoDigest)
    (coupled : Coupled s l r ρ) {a b : Watcher κ} (watchers : a.Alike (Value.Alike ρ) b) {v w : Value}
    (values : v.Alike ρ w) (nested nested' : Digest κ σ) :
    ∃ ρ' l' r', World.tell client nested a v l = some l' ∧
      World.tell client nested' b w r = some r' ∧ Coupled s l' r' ρ' ∧ l.Follows l' := by
  obtain ⟨ρ₁, step, worlds, last⟩ := coupled.worlds.record watchers values
  have recorded := coupled.step step worlds [] [] rfl rfl .nil
  have follows := l.record_follows a v
  unfold World.tell react
  rw [← watchers.id, ← watchers.listener]
  generalize l.record a v = left at *
  generalize r.record b w = right at *
  obtain ⟨old, l₁⟩ := left
  obtain ⟨old', r₁⟩ := right
  have new₁ := values.mono step.larger
  have old₁ := last.getD new₁
  cases a.listener with
  | none => exact ⟨ρ₁, l₁, r₁, rfl, rfl, recorded, follows⟩
  | some key =>
    let call : Event := .fired a.id v (old.getD v) l₁.heap
    let call' : Event := .fired a.id w (old'.getD w) r₁.heap
    have still : Heap.Lockstep ρ₁ ρ₁ l₁.heap (l₁.report call).heap r₁.heap (r₁.report call').heap :=
      .refl worlds.heap
    have fired := recorded.step still (worlds.report call call') [call] [call'] rfl rfl
      (.cons (.fired (Pairing.le_refl _) worlds.heap new₁ old₁) .nil)
    have both := (client.listen key ⟨0⟩ ⟨1⟩).run_alike fired.worlds (.cons new₁ (.cons old₁ .nil))
    obtain ⟨⟨exit, given, l₂⟩, ran⟩ :=
      (quiet key ⟨0⟩ ⟨1⟩).run [v, old.getD v] (l₁.report call)
    rw [ran] at both
    obtain ⟨⟨exit', given', r₂⟩, ran', together⟩ := both.some_of
    obtain ⟨rfl, ⟨ρ₂, step₂, worlds₂, _⟩, events, left, right, operations⟩ := together
    have after := fired.step step₂ (worlds₂.imp fun _ _ => .mono step₂.larger)
      (events.filter Event.isMilestone) (events.filter Event.isMilestone)
      (milestones_append left) (milestones_append right)
      (List.forall₂_same.2 fun event mem => .other fun watcher new old heap same => by
        have operation := operations event (List.mem_filter.1 mem).1
        rw [same] at operation
        cases operation)
    have follows' := (follows.trans (.report l₁ rfl)).trans (Script.follows ran)
    have listened : (client.listen key ⟨0⟩ ⟨1⟩).run nested [v, old.getD v]
        (l₁.report (.fired a.id v (old.getD v) l₁.heap)) = some (exit, given, l₂) :=
      Script.run_eq nested ran
    have listened' : (client.listen key ⟨0⟩ ⟨1⟩).run nested' [w, old'.getD w]
        (r₁.report (.fired a.id w (old'.getD w) r₁.heap)) = some (exit, given', r₂) :=
      Script.run_eq nested' ran'
    simp only [listened, listened']
    rcases exit with (message | ⟨⟩) | panic
    · exact ⟨ρ₂, _, _, rfl, rfl, after.absorb a.id .listener (.error (.failed message)),
        follows'.trans (absorb_follows _ _ _ _)⟩
    · exact ⟨ρ₂, _, _, rfl, rfl, after, follows'⟩
    · exact ⟨ρ₂, _, _, rfl, rfl, after.absorb a.id .listener (.error (.panicked panic)),
        follows'.trans (absorb_follows _ _ _ _)⟩

end Coupled
namespace World

variable {client : Client κ σ} {s l l' r w w' w₁ : World κ σ}

theorem Reads.changes_eq (reads : w.Reads w') : w'.changes = w.changes := by
  have counted : ∀ w : World κ σ, w.changes = w.milestones.countP Event.isStructural := by
    intro w
    rw [changes, World.milestones, List.countP_filter]
    apply List.countP_congr
    intro event _
    cases event <;> simp [Event.isStructural, Event.isMilestone]
  rw [counted, counted, reads.milestones]

theorem Reads.follows (reads : w.Reads w') : w.Follows w' :=
  .of_same (by rw [reads.scope]) (by rw [reads.scope]) (by rw [reads.scope]) reads.changes_eq

/-- A visit and a plain visit in alike worlds: neither finds a change, or both do. -/
theorem visit_coupled (reads : ∀ key, (client.watch key).OnlyReads)
    (quiet : ∀ key new old, (client.listen key new old).StartsNoDigest) (coupled : Coupled s l r ρ)
    (nested nested' : Digest κ σ) (generation : UInt64) (id : Nat) :
    (∃ turn l' r', visit client nested generation id l = some (turn, l') ∧ turn ≠ .dirty ∧
      plainVisit client nested' id r = some (false, r') ∧ l.Reads l' ∧ r.Reads r' ∧
      l.SettledAt client id ∧
      (turn = .settled → l.scope.marker = some ⟨id, l.scope.generation⟩)) ∨
    ∃ ρ' l₁ l' r', l.Reads l₁ ∧ visit client nested generation id l = some (.dirty, l') ∧
      plainVisit client nested' id r = some (true, r') ∧ Coupled s l' r' ρ' ∧
      (l₁.mark (some ⟨id, generation⟩)).Follows l' := by
  have closed := coupled.worlds.closed_left
  have closed' := coupled.worlds.closed_right
  rcases visit_cases reads closed nested generation id with
    ⟨turn, l', visited, clean, reading, settled, stops⟩ | ⟨a, v, l₁, same, changed, visited⟩
  · rcases plainVisit_cases reads closed' nested' id with
      ⟨r', visited', reading', settled'⟩ | ⟨b, w, r₁, same', changed', visited'⟩
    · exact .inl ⟨turn, l', r', visited, clean, visited', reading, reading', settled, stops⟩
    · exact absurd (same' ▸ settled.of_alike coupled.worlds) changed'.not_settled
  · obtain ⟨mem, evaluated, reading, differs⟩ := changed
    obtain ⟨b, mem', watchers⟩ := List.exists_of_mem_left coupled.worlds.watchers mem
    have both := evaluate_alike client coupled.worlds watchers.source
    rw [evaluated] at both
    obtain ⟨⟨answer, r₁⟩, evaluated', ρ', step, worlds, answers⟩ := both.some_of
    cases answers with
    | @ok _ w values =>
    have watchers' := watchers.imp fun _ _ => Value.Alike.mono step.larger
    have differs' : b.isSettled r₁.heap w = false := by
      rw [← watchers'.isSettled_eq worlds.heap values]
      exact differs
    rcases plainVisit_cases reads closed' nested' id with
      ⟨r', visited', reading', settled'⟩ | ⟨b', w', r₁', same', changed', visited'⟩
    · obtain ⟨answer, r₂, again, matched⟩ := settled' b mem' (watchers.id.symm.trans same)
      cases evaluated'.symm.trans again
      exact absurd (matched w rfl) (by simp [differs'])
    · obtain ⟨mem'', again, reading', _⟩ := changed'
      cases Scope.eq_of_id_eq mem' mem'' ((watchers.id.symm.trans same).trans same'.symm)
      cases evaluated'.symm.trans again
      have asked := coupled.step step (worlds.imp fun _ _ => .mono step.larger) [] []
        reading.milestones reading'.milestones .nil
      have answered := Reads.report l₁ (.answered id v l₁.heap) rfl
      have marked := (asked.reads answered
        (.report r₁ (.answered id w r₁.heap) rfl)).mark (some ⟨id, generation⟩)
      obtain ⟨ρ'', l', r', told, told', coupled', follows⟩ :=
        marked.tell quiet watchers' values nested nested'
      refine .inr ⟨ρ'', _, l', r', reading.trans answered, ?_, ?_, coupled', follows⟩
      · rw [visited, told]
        rfl
      · rw [visited', told']
        rfl

/-! What the marker stands for. -/

/-- A pass that visits the watchers of `snapshot`. It started after `count` changes to the set of
watchers, which is the snapshot while there are no more. -/
structure InPass (base count : Nat) (generation : UInt64) (snapshot : List Nat)
    (w : World κ σ) : Prop where
  early : base ≤ count
  counted : count ≤ w.changes
  generation_eq : generation = w.origin + UInt64.ofNat count
  unchanged : count = w.changes → w.scope.ids = snapshot

/-- The marker was set in a pass that started after some number of changes. If there were no more
changes since, it still stands for the watchers behind it. -/
def Marks (client : Client κ σ) (base : Nat) (rest : List Nat) (w : World κ σ) : Prop :=
  ∀ marker, w.scope.marker = some marker → ∃ count, base ≤ count ∧ count ≤ w.changes ∧
    marker.generation = w.origin + UInt64.ofNat count ∧
    (count = w.changes → w.Behind client rest marker.watcher)

theorem InPass.follows {base count : Nat} {generation : UInt64} {snapshot : List Nat}
    (inPass : w.InPass base count generation snapshot) (follows : w.Follows w') :
    w'.InPass base count generation snapshot where
  early := inPass.early
  counted := Nat.le_trans inPass.counted follows.changes_le
  generation_eq := by rw [follows.origin, inPass.generation_eq]
  unchanged := by
    intro same
    have enough := inPass.counted
    rcases follows.steps with ⟨count, _, ids⟩ | ⟨less, _⟩
    · rw [ids, inPass.unchanged (by omega)]
    · omega

theorem InPass.mark {base count : Nat} {generation : UInt64} {snapshot : List Nat}
    (inPass : w.InPass base count generation snapshot) (marker : Option Marker) :
    (w.mark marker).InPass base count generation snapshot :=
  ⟨inPass.early, inPass.counted, inPass.generation_eq, inPass.unchanged⟩

/-- Until the counts are 2^64 apart, equal generations mean that nothing changed between. -/
theorem Marks.behind {base : Nat} {rest : List Nat} {marker : Marker}
    (marks : w.Marks client base rest) (bound : w.changes < base + UInt64.size)
    (marked : w.scope.marker = some marker) (current : marker.generation = w.scope.generation) :
    w.Behind client rest marker.watcher := by
  obtain ⟨count, early, counted, generation, behind⟩ := marks _ marked
  have wrapped : UInt64.ofNat count = UInt64.ofNat w.changes := by
    rw [current, w.generation_eq] at generation
    exact ((UInt64.add_right_inj _).1 generation).symm
  have none : count = w.changes := by
    have size : UInt64.size = 18446744073709551616 := rfl
    have same := congrArg UInt64.toNat wrapped
    simp only [UInt64.toNat_ofNat'] at same
    omega
  exact behind none

/-- A pass starts. -/
theorem Marks.start {base : Nat} (marks : w.Marks client base []) (closed : w.Closed)
    (rest : List Nat) : (w.report .passStarted).Marks client base rest := by
  intro marker marked
  obtain ⟨count, early, counted, generation, behind⟩ := marks marker marked
  have same : (w.report .passStarted).changes = w.changes := w.changes_report rfl
  rw [same, (Follows.report w rfl).origin]
  exact ⟨count, early, counted, generation, fun none =>
    ((behind none).start rest).grown closed (.report w .passStarted)⟩

/-- A visit that finds no change. -/
theorem Marks.reads {base : Nat} {rest : List Nat} {id : Nat}
    (marks : w.Marks client base (id :: rest)) (closed : w.Closed) (reads : w.Reads w')
    (settled : w.SettledAt client id) : w'.Marks client base rest := by
  intro marker marked
  rw [reads.scope] at marked
  obtain ⟨count, early, counted, generation, behind⟩ := marks marker marked
  rw [reads.changes_eq, reads.follows.origin]
  exact ⟨count, early, counted, generation, fun none =>
    ((behind none).visited settled).grown closed reads.toGrown⟩

/-- Watchers that are still to come may be left out when they are settled. -/
theorem Marks.complete {base : Nat} {rest : List Nat} (marks : w.Marks client base rest)
    (settled : ∀ id ∈ rest, w.SettledAt client id) : w.Marks client base [] := by
  intro marker marked
  obtain ⟨count, early, counted, generation, behind⟩ := marks marker marked
  exact ⟨count, early, counted, generation, fun none => (behind none).complete settled⟩

/-- A visit that finds a change marks its watcher, and all those behind it are still to come. -/
theorem Marks.of_changed {base count : Nat} {generation : UInt64} {seen rest : List Nat} {id : Nat}
    (inPass : w.InPass base count generation (seen ++ id :: rest))
    (follows : (w.mark (some ⟨id, generation⟩)).Follows w') : w'.Marks client base rest := by
  have after := (inPass.mark (some ⟨id, generation⟩)).follows follows
  intro marker marked
  rcases follows.steps with ⟨_, kept, _⟩ | ⟨_, lost⟩
  · cases kept.symm.trans marked
    exact ⟨count, after.early, after.counted, after.generation_eq, fun none =>
      .of_ahead (Scope.ahead_of_visiting (after.unchanged none))⟩
  · rw [lost] at marked
    cases marked

/-! Passes and digests side by side. -/

section SideBySide

variable (reads : ∀ key, (client.watch key).OnlyReads)
  (quiet : ∀ key new old, (client.listen key new old).StartsNoDigest) (nested nested' : Digest κ σ)

include reads quiet

theorem visitAll_coupled {base count : Nat} {generation : UInt64} {seen rest : List Nat}
    {dirty changed : Bool} (coupled : Coupled s l r ρ)
    (ascending : (seen ++ rest).Pairwise (· < ·))
    (inPass : l.InPass base count generation (seen ++ rest)) (marks : l.Marks client base rest)
    (run : visitAll client nested generation rest dirty l = some (changed, l'))
    (bound : l'.changes < base + UInt64.size) :
    ∃ ρ' r', plainVisitAll client nested' rest dirty r = some (changed, r') ∧
      Coupled s l' r' ρ' ∧ l'.Marks client base [] ∧ base ≤ l'.changes := by
  induction rest generalizing seen dirty l r ρ with
  | nil =>
    cases run
    exact ⟨ρ, r, rfl, coupled, marks, Nat.le_trans inPass.early inPass.counted⟩
  | cons id rest ih =>
    have shifted : seen ++ id :: rest = (seen ++ [id]) ++ rest := by simp
    simp only [visitAll] at run
    rcases visit_coupled reads quiet coupled nested nested' generation id with
      ⟨turn, l₁, r₁, visited, clean, visited', reading, reading', settled, stops⟩ |
      ⟨ρ', l₁, l₂, r₂, reading, visited, visited', coupled', follows⟩
    · have coupled' := coupled.reads reading reading'
      have closed := coupled.worlds.closed_left
      have after := marks.reads closed reading settled
      rw [visited] at run
      cases turn with
      | dirty => exact absurd rfl clean
      | clean =>
        obtain ⟨ρ', r', others, rest⟩ := ih coupled' (shifted ▸ ascending)
          (shifted ▸ inPass.follows reading.follows) after run
        exact ⟨ρ', r', by simp only [plainVisitAll, visited', Bool.or_false, others], rest⟩
      | settled =>
        cases run
        rw [reading.changes_eq] at bound
        have behind := marks.behind bound (stops rfl) rfl
        have passed : ∀ other ∈ rest, l'.SettledAt client other := fun other mem =>
          (behind.of_marked (List.pairwise_append.1 ascending).2.1 other mem).reads closed reading
        obtain ⟨r', others, reading''⟩ := plainVisitAll_settled reads nested'
          coupled'.worlds.closed_right (fun other mem => (passed other mem).of_alike coupled'.worlds)
          changed
        refine ⟨ρ, r', by simp only [plainVisitAll, visited', Bool.or_false, others],
          coupled'.reads (.refl _) reading'', after.complete passed, ?_⟩
        rw [reading.changes_eq]
        exact Nat.le_trans inPass.early inPass.counted
    · rw [visited] at run
      have inPass' := inPass.follows reading.follows
      obtain ⟨ρ', r', others, rest⟩ := ih coupled' (shifted ▸ ascending)
        (shifted ▸ (inPass'.mark _).follows follows) (.of_changed inPass' follows) run
      exact ⟨ρ', r', by simp only [plainVisitAll, visited', Bool.or_true, others], rest⟩

theorem pass_coupled {base : Nat} {changed : Bool} (coupled : Coupled s l r ρ)
    (marks : l.Marks client base []) (early : base ≤ l.changes)
    (run : pass client nested l = some (changed, l')) (bound : l'.changes < base + UInt64.size) :
    ∃ ρ' r', plainPass client nested' r = some (changed, r') ∧ Coupled s l' r' ρ' ∧
      l'.Marks client base [] ∧ base ≤ l'.changes := by
  have same : (l.report .passStarted).changes = l.changes := l.changes_report rfl
  have inPass : (l.report .passStarted).InPass base l.changes l.scope.generation ([] ++ l.scope.ids) :=
    ⟨early, Nat.le_of_eq same.symm, by rw [(Follows.report l rfl).origin, ← generation_eq],
      fun _ => rfl⟩
  unfold plainPass
  rw [← Scope.ids_eq coupled.worlds.watchers]
  exact visitAll_coupled reads quiet nested nested' (coupled.report .passStarted (by simp))
    l.scope.ascending inPass (marks.start coupled.worlds.closed_left _) run bound

omit quiet in
/-- After a pass that found no change, every watcher is settled. -/
theorem settled_of_pass {base : Nat} (closed : w.Closed)
    (run : pass client nested w = some (false, w')) (marks : w'.Marks client base [])
    (bound : w'.changes < base + UInt64.size) : ∀ id ∈ w'.scope.ids, w'.SettledAt client id := by
  have started : (w.report .passStarted).Closed :=
    World.Alike.closed_left (closed.alike.report .passStarted .passStarted)
  obtain ⟨reading, passed⟩ := quiet_visitAll reads started w.scope.ascending run
  intro id mem
  rw [reading.scope] at mem
  rcases passed id mem with settled | ⟨marker, marked, current, less⟩
  · exact settled
  · exact (marks.behind bound marked current).settled (reading.scope ▸ mem) less

theorem passes_coupled (keeps : ∀ n, nested.Keeps fun _ w => n ≤ w.changes) {base left done : Nat}
    {outcome : Except Divergence Unit} (coupled : Coupled s l r ρ) (marks : l.Marks client base [])
    (early : base ≤ l.changes) (run : passes client nested left done l = some (outcome, l'))
    (bound : l'.changes < base + UInt64.size) :
    ∃ ρ' r', plainPasses client nested' left done r = some (outcome, r') ∧ Coupled s l' r' ρ' ∧
      (outcome = .ok () → ∀ id ∈ l'.scope.ids, l'.SettledAt client id) := by
  induction left generalizing l r ρ done with
  | zero =>
    cases run
    simp only [plainPasses, ← coupled.worlds.config]
    exact ⟨ρ, _, rfl, coupled.report _ (by simp), by simp⟩
  | succ left ih =>
    simp only [passes] at run
    cases passed : pass client nested l with
    | none =>
      rw [passed] at run
      cases run
    | some result =>
      obtain ⟨changed, l₁⟩ := result
      rw [passed] at run
      have later : l₁.changes ≤ l'.changes := by
        cases changed with
        | false =>
          cases run
          exact changes_le_report _ _
        | true => exact (stable_changes l₁.changes).passes (keeps _) [] run (Nat.le_refl _)
      obtain ⟨ρ₁, r₁, passed', coupled₁, marks₁, early₁⟩ := pass_coupled reads quiet nested nested'
        coupled marks early passed (Nat.lt_of_le_of_lt later bound)
      simp only [plainPasses, passed']
      cases changed with
      | true => exact ih coupled₁ marks₁ early₁ run
      | false =>
        cases run
        have settled := settled_of_pass reads nested coupled.worlds.closed_left passed marks₁
          (Nat.lt_of_le_of_lt later bound)
        refine ⟨ρ₁, _, rfl, coupled₁.report _ (by simp), fun _ id mem => ?_⟩
        exact (settled id mem).report coupled₁.worlds.closed_left _

/-! A digest comes to an end. -/

theorem visit_ends (closed : w.Closed) (generation : UInt64) (id : Nat) :
    ∃ turn w', visit client nested generation id w = some (turn, w') ∧ w'.Closed := by
  rcases visit_coupled reads quiet (.refl closed) nested nested generation id with
    ⟨turn, w', _, visited, _, _, reading, _⟩ | ⟨ρ, _, w', _, _, visited, _, coupled, _⟩
  · exact ⟨turn, w', visited, reading.closed closed⟩
  · exact ⟨.dirty, w', visited, coupled.worlds.closed_left⟩

theorem visitAll_ends (closed : w.Closed) (generation : UInt64) (ids : List Nat) (dirty : Bool) :
    ∃ changed w', visitAll client nested generation ids dirty w = some (changed, w') ∧
      w'.Closed := by
  induction ids generalizing w dirty with
  | nil => exact ⟨dirty, w, rfl, closed⟩
  | cons id rest ih =>
    obtain ⟨turn, w₁, visited, closed₁⟩ := visit_ends reads quiet nested closed generation id
    simp only [visitAll, visited]
    cases turn with
    | clean => exact ih closed₁ dirty
    | dirty => exact ih closed₁ true
    | settled => exact ⟨dirty, w₁, rfl, closed₁⟩

theorem passes_end (closed : w.Closed) (left done : Nat) :
    ∃ outcome w', passes client nested left done w = some (outcome, w') := by
  induction left generalizing w done with
  | zero => exact ⟨_, _, rfl⟩
  | succ left ih =>
    have started : (w.report .passStarted).Closed :=
      World.Alike.closed_left (closed.alike.report .passStarted .passStarted)
    obtain ⟨changed, w₁, passed, closed₁⟩ :=
      visitAll_ends reads quiet nested started w.scope.generation w.scope.ids false
    simp only [passes, pass, passed]
    cases changed with
    | false => exact ⟨_, _, rfl⟩
    | true => exact ih closed₁ (done + 1)

end SideBySide

/-- A digest does what the plain digest does: it ends with the same outcome after the same passes,
calls the same listeners with the same values in the same order, and leaves the same data, watchers
and last values, all up to the identity of containers that were built meanwhile. When it converges,
every watcher is settled. Watchers only read and listeners do anything but digest; the generation
must not wrap around within the digest. -/
theorem digest_as_plainDigest (client : Client κ σ)
    (reads : ∀ key, (client.watch key).OnlyReads)
    (quiet : ∀ key new old, (client.listen key new old).StartsNoDigest) (w : World κ σ)
    (closed : w.Closed) (depth : Nat) :
    ∃ outcome w₁, digest client (depth + 1) w = some (outcome, w₁) ∧
      (w₁.changes < w.changes + UInt64.size →
        ∃ ρ w₂, plainDigest client (digest client depth) w = some (outcome, w₂) ∧
          w₁.Alike ρ (Value.Alike ρ) w₂ ∧
          (∃ events₁ events₂, w₁.milestones = events₁ ++ w.milestones ∧
            w₂.milestones = events₂ ++ w.milestones ∧
            List.Forall₂ (Event.Alike ρ) events₁ events₂) ∧
          (∀ h ∈ w.heap.reached w.roots, ρ.pairs h h) ∧
          (∀ a b, ρ.pairs a b → a = b ∧ a ∈ w.heap.reached w.roots ∨
            w.heap.size ≤ a.index ∧ w.heap.size ≤ b.index) ∧
          (outcome = .ok () → ∀ watcher ∈ w₁.scope.watchers, w₁.Settled client watcher)) := by
  have coupled := (Coupled.refl closed).mark none
  obtain ⟨outcome, w₁, run⟩ := passes_end reads quiet (digest client depth)
    coupled.worlds.closed_left (max w.scope.config.ttl 1) 0
  refine ⟨outcome, w₁, run, fun bound => ?_⟩
  have marks : (w.mark none).Marks client w.changes [] := by
    rintro marker ⟨⟩
  obtain ⟨ρ, w₂, plain, coupled₁, settled⟩ := passes_coupled reads quiet (digest client depth)
    (digest client depth) (fun n => (stable_changes n).digest client depth) coupled marks
    (Nat.le_refl _) run bound
  refine ⟨ρ, w₂, plain, coupled₁.worlds, coupled₁.milestones,
    fun h mem => coupled₁.lockstep.larger h h ⟨rfl, mem⟩, fun a b pair => ?_,
    fun ok watcher mem => settled ok watcher.id (List.mem_map_of_mem mem) watcher mem rfl⟩
  exact (coupled₁.lockstep.fresh pair).imp_left fun known => known

/-- Watchers look at fields of the data. The listener of `c` sets `a`. -/
def feedback : Client String Unit where
  watch field := do
    let v ← Script.obtain (.get field)
    return .ok v
  listen field _ _ :=
    if field = "c" then do
      let v ← Script.obtain (.literal (.bool true))
      Script.change (.set "a" v)
      return .ok ()
    else return .ok ()

theorem feedback_startsNoDigest (field : String) (new old : Ref) :
    (feedback.listen field new old).StartsNoDigest := by
  simp only [feedback]
  split
  · exact ⟨rfl, fun _ => ⟨rfl, fun _ => trivial⟩⟩
  · trivial

/-- The last listener changes what the first watcher sees, so the second pass leaves the marker at
the first watcher. The third pass stops there, and two settled watchers are not asked again. -/
theorem digest_as_plainDigest_feedback :
    let watch (w : World String Unit) (field : String) : World String Unit :=
      (w.register (.callable field) (some field) .reference).2
    let w : World String Unit := ["a", "b", "c"].foldl watch (World.initial .default ())
    w.Closed ∧ ∃ ρ w₁ w₂, digest feedback 1 w = some (.ok (), w₁) ∧
      plainDigest feedback (digest feedback 0) w = some (.ok (), w₂) ∧
      w₁.askings = [0, 1, 2, 0, 1, 2, 0] ∧ w₂.askings = [0, 1, 2, 0, 1, 2, 0, 1, 2] ∧
      w₁.Alike ρ (Value.Alike ρ) w₂ ∧
      ∀ watcher ∈ w₁.scope.watchers, w₁.Settled feedback watcher := by
  intro watch w
  have closed : w.Closed :=
    (((closed_initial .default ()).register _ _ _).register _ _ _).register _ _ _
  have reads : ∀ key, (feedback.watch key).OnlyReads :=
    fun key w _ => ⟨.returned (.ok ⟨0⟩), [w.get key], w, rfl, .refl w⟩
  obtain ⟨w₁, run, asked, bound⟩ : ∃ w₁, digest feedback 1 w = some (.ok (), w₁) ∧
      w₁.askings = [0, 1, 2, 0, 1, 2, 0] ∧ w₁.changes < w.changes + UInt64.size :=
    ⟨_, rfl, rfl, by decide⟩
  obtain ⟨w₂, plain, asked'⟩ : ∃ w₂,
      plainDigest feedback (digest feedback 0) w = some (.ok (), w₂) ∧
      w₂.askings = [0, 1, 2, 0, 1, 2, 0, 1, 2] := ⟨_, rfl, rfl⟩
  obtain ⟨outcome, v₁, ran, same⟩ :=
    digest_as_plainDigest feedback reads feedback_startsNoDigest w closed 0
  cases run.symm.trans ran
  obtain ⟨ρ, v₂, ran', worlds, _, _, _, settled⟩ := same bound
  cases plain.symm.trans ran'
  exact ⟨closed, ρ, w₁, w₂, run, plain, asked, asked', worlds, settled rfl⟩

end World
end DataBinding
