import DataBinding.Proofs.Pairing
import DataBinding.Proofs.Steps
import DataBinding.Scope.Digest

/-! Invariants of runs. A property of a world, together with the values that running scripts hold,
is kept by whole digests, nested to any depth, if it is kept by every single thing that happens:
an operation, a report, an answer that changes nothing and an answer that is recorded and told to
the listener. -/
namespace DataBinding

variable {κ σ α : Type}

/-- Events that tell how a digest gets on. They carry no values. -/
def Event.isProgress : Event → Bool
  | .passStarted => true
  | .faulted .. => true
  | .converged _ => true
  | .diverged _ => true
  | _ => false

namespace World

/-- The value that a listener is given as the old one, and the world in which it is called. -/
def announce (watcher : Watcher κ) (new : Value) (w : World κ σ) : Value × World κ σ :=
  let (last, w) := w.record watcher new
  let old := last.getD new
  (old, match watcher.listener with
    | none => w
    | some _ => w.report (.fired watcher.id new old w.heap))

theorem announce_scope (w : World κ σ) (watcher : Watcher κ) (new : Value) :
    (w.announce watcher new).2.scope.ids = w.scope.ids ∧
      (w.announce watcher new).2.scope.marker = w.scope.marker := by
  have ids : (w.record watcher new).2.scope.ids = w.scope.ids :=
    Scope.map_keeps_ids _ _ fun other => by split <;> rfl
  unfold announce
  cases watcher.listener with
  | none => exact ⟨ids, rfl⟩
  | some key => exact ⟨ids, rfl⟩

variable {client : Client κ σ} {nested : Digest κ σ} {w w' : World κ σ} {watcher : Watcher κ}
  {new : Value}

/-- Keeps a changed value as the last one seen and tells the listener. -/
def tell (client : Client κ σ) (nested : Digest κ σ) (watcher : Watcher κ) (new : Value)
    (w : World κ σ) : Option (World κ σ) :=
  let (old, w) := w.record watcher new
  (react client nested watcher new (old.getD new) w).map fun (result, w) =>
    w.absorb watcher.id .listener result

theorem settle_changed (nested : Digest κ σ) (generation : UInt64)
    (changed : watcher.isSettled w.heap new = false) :
    settle client nested generation watcher new w =
      (tell client nested watcher new (w.mark (some ⟨watcher.id, generation⟩))).map
        fun w => (.dirty, w) := by
  unfold settle tell
  rw [changed, if_neg Bool.false_ne_true]
  simp only
  cases react client nested watcher new _ _ <;> rfl

/-- A change is announced, and then the listener runs, if there is one. -/
theorem tell_cases (run : tell client nested watcher new w = some w') :
    w' = (w.announce watcher new).2 ∨
    ∃ key exit values w₁ result, w' = World.absorb watcher.id .listener result w₁ ∧
      (client.listen key ⟨0⟩ ⟨1⟩).run nested [new, (w.announce watcher new).1]
        (w.announce watcher new).2 = some (exit, values, w₁) := by
  unfold tell react at run
  unfold announce
  generalize w.record watcher new = recorded at run ⊢
  obtain ⟨last, w₁⟩ := recorded
  simp only at run ⊢
  cases listens : watcher.listener with
  | none =>
    simp only [listens] at run
    cases run
    exact .inl rfl
  | some key =>
    simp only [listens] at run
    cases ran : (client.listen key ⟨0⟩ ⟨1⟩).run nested [new, last.getD new]
        (w₁.report (.fired watcher.id new (last.getD new) w₁.heap)) with
    | none =>
      rw [ran] at run
      cases run
    | some result =>
      obtain ⟨exit, values, w₂⟩ := result
      rw [ran] at run
      refine .inr ⟨key, exit, values, w₂, ?_⟩
      rcases exit with (message | ⟨⟩) | panic <;> cases run
      · exact ⟨.error (.failed message), rfl, ran⟩
      · exact ⟨.ok (), rfl, ran⟩
      · exact ⟨.error (.panicked panic), rfl, ran⟩

/-- When the listener comes to an end, so does telling the watcher. -/
theorem tell_of_run {key : κ} (listens : watcher.listener = some key) {exit : Exit (Except String Unit)}
    {values : List Value} (ran : (client.listen key ⟨0⟩ ⟨1⟩).run nested
      [new, (w.announce watcher new).1] (w.announce watcher new).2 = some (exit, values, w')) :
    ∃ result, tell client nested watcher new w = some (World.absorb watcher.id .listener result w') := by
  unfold tell react
  unfold announce at ran
  generalize w.record watcher new = recorded at ran ⊢
  obtain ⟨last, w₁⟩ := recorded
  simp only [listens] at ran ⊢
  rw [ran]
  rcases exit with (message | ⟨⟩) | panic
  · exact ⟨.error (.failed message), rfl⟩
  · exact ⟨.ok (), rfl⟩
  · exact ⟨.error (.panicked panic), rfl⟩

end World

/-- A property of the values held by the scripts that run and of the world that they run in, kept by
everything that happens. -/
structure Stable (I : List Value → World κ σ → Prop) : Prop where
  fewer : ∀ {more fewer : List Value} {w : World κ σ},
    (∀ v ∈ fewer, v ∈ more ∨ v.isContainer = false) → I more w → I fewer w
  step : ∀ {held values values' : List Value} {w w' : World κ σ} {op : Op κ σ} {answer : op.Answer},
    op.run noDigest values w = some (answer, values', w') → I (held ++ values) w →
      I (held ++ values') w'
  report : ∀ {held : List Value} {w : World κ σ} (event : Event),
    event.isProgress = true → I held w → I held (w.report event)
  asked : ∀ {held : List Value} {w : World κ σ} {watcher : Watcher κ},
    w.scope.find? watcher.id = some watcher → I held w → I held (w.report (.asked watcher.id))
  call : ∀ {held : List Value} {w : World κ σ} (accessor : Accessor), I held w →
    I (held ++ [(w.call accessor ⟨some w.data, none⟩).1]) (w.call accessor ⟨some w.data, none⟩).2
  mark : ∀ {held : List Value} {w : World κ σ} (marker : Option Marker), I held w →
    I held (w.mark marker)
  matched : ∀ {held : List Value} {w : World κ σ} {watcher : Watcher κ} {new : Value},
    w.scope.find? watcher.id = some watcher → watcher.isSettled w.heap new = true →
      I (held ++ [new]) w → I held (w.report (.answered watcher.id new w.heap))
  changed : ∀ {held : List Value} {w : World κ σ} {watcher : Watcher κ} {new : Value}
    (marker : Option Marker), w.scope.find? watcher.id = some watcher →
      watcher.isSettled w.heap new = false → I (held ++ [new]) w →
      let announced := ((w.report (.answered watcher.id new w.heap)).mark marker).announce watcher new
      I (held ++ [new, announced.1]) announced.2

/-- Digests keep a property, whatever the scripts that wait for them hold. -/
def Digest.Keeps (digest : Digest κ σ) (I : List Value → World κ σ → Prop) : Prop :=
  ∀ (held : List Value) {w w' : World κ σ} {outcome : Except Divergence Unit},
    digest w = some (outcome, w') → I held w → I held w'

namespace Stable

open World

variable {I : List Value → World κ σ → Prop} {client : Client κ σ} {nested : Digest κ σ}
  {held values values' : List Value} {w w' : World κ σ}

theorem dropLast (stable : Stable I) {more : List Value} (inv : I (held ++ more) w) : I held w :=
  stable.fewer (fun _ mem => .inl (List.mem_append_left _ mem)) inv

theorem script (stable : Stable I) (keeps : nested.Keeps I) (held : List Value)
    {script : Script κ σ α} {exit : Exit α}
    (run : script.run nested values w = some (exit, values', w')) (inv : I (held ++ values) w) :
    I (held ++ values') w' :=
  Script.run_induction (I := fun values w => I (held ++ values) w) stable.step (keeps _) run inv

theorem absorb (stable : Stable I) (watcher : Nat) (phase : Phase) (result : Except Fault Unit)
    (inv : I held w) : I held (w.absorb watcher phase result) := by
  cases result with
  | ok => exact inv
  | error fault => exact stable.report _ rfl inv

theorem evaluate (stable : Stable I) (keeps : nested.Keeps I) {watcher : Watcher κ}
    {answer : Except Fault Value} (found : w.scope.find? watcher.id = some watcher)
    (run : evaluate client nested watcher w = some (answer, w'))
    (inv : I held w) : I held w' ∧ ∀ new, answer = .ok new → I (held ++ [new]) w' := by
  have asked := stable.asked found inv
  unfold World.evaluate at run
  cases source : watcher.source with
  | expression accessor =>
    simp only [source] at run
    have called := stable.call accessor asked
    cases run
    refine ⟨stable.dropLast called, ?_⟩
    rintro _ ⟨rfl⟩
    exact called
  | callable key =>
    simp only [source] at run
    cases ran : (client.watch key).run nested [] (w.report (.asked watcher.id)) with
    | none =>
      rw [ran] at run
      cases run
    | some result =>
      obtain ⟨exit, values, w₁⟩ := result
      have after := stable.script keeps held ran (by rwa [List.append_nil])
      rw [ran] at run
      rcases exit with (message | ref) | panic <;> cases run
      · exact ⟨stable.dropLast after, by simp⟩
      · refine ⟨stable.dropLast after, ?_⟩
        rintro _ ⟨rfl⟩
        -- a reference that stands for nothing reads as undefined
        apply stable.fewer _ after
        intro v mem
        rcases List.mem_append.1 mem with old | given
        · exact .inl (List.mem_append_left _ old)
        · rw [List.mem_singleton.1 given, Ref.value]
          cases found : values[ref.index]? with
          | none => exact .inr rfl
          | some v => exact .inl (List.mem_append_right _ (List.mem_of_getElem? found))
      · exact ⟨stable.dropLast after, by simp⟩

theorem settle (stable : Stable I) (keeps : nested.Keeps I) {generation : UInt64}
    {watcher : Watcher κ} {new : Value} {turn : Turn}
    (found : w.scope.find? watcher.id = some watcher)
    (run : World.settle client nested generation watcher new
      (w.report (.answered watcher.id new w.heap)) = some (turn, w'))
    (inv : I (held ++ [new]) w) : I held w' := by
  let answered := w.report (.answered watcher.id new w.heap)
  cases matched : watcher.isSettled answered.heap new with
  | true =>
    unfold World.settle at run
    rw [if_pos matched] at run
    cases run
    exact stable.matched found matched inv
  | false =>
    have announced := stable.changed (some ⟨watcher.id, generation⟩) found matched inv
    rw [settle_changed nested generation matched] at run
    cases told : tell client nested watcher new
        (answered.mark (some ⟨watcher.id, generation⟩)) with
    | none =>
      rw [told] at run
      cases run
    | some w₁ =>
      rw [told] at run
      cases run
      rcases tell_cases told with rfl | ⟨key, exit, values, w₂, result, rfl, ran⟩
      · exact stable.dropLast announced
      · exact stable.absorb _ _ _ (stable.dropLast (stable.script keeps held ran announced))

theorem visit (stable : Stable I) (keeps : nested.Keeps I) (held : List Value) {generation : UInt64}
    {id : Nat} {turn : Turn} (run : World.visit client nested generation id w = some (turn, w'))
    (inv : I held w) : I held w' := by
  unfold World.visit at run
  cases found : w.scope.find? id with
  | none =>
    simp only [found] at run
    cases run
    exact inv
  | some watcher =>
    simp only [found] at run
    cases evaluated : World.evaluate client nested watcher w with
    | none =>
      rw [evaluated] at run
      cases run
    | some result =>
      obtain ⟨answer, w₁⟩ := result
      have named : watcher.id = id := by simpa using List.find?_some found
      obtain ⟨after, answered⟩ := stable.evaluate keeps (named ▸ found) evaluated inv
      rw [evaluated] at run
      cases answer with
      | error fault =>
        cases run
        exact stable.absorb _ _ _ after
      | ok new =>
        simp only at run
        cases still : w₁.scope.find? id with
        | none =>
          simp only [still] at run
          cases run
          exact after
        | some watcher' =>
          simp only [still] at run
          have same : watcher'.id = id := by simpa using List.find?_some still
          subst same
          exact stable.settle keeps still run (answered new rfl)

theorem visitAll (stable : Stable I) (keeps : nested.Keeps I) (held : List Value) {generation : UInt64}
    {ids : List Nat} {dirty dirty' : Bool}
    (run : World.visitAll client nested generation ids dirty w = some (dirty', w'))
    (inv : I held w) : I held w' := by
  induction ids generalizing w dirty with
  | nil =>
    cases run
    exact inv
  | cons id rest ih =>
    simp only [World.visitAll] at run
    cases visited : World.visit client nested generation id w with
    | none =>
      rw [visited] at run
      cases run
    | some result =>
      obtain ⟨turn, w₁⟩ := result
      have after := stable.visit keeps held visited inv
      rw [visited] at run
      cases turn with
      | clean => exact ih run after
      | dirty => exact ih run after
      | settled =>
        cases run
        exact after

theorem passes (stable : Stable I) (keeps : nested.Keeps I) (held : List Value) {left done : Nat}
    {outcome : Except Divergence Unit}
    (run : World.passes client nested left done w = some (outcome, w')) (inv : I held w) :
    I held w' := by
  induction left generalizing w done with
  | zero =>
    cases run
    exact stable.report _ rfl inv
  | succ left ih =>
    simp only [World.passes] at run
    cases passed : World.pass client nested w with
    | none =>
      rw [passed] at run
      cases run
    | some result =>
      obtain ⟨dirty, w₁⟩ := result
      have after := stable.visitAll keeps held passed (stable.report .passStarted rfl inv)
      rw [passed] at run
      cases dirty with
      | false =>
        cases run
        exact stable.report _ rfl after
      | true => exact ih run after

/-- Digests, nested to any depth, keep a stable property. -/
theorem digest (stable : Stable I) (client : Client κ σ) (depth : Nat) :
    (World.digest client depth).Keeps I := by
  induction depth with
  | zero =>
    intro held w w' outcome run
    cases run
  | succ depth ih =>
    intro held w w' outcome run inv
    exact stable.passes ih held run (stable.mark none inv)

/-- So do scripts that run from outside, and what holds of the values they obtained is dropped. -/
theorem runScript (stable : Stable I) {client : Client κ σ} {depth : Nat} {script : Script κ σ α}
    {exit : Exit α} (run : w.runScript client depth script = some (exit, w')) (inv : I [] w) :
    I [] w' := by
  unfold World.runScript at run
  cases ran : script.run (World.digest client depth) [] w with
  | none =>
    rw [ran] at run
    cases run
  | some result =>
    obtain ⟨exit, values, w₁⟩ := result
    have after := stable.script (stable.digest client depth) [] ran (by simpa using inv)
    rw [ran] at run
    cases run
    exact stable.dropLast after

end Stable

/-! The journal only grows. -/

/-- What every report keeps of the journal is kept by everything that happens. -/
theorem World.stable_of_cons {P : List Event → Prop}
    (cons : ∀ event events, P events → P (event :: events)) :
    Stable (κ := κ) (σ := σ) fun _ w => P w.journal where
  fewer := fun _ holds => holds
  step := by
    intro held values values' w w' op answer run holds
    cases Op.run_stepped run with
    | changed => exact holds
    | remarked | registered => exact cons _ _ holds
    | deregistered id =>
      unfold World.deregister
      split
      · exact cons _ _ holds
      · exact holds
  report := fun _ _ holds => cons _ _ holds
  asked := fun _ holds => cons _ _ holds
  call := fun _ holds => holds
  mark := fun _ holds => holds
  matched := fun _ _ holds => cons _ _ holds
  changed := by
    intro held w watcher new marker _ _ holds
    have answered := cons (.answered watcher.id new w.heap) _ holds
    simp only [World.announce]
    split
    · exact answered
    · exact cons _ _ answered

/-- What has been reported stays in the journal. -/
theorem World.stable_journal (event : Event) :
    Stable (κ := κ) (σ := σ) fun _ w => event ∈ w.journal :=
  stable_of_cons fun _ _ mem => List.mem_cons_of_mem _ mem

theorem World.stable_suffix (events : List Event) :
    Stable (κ := κ) (σ := σ) fun _ w => events <:+ w.journal :=
  stable_of_cons fun event _ suffix => suffix.trans (List.suffix_cons event _)

theorem World.countP_le_report (p : Event → Bool) (w : World κ σ) (event : Event) :
    w.journal.countP p ≤ (w.report event).journal.countP p := by
  show w.journal.countP p ≤ (event :: w.journal).countP p
  rw [List.countP_cons]
  exact Nat.le_add_right _ _

/-- The events of a kind never get fewer. -/
theorem World.stable_countP (p : Event → Bool) (n : Nat) :
    Stable (κ := κ) (σ := σ) fun _ w => n ≤ w.journal.countP p := by
  refine stable_of_cons fun event events enough => Nat.le_trans enough ?_
  rw [List.countP_cons]
  exact Nat.le_add_right _ _

end DataBinding
