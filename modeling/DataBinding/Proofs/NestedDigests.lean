import DataBinding.Proofs.Settling

/-! Digests that listeners start. A nested digest leaves its marker to the pass that waits for
the listener. As long as nothing changes after it, that marker is as good as one that the pass has
set itself. A listener that changes something after its last digest can leave a marker that
hides the change: then the digest converges although a watcher is not settled. -/
namespace DataBinding

variable {κ σ α : Type}

/-! What a listener may do. -/

/-- How far a listener has come, as to the digests that it starts. -/
inductive Stage where
  /-- It has started none. -/
  | unbroken
  /-- It has changed nothing since the last one. -/
  | even
  /-- It has changed something since the last one. -/
  | ahead
  deriving DecidableEq

def Stage.after : Stage → Op κ σ → Stage
  | _, .digest => .even
  | .unbroken, _ => .unbroken
  | stage, op => if op.isReading then stage else .ahead

theorem Stage.after_cases (stage : Stage) {op : Op κ σ} (plain : op ≠ .digest) :
    stage.after op = .ahead ∨
      stage.after op = stage ∧ (op.isReading = true ∨ stage = .unbroken) := by
  unfold after
  split
  · exact absurd rfl plain
  · exact .inr ⟨rfl, .inr rfl⟩
  · split
    · rename_i reading
      exact .inr ⟨rfl, .inl reading⟩
    · exact .inl rfl

namespace Script

/-- A script that has come to a stage keeps the set of watchers and, if it digests, changes nothing
after its last digest. -/
def DigestsLast : Script κ σ α → Stage → Prop
  | .pure _, stage => stage ≠ .ahead
  | .panic _, stage => stage ≠ .ahead
  | .perform op next, stage =>
    op.keepsWatchers = true ∧ ∀ answer, (next answer).DigestsLast (stage.after op)

end Script

/-! What markers are worth. -/

section

variable {client : Client κ σ} {nested : Digest κ σ} {w w' : World κ σ} {rest seen : List Nat}

/-- The marker, wherever it was set, stands for the watchers behind it. -/
def World.Guarded (client : Client κ σ) (rest : List Nat) (w : World κ σ) : Prop :=
  ∀ marker, w.scope.marker = some marker → w.Behind client rest marker.watcher

/-- What a listener finds at a stage, in a pass that has `rest` still to visit. -/
def Stage.Holds (client : Client κ σ) (rest : List Nat) (w : World κ σ) : Stage → Prop
  | .unbroken => ∀ marker, w.scope.marker = some marker → w.scope.Ahead rest marker.watcher
  | .even => w.Guarded client rest
  | .ahead => True

/-- Every digest leaves a marker that stands for the watchers behind it. -/
def Digest.Guards (digest : Digest κ σ) (client : Client κ σ) : Prop :=
  ∀ {w w' : World κ σ} {outcome : Except Divergence Unit}, digest w = some (outcome, w') →
    w.Closed → w'.scope.ids = w.scope.ids ∧ w'.Guarded client []

theorem World.Guarded.grown (closed : w.Closed) (grown : w.Grown w')
    (guarded : w.Guarded client rest) : w'.Guarded client rest := by
  intro marker marked
  rw [grown.scope] at marked
  exact (guarded marker marked).grown closed grown

theorem World.Guarded.start (guarded : w.Guarded client []) (rest : List Nat) :
    w.Guarded client rest :=
  fun marker marked => (guarded marker marked).start rest

theorem Stage.Holds.guarded {stage : Stage} (holds : stage.Holds client rest w)
    (level : stage ≠ .ahead) : w.Guarded client rest := by
  cases stage with
  | unbroken =>
    intro marker marked
    exact .of_ahead (holds marker marked)
  | even => exact holds
  | ahead => exact absurd rfl level

theorem Stage.Holds.step {stage : Stage} {op : Op κ σ} {values values' : List Value}
    {answer : op.Answer} (holds : stage.Holds client rest w) (closed : w.Closed)
    (keeps : op.keepsWatchers = true)
    (run : op.run noDigest values w = some (answer, values', w')) :
    (stage.after op).Holds client rest w' := by
  have plain : op ≠ .digest := by
    rintro rfl
    cases run
  rcases stage.after_cases plain with changed | ⟨same, reading⟩
  · rw [changed]
    trivial
  · rw [same]
    cases stage with
    | unbroken =>
      intro marker marked
      rw [Op.run_scope keeps run] at marked ⊢
      exact holds marker marked
    | even =>
      have reads := reading.resolve_right Stage.noConfusion
      exact World.Guarded.grown closed (Op.run_grown reads run) holds
    | ahead => trivial

/-- A listener that digests last leaves a marker that stands for the watchers behind it. -/
theorem Script.DigestsLast.run {script : Script κ σ α} {stage : Stage}
    {values values' : List Value} {exit : Exit α} (last : script.DigestsLast stage)
    (keeps : nested.Keeps World.ClosedWith) (guards : nested.Guards client)
    (closed : w.ClosedWith values) (holds : stage.Holds client rest w)
    (run : script.run nested values w = some (exit, values', w')) :
    w'.scope.ids = w.scope.ids ∧ w'.Guarded client rest := by
  induction script generalizing stage values w with
  | pure a =>
    cases run
    exact ⟨rfl, holds.guarded last⟩
  | panic p =>
    cases run
    exact ⟨rfl, holds.guarded last⟩
  | perform op next ih =>
    obtain ⟨still, later⟩ := last
    simp only [Script.run] at run
    rcases op.run_eq nested values w with same | rfl
    · rw [same] at run
      cases stepped : op.run noDigest values w with
      | none =>
        rw [stepped] at run
        cases run
      | some result =>
        obtain ⟨answer, values₁, w₁⟩ := result
        rw [stepped] at run
        have closed₁ : w₁.ClosedWith ([] ++ values₁) := World.stable_closed.step stepped closed
        obtain ⟨ids, guarded⟩ :=
          ih answer (later answer) closed₁ (holds.step closed.closed still stepped) run
        exact ⟨ids.trans (congrArg Scope.ids (Op.run_scope still stepped)), guarded⟩
    · simp only [Op.run] at run
      cases digested : nested w with
      | none =>
        rw [digested] at run
        cases run
      | some result =>
        obtain ⟨outcome, w₁⟩ := result
        rw [digested] at run
        obtain ⟨ids₁, guarded₁⟩ := guards digested closed.closed
        have even : stage.after (.digest : Op κ σ) = .even := by cases stage <;> rfl
        have holds₁ : (stage.after (.digest : Op κ σ)).Holds client rest w₁ := by
          rw [even]
          exact guarded₁.start rest
        obtain ⟨ids, guarded⟩ :=
          ih outcome (later outcome) (keeps values digested closed) holds₁ run
        exact ⟨ids.trans ids₁, guarded⟩

end

/-! Passes and digests. -/

namespace World

variable {client : Client κ σ} {nested : Digest κ σ} {w w' : World κ σ} {rest seen : List Nat}

theorem absorb_grown (w : World κ σ) (watcher : Nat) (phase : Phase) (result : Except Fault Unit) :
    w.Grown (w.absorb watcher phase result) := by
  cases result with
  | ok => exact (Reads.refl w).toGrown
  | error fault => exact .report w _

/-- A changed watcher is announced in a closed world. -/
theorem Changed.announced {watcher : Watcher κ} {new : Value}
    (changed : Changed client w watcher new w') (closed : w.Closed) (marker : Option Marker) :
    let announced := ((w'.report (.answered watcher.id new w'.heap)).mark marker).announce watcher new
    announced.2.ClosedWith [new, announced.1] := by
  have answered : w'.ClosedWith ([] ++ [new]) := changed.closedWith closed
  obtain ⟨mem, _, reading, differs⟩ := changed
  have found : w'.scope.find? watcher.id = some watcher := by
    rw [reading.scope]
    exact Scope.find?_eq_some_iff.2 ⟨mem, rfl⟩
  exact stable_closed.changed marker found differs answered

section

variable (reads : ∀ key, (client.watch key).OnlyReads)

include reads

/-- A digest that converges has found no change in its last pass. What it has not seen in that pass
is behind the marker. -/
theorem settled_of_passes (keeps : nested.Keeps ClosedWith) {left done : Nat} (closed : w.Closed)
    (run : passes client nested left done w = some (.ok (), w')) (id : Nat)
    (mem : id ∈ w'.scope.ids) : w'.SettledAt client id ∨ ∃ marker,
      w'.scope.marker = some marker ∧ marker.generation = w'.scope.generation ∧
        marker.watcher < id := by
  induction left generalizing w done with
  | zero => cases run
  | succ left ih =>
    simp only [passes] at run
    have started : (w.report .passStarted).Closed := (Grown.report w .passStarted).closed closed
    cases passed : pass client nested w with
    | none =>
      rw [passed] at run
      cases run
    | some result =>
      obtain ⟨changed, w₁⟩ := result
      have closed₁ := (stable_closed.visitAll keeps [] passed started.with_none).closed
      rw [passed] at run
      cases changed with
      | true => exact ih closed₁ run
      | false =>
        cases run
        obtain ⟨reading, visited⟩ := quiet_visitAll reads started w.scope.ascending passed
        have before : id ∈ w.scope.ids := by
          rw [← show w₁.scope.ids = w.scope.ids from congrArg Scope.ids reading.scope]
          exact mem
        exact (visited id before).imp_left fun settled => settled.report closed₁ _

variable (last : ∀ key new old, (client.listen key new old).DigestsLast .unbroken)
  (keeps : nested.Keeps ClosedWith) (guards : nested.Guards client)

include last keeps guards

theorem visit_guarded {generation : UInt64} {id : Nat} {turn : Turn} (closed : w.Closed)
    (ids : w.scope.ids = seen ++ id :: rest) (guarded : w.Guarded client (id :: rest))
    (run : visit client nested generation id w = some (turn, w')) :
    w'.scope.ids = w.scope.ids ∧ w'.Guarded client rest ∧
      (turn = .settled → w'.Guarded client []) := by
  rcases visit_cases reads closed nested generation id with
    ⟨_, _, visited, _, reading, settled, stops⟩ | ⟨watcher, new, w₁, rfl, changed, visited⟩
  · cases visited.symm.trans run
    have later : w.Guarded client rest := fun marker marked =>
      (guarded marker marked).visited settled
    refine ⟨congrArg Scope.ids reading.scope, later.grown closed reading.toGrown, fun stopped => ?_⟩
    apply Guarded.grown closed reading.toGrown
    intro marker marked
    have ascending : (seen ++ id :: rest).Pairwise (· < ·) := ids ▸ w.scope.ascending
    cases marked.symm.trans (stops stopped)
    exact (later _ marked).complete
      ((guarded _ marked).of_marked (List.pairwise_append.1 ascending).2.1)
  · have announced := changed.announced closed (some ⟨watcher.id, generation⟩)
    rw [visited] at run
    generalize same : (w₁.report (.answered watcher.id new w₁.heap)).mark
      (some ⟨watcher.id, generation⟩) = w₂ at run announced
    have ids₂ : w₂.scope.ids = w.scope.ids := by
      rw [← same]
      show w₁.scope.ids = w.scope.ids
      rw [changed.2.2.1.scope]
    have marked₂ : w₂.scope.marker = some ⟨watcher.id, generation⟩ := by
      rw [← same]
      rfl
    obtain ⟨ids₃, marked₃⟩ := w₂.announce_scope watcher new
    have holds : Stage.unbroken.Holds client rest (w₂.announce watcher new).2 := by
      intro marker marked
      rw [marked₃, marked₂] at marked
      cases marked
      exact Scope.ahead_of_visiting (ids₃.trans (ids₂.trans ids))
    cases told : tell client nested watcher new w₂ with
    | none =>
      rw [told] at run
      cases run
    | some w₃ =>
      rw [told] at run
      cases run
      rcases tell_cases told with rfl | ⟨key, exit, values, w₄, result, rfl, ran⟩
      · exact ⟨ids₃.trans ids₂, holds.guarded Stage.noConfusion, Turn.noConfusion⟩
      · obtain ⟨ids₄, guarded₄⟩ :=
          (last key ⟨0⟩ ⟨1⟩).run keeps guards announced holds ran
        have after : w₄.ClosedWith ([] ++ values) := stable_closed.script keeps [] ran announced
        have closed₄ := (stable_closed.dropLast after).closed
        have reported := w₄.absorb_grown watcher.id .listener result
        exact ⟨(congrArg Scope.ids reported.scope).trans (ids₄.trans (ids₃.trans ids₂)),
          guarded₄.grown closed₄ reported, Turn.noConfusion⟩

theorem visitAll_guarded {generation : UInt64} {dirty changed : Bool} (closed : w.Closed)
    (ids : w.scope.ids = seen ++ rest) (guarded : w.Guarded client rest)
    (run : visitAll client nested generation rest dirty w = some (changed, w')) :
    w'.scope.ids = w.scope.ids ∧ w'.Guarded client [] := by
  induction rest generalizing seen w dirty with
  | nil =>
    cases run
    exact ⟨rfl, guarded⟩
  | cons id rest ih =>
    simp only [visitAll] at run
    cases visited : visit client nested generation id w with
    | none =>
      rw [visited] at run
      cases run
    | some result =>
      obtain ⟨turn, w₁⟩ := result
      obtain ⟨ids₁, later, stopped⟩ := visit_guarded reads last keeps guards closed ids guarded visited
      have closed₁ := (stable_closed.visit keeps [] visited closed.with_none).closed
      have shifted : w₁.scope.ids = (seen ++ [id]) ++ rest := by
        rw [ids₁, ids]
        simp
      rw [visited] at run
      cases turn with
      | settled =>
        cases run
        exact ⟨ids₁, stopped rfl⟩
      | clean | dirty =>
        obtain ⟨ids', guarded'⟩ := ih closed₁ shifted later run
        exact ⟨ids'.trans ids₁, guarded'⟩

theorem passes_guarded {left done : Nat} {outcome : Except Divergence Unit} (closed : w.Closed)
    (guarded : w.Guarded client []) (run : passes client nested left done w = some (outcome, w')) :
    w'.scope.ids = w.scope.ids ∧ w'.Guarded client [] := by
  induction left generalizing w done with
  | zero =>
    cases run
    exact ⟨rfl, guarded.grown closed (.report w _)⟩
  | succ left ih =>
    simp only [passes] at run
    have start := Grown.report w .passStarted
    cases passed : pass client nested w with
    | none =>
      rw [passed] at run
      cases run
    | some result =>
      obtain ⟨changed, w₁⟩ := result
      have closed₁ := (stable_closed.visitAll keeps [] passed (start.closed closed).with_none).closed
      have ids : (w.report .passStarted).scope.ids = [] ++ w.scope.ids := rfl
      obtain ⟨ids₁, guarded₁⟩ := visitAll_guarded reads last keeps guards (start.closed closed) ids
        ((guarded.grown closed start).start _) passed
      rw [passed] at run
      cases changed with
      | false =>
        cases run
        exact ⟨ids₁, guarded₁.grown closed₁ (.report w₁ _)⟩
      | true =>
        obtain ⟨ids', guarded'⟩ := ih closed₁ guarded₁ run
        exact ⟨ids'.trans ids₁, guarded'⟩

end

/-- Nested to any depth, digests leave markers that stand for the watchers behind them. -/
theorem digest_guards (reads : ∀ key, (client.watch key).OnlyReads)
    (last : ∀ key new old, (client.listen key new old).DigestsLast .unbroken) (depth : Nat) :
    (digest client depth).Guards client := by
  induction depth with
  | zero =>
    intro w w' outcome run
    cases run
  | succ depth ih =>
    intro w w' outcome run closed
    have unmarked : (w.mark none).Closed := (stable_closed.mark none closed.with_none).closed
    have guarded : (w.mark none).Guarded client [] := by
      rintro marker ⟨⟩
    have passed :=
      passes_guarded reads last (stable_closed.digest client depth) ih unmarked guarded run
    exact passed

/-- When a digest has converged, whatever its listeners did, every watcher is settled exactly if
those behind a current marker are. They are if no listener changes anything after the last digest
that it starts; digests may be nested to any depth. -/
theorem digest_settles_iff (client : Client κ σ) (reads : ∀ key, (client.watch key).OnlyReads)
    (depth : Nat) (w w' : World κ σ) (closed : w.Closed)
    (run : digest client depth w = some (.ok (), w')) :
    ((∀ watcher ∈ w'.scope.watchers, w'.Settled client watcher) ↔
      ∀ marker, w'.scope.marker = some marker → marker.generation = w'.scope.generation →
        ∀ watcher ∈ w'.scope.watchers, marker.watcher < watcher.id → w'.Settled client watcher) ∧
    ((∀ key new old, (client.listen key new old).DigestsLast .unbroken) →
      ∀ watcher ∈ w'.scope.watchers, w'.Settled client watcher) := by
  cases depth with
  | zero => cases run
  | succ depth =>
    have unmarked : (w.mark none).Closed := (stable_closed.mark none closed.with_none).closed
    have seen := settled_of_passes reads (stable_closed.digest client depth) unmarked run
    refine ⟨⟨fun all _ _ _ watcher mem _ => all watcher mem, fun behind watcher mem => ?_⟩,
      fun last watcher mem => ?_⟩
    · rcases seen watcher.id (List.mem_map_of_mem mem) with settled | ⟨marker, marked, current, less⟩
      · exact settled watcher mem rfl
      · exact behind marker marked current watcher mem less
    · obtain ⟨_, guarded⟩ := digest_guards reads last (depth + 1) run closed
      have inside : watcher.id ∈ w'.scope.ids := List.mem_map_of_mem mem
      rcases seen watcher.id inside with settled | ⟨marker, marked, _, less⟩
      · exact settled watcher mem rfl
      · exact (guarded marker marked).settled inside less watcher mem rfl

/-- A listener that copies a field and ends with a digest. -/
def carry : Client Unit Unit where
  watch _ := do
    let v ← Script.obtain (.get "a")
    return .ok v
  listen _ new _ := do
    Script.change (.set "b" new)
    let _ ← Script.digest
    return .ok ()

theorem digest_settles_iff_carry :
    let w : World Unit Unit :=
      ((World.initial .default ()).register (.callable ()) (some ()) .reference).2
    w.Closed ∧ ∃ w', digest carry 2 w = some (.ok (), w') ∧
      ∀ watcher ∈ w'.scope.watchers, w'.Settled carry watcher := by
  intro w
  have closed : w.Closed := (closed_initial .default ()).register _ _ _
  have reads : ∀ key, (carry.watch key).OnlyReads :=
    fun key w _ => ⟨.returned (.ok ⟨0⟩), [w.get "a"], w, rfl, .refl w⟩
  have last : ∀ key new old, (carry.listen key new old).DigestsLast .unbroken :=
    fun key new old => ⟨rfl, fun _ => ⟨rfl, fun _ => Stage.noConfusion⟩⟩
  have converges : ∃ w', digest carry 2 w = some (.ok (), w') := ⟨_, rfl⟩
  obtain ⟨w', run⟩ := converges
  exact ⟨closed, w', run, (digest_settles_iff carry reads 2 w w' closed run).2 last⟩

/-- The watchers of a relay. -/
inductive Runner where
  | first
  | second
  | third
  deriving DecidableEq

def Runner.field : Runner → String
  | .first => "go"
  | .second => "b"
  | .third => "c"

/-- The first runner passes its value on to the second, digests, and passes it on to the third. -/
def relay : Client Runner Unit where
  watch runner := do
    let v ← Script.obtain (.get runner.field)
    return .ok v
  listen
    | .first, new, _ => do
      Script.change (.set "b" new)
      let _ ← Script.digest
      Script.change (.set "c" new)
      return .ok ()
    | .second, _, _ => return .ok ()
    | .third, new, _ => do
      Script.change (.set "seen" new)
      return .ok ()

/-- Registers the runners, lets them settle, and starts the first. -/
def relayStart : Script Runner Unit Unit := do
  let _ ← Script.register .first (some .first) .reference
  let _ ← Script.register .second (some .second) .reference
  let _ ← Script.register .third (some .third) .reference
  let _ ← Script.digest
  let v ← Script.obtain (.literal (.bool true))
  Script.change (.set "go" v)

/-- The digest in the first listener leaves the second runner marked, and there the passes of the
outer digest end. So the outer digest converges and the third runner is never told. -/
theorem relay_unsettled : (∀ key, (relay.watch key).OnlyReads) ∧ ∃ exit w w',
    (World.initial .default ()).runScript relay 2 relayStart = some (exit, w) ∧ w.Closed ∧
      digest relay 2 w = some (.ok (), w') ∧
      ∃ watcher ∈ w'.scope.watchers, ¬ w'.Settled relay watcher := by
  have reads : ∀ key, (relay.watch key).OnlyReads :=
    fun key w _ => ⟨.returned (.ok ⟨0⟩), [w.get key.field], w, rfl, .refl w⟩
  have ends : (((World.initial .default ()).runScript relay 2 relayStart).any fun (_, w) =>
      (digest relay 2 w).any fun (outcome, w') => outcome.isOk &&
        w'.scope.watchers.any fun watcher => !decide (w'.Settled relay watcher)) = true := by
    decide +kernel
  obtain ⟨⟨exit, w⟩, started, converges⟩ := (Option.any_eq_true _ _).1 ends
  obtain ⟨⟨outcome, w'⟩, run, leaves⟩ := (Option.any_eq_true _ _).1 converges
  have start : (World.initial .default () : World Runner Unit).Closed := closed_initial _ _
  have closed := (stable_closed.runScript started start.with_none).closed
  rcases outcome with divergence | ⟨⟩
  · cases leaves
  · obtain ⟨watcher, mem, unsettled⟩ := List.any_eq_true.1 leaves
    exact ⟨reads, exit, w, w', started, closed, run, watcher, mem, by simpa using unsettled⟩

end World
end DataBinding
