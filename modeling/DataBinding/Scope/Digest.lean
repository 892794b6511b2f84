import DataBinding.Scope.Run

/-! Digests. A pass visits the watchers that are registered when it starts, the oldest
first, and calls the listeners of those whose value changed; passes are repeated until one
finds no change. The last changed watcher is marked: when a later pass comes to it again
and finds it unchanged, every watcher has been seen since the last change and the pass
ends early. A marker set in another generation of the watcher set ends nothing. -/
namespace DataBinding

variable {κ σ : Type}

/-- What visiting one watcher means for the pass. -/
inductive Turn where
  | clean
  | dirty
  /-- The marked watcher is unchanged. -/
  | settled
  deriving DecidableEq

namespace World

/-- Asks a watcher for its value. -/
def evaluate (client : Client κ σ) (nested : Digest κ σ) (watcher : Watcher κ)
    (w : World κ σ) : Option (Except Fault Value × World κ σ) :=
  let w := w.report (.asked watcher.id)
  match watcher.source with
  | .expression accessor =>
    let (v, w) := w.call accessor ⟨some w.data, none⟩
    some (.ok v, w)
  | .callable key =>
    match (client.watch key).run nested [] w with
    | some (.returned (.ok ref), values, w) => some (.ok (ref.value values), w)
    | some (.returned (.error message), _, w) => some (.error (.failed message), w)
    | some (.panicked p, _, w) => some (.error (.panicked p), w)
    | none => none

/-- Calls the listener of a watcher, if it has one. -/
def react (client : Client κ σ) (nested : Digest κ σ) (watcher : Watcher κ) (new old : Value)
    (w : World κ σ) : Option (Except Fault Unit × World κ σ) :=
  match watcher.listener with
  | none => some (.ok (), w)
  | some key =>
    let w := w.report (.fired watcher.id new old w.heap)
    match (client.listen key ⟨0⟩ ⟨1⟩).run nested [new, old] w with
    | some (.returned (.ok ()), _, w) => some (.ok (), w)
    | some (.returned (.error message), _, w) => some (.error (.failed message), w)
    | some (.panicked p, _, w) => some (.error (.panicked p), w)
    | none => none

/-- Reports a failure of a callable. -/
def absorb (watcher : Nat) (phase : Phase) (result : Except Fault Unit) (w : World κ σ) :
    World κ σ :=
  match result with
  | .ok () => w
  | .error fault => w.report (.faulted watcher phase fault)

/-- Keeps a value as the last one that a watcher saw, and returns the one before. -/
def record (watcher : Watcher κ) (new : Value) (w : World κ σ) : Option Value × World κ σ :=
  let (kept, heap) := watcher.comparison.remember w.heap new
  (watcher.last, { w with heap, scope := w.scope.setLast watcher.id kept })

/-- Marks a watcher as the last one found changed. -/
def mark (marker : Option Marker) (w : World κ σ) : World κ σ :=
  { w with scope := w.scope.mark marker }

/-- Compares the value of a watcher with the last one, in a pass that started in the
given generation. -/
def settle (client : Client κ σ) (nested : Digest κ σ) (generation : UInt64)
    (watcher : Watcher κ) (new : Value) (w : World κ σ) : Option (Turn × World κ σ) :=
  if watcher.isSettled w.heap new then
    some (if w.scope.marker = some ⟨watcher.id, w.scope.generation⟩ then .settled else .clean, w)
  else
    let (old, w) := (w.mark (some ⟨watcher.id, generation⟩)).record watcher new
    match react client nested watcher new (old.getD new) w with
    | some (result, w) => some (.dirty, w.absorb watcher.id .listener result)
    | none => none

/-- Visits a watcher, unless it has been removed before its turn or is removed while it is
asked for its value. -/
def visit (client : Client κ σ) (nested : Digest κ σ) (generation : UInt64) (id : Nat)
    (w : World κ σ) : Option (Turn × World κ σ) :=
  match w.scope.find? id with
  | none => some (.clean, w)
  | some watcher =>
    match evaluate client nested watcher w with
    | none => none
    | some (.error fault, w) => some (.clean, w.absorb id .watch (.error fault))
    | some (.ok new, w) =>
      match w.scope.find? id with
      | none => some (.clean, w)
      | some watcher =>
        settle client nested generation watcher new (w.report (.answered id new w.heap))

/-- Visits watchers in order. Tells whether one was changed. -/
def visitAll (client : Client κ σ) (nested : Digest κ σ) (generation : UInt64) :
    List Nat → Bool → World κ σ → Option (Bool × World κ σ)
  | [], dirty, w => some (dirty, w)
  | id :: rest, dirty, w =>
    match visit client nested generation id w with
    | none => none
    | some (.settled, w) => some (dirty, w)
    | some (.clean, w) => visitAll client nested generation rest dirty w
    | some (.dirty, w) => visitAll client nested generation rest true w

/-- One pass over the watchers. -/
def pass (client : Client κ σ) (nested : Digest κ σ) (w : World κ σ) :
    Option (Bool × World κ σ) :=
  visitAll client nested w.scope.generation w.scope.ids false (w.report .passStarted)

/-- Passes after `done` earlier ones, while they find changes and `left` more are
allowed. -/
def passes (client : Client κ σ) (nested : Digest κ σ) :
    (left done : Nat) → World κ σ → Option (Except Divergence Unit × World κ σ)
  | 0, _, w =>
    let divergence : Divergence := ⟨w.scope.config.ttl⟩
    some (.error divergence, w.report (.diverged divergence))
  | left + 1, done, w =>
    match pass client nested w with
    | none => none
    | some (false, w) => some (.ok (), w.report (.converged (done + 1)))
    | some (true, w) => passes client nested left (done + 1) w

/-- A digest whose callables digest by `nested`. There is always a first pass, even if the
limit is zero. -/
def digestWith (client : Client κ σ) (nested : Digest κ σ) : Digest κ σ := fun w =>
  passes client nested (max w.scope.config.ttl 1) 0 (w.mark none)

/-- A digest in which digests are nested to a depth below `depth`. -/
def digest (client : Client κ σ) : Nat → Digest κ σ
  | 0 => fun _ => none
  | depth + 1 => digestWith client (digest client depth)

/-- Runs a script from outside of any callable. -/
def runScript {α : Type} (client : Client κ σ) (depth : Nat) (script : Script κ σ α)
    (w : World κ σ) : Option (Exit α × World κ σ) :=
  (script.run (digest client depth) [] w).map fun (exit, _, w) => (exit, w)

end World
end DataBinding
