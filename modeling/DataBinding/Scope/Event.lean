import DataBinding.Scope.Watcher

/-! What can go wrong in a digest, and what happens to a scope. -/
namespace DataBinding

/-- What a callable was left with when it panicked: a text, or nothing that can be read. -/
inductive Panic where
  | text (message : String)
  | unknown
  deriving DecidableEq

def Panic.message : Panic → String
  | .text message => message
  | .unknown => "unknown panic payload"

/-- A failure of one callable. -/
inductive Fault where
  | failed (message : String)
  | panicked (panic : Panic)
  deriving DecidableEq

def Fault.message : Fault → String
  | .failed message => message
  | .panicked panic => "panicked: " ++ panic.message

/-- The passes of a digest were used up and the last one still found a change. -/
structure Divergence where
  ttl : Nat
  deriving DecidableEq

def Divergence.message (divergence : Divergence) : String :=
  toString divergence.ttl ++ " digest iterations reached without the watchers settling"

/-- The two callables of a watcher. -/
inductive Phase where
  | watch
  | listener
  deriving DecidableEq

/-- What happens to a scope. Where an event has values it has the heap of its moment. -/
inductive Event where
  | registered (watcher : Nat) (listens : Bool) (comparison : Comparison)
  | deregistered (watcher : Nat)
  | passStarted
  /-- The source of a watcher is asked for its value. -/
  | asked (watcher : Nat)
  /-- The source has given a value, and its watcher is still registered. -/
  | answered (watcher : Nat) (new : Value) (heap : Heap)
  /-- The listener of a watcher is called. -/
  | fired (watcher : Nat) (new old : Value) (heap : Heap)
  | faulted (watcher : Nat) (phase : Phase) (fault : Fault)
  | converged (passes : Nat)
  | diverged (divergence : Divergence)
  /-- The digest after a panic in `apply` did not settle. -/
  | applyDiverged (divergence : Divergence)
  /-- A message of the client. -/
  | note (message : String)

end DataBinding
