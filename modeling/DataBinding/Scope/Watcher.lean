import DataBinding.Program.Accessor
import DataBinding.Value.Copy

/-! Watchers: where a value comes from, who is told when it changes, and what was seen
last. Callables are known by keys of a type that the client chooses. -/
namespace DataBinding

/-- How a watcher decides whether its value changed: by identity, or by structure against
a copy of what it saw last. -/
inductive Comparison where
  | reference
  | value
  deriving DecidableEq

namespace Comparison

def equal (comparison : Comparison) (heap : Heap) (new last : Value) : Bool :=
  match comparison with
  | .reference => new.identical last
  | .value => heap.deepEqual new last

/-- What is kept as the last value seen. -/
def remember (comparison : Comparison) (heap : Heap) (v : Value) : Value × Heap :=
  match comparison with
  | .reference => (v, heap)
  | .value => heap.deepCopy v

end Comparison

/-- Where a watcher takes its value from: a callable, or an expression over the data. -/
inductive Source (κ : Type) where
  | callable (key : κ)
  | expression (accessor : Accessor)

structure Watcher (κ : Type) where
  id : Nat
  source : Source κ
  listener : Option κ
  comparison : Comparison
  /-- Nothing before the first evaluation, which therefore counts as a change. -/
  last : Option Value

namespace Watcher

variable {κ : Type}

/-- Whether a value matches the last one seen. -/
def isSettled (watcher : Watcher κ) (heap : Heap) (new : Value) : Bool :=
  watcher.last.any fun last => watcher.comparison.equal heap new last

end Watcher
end DataBinding
