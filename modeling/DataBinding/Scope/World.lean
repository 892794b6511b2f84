import DataBinding.Program.Cache
import DataBinding.Scope.Basic
import DataBinding.Scope.Event
import DataBinding.Value.Json

/-! The state that a digest works on: a scope, the heap that it shares with its clients, and
the journal of what happened. -/
namespace DataBinding

/-- `κ` are the keys of callables and `σ` is a state of the client's own. -/
structure World (κ σ : Type) where
  heap : Heap
  scope : Scope κ
  /-- Values that the client keeps by name. -/
  kept : Members Value
  cache : Cache
  client : σ
  /-- What happened, the latest first. -/
  journal : List Event

namespace World

variable {κ σ : Type}

/-- Drops the scope for a new one; everything else stays. -/
def renew (w : World κ σ) (config : Config) : World κ σ :=
  let (data, heap) := w.heap.alloc (.object .empty)
  { w with heap, scope := .new data w.scope.nextId config }

def initial (config : Config) (client : σ) : World κ σ :=
  let (data, heap) := Heap.empty.alloc (.object .empty)
  ⟨heap, .new data 0 config, .empty, .empty, client, []⟩

def report (w : World κ σ) (event : Event) : World κ σ :=
  { w with journal := event :: w.journal }

def data (w : World κ σ) : Value := .container w.scope.data

/-- A field of the data. -/
def get (w : World κ σ) (key : String) : Value := w.heap.member w.data key

def set (w : World κ σ) (key : String) (v : Value) : World κ σ :=
  { w with heap := w.heap.insert w.scope.data key v }

/-- Adds a watcher and returns its number. -/
def register (w : World κ σ) (source : Source κ) (listener : Option κ)
    (comparison : Comparison) : Nat × World κ σ :=
  let id := w.scope.nextId
  (id, { w with scope := w.scope.add source listener comparison }.report
    (.registered id listener.isSome comparison))

/-- Removes a watcher; done again, or for a watcher of another scope, it does nothing. -/
def deregister (w : World κ σ) (id : Nat) : World κ σ :=
  match w.scope.find? id with
  | some _ => { w with scope := w.scope.remove id }.report (.deregistered id)
  | none => w

/-- The accessor of a text, through the cache. -/
def accessor (w : World κ σ) (text : String) : Except CompileError (Accessor × World κ σ) :=
  match w.cache.getOrCompile text with
  | .ok (compiled, cache) => .ok (compiled.accessor, { w with cache })
  | .error fault => .error fault

/-- Watches an expression over the data. A text that does not compile changes nothing. -/
def watchExpr (w : World κ σ) (text : String) (listener : κ) (comparison : Comparison) :
    Except CompileError Nat × World κ σ :=
  match w.accessor text with
  | .ok (accessor, w) =>
    let (id, w) := w.register (.expression accessor) (some listener) comparison
    (.ok id, w)
  | .error fault => (.error fault, w)

/-- Runs a program on the given arguments. -/
def call (w : World κ σ) (accessor : Accessor) (arguments : Arguments) : Value × World κ σ :=
  let (v, heap) := accessor.run arguments w.heap
  (v, { w with heap })

/-- The value of an expression over the data, with locals that go before it. -/
def evalExpr (w : World κ σ) (text : String) (locals : Option Value) :
    Except CompileError Value × World κ σ :=
  match w.accessor text with
  | .ok (accessor, w) =>
    let (v, w) := w.call accessor ⟨some w.data, locals⟩
    (.ok v, w)
  | .error fault => (.error fault, w)

def debugText (w : World κ σ) : String := String.ofList (w.scope.outline w.heap).inline

end World
end DataBinding
