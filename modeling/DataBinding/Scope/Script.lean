import DataBinding.Scope.World

/-! Scripts: what a callable may do. A script performs operations and goes on with their
answers. It never holds a value itself, only references to the values it was given or has
obtained, and it learns about them by looking at a copy of what they reach. So a script
cannot make up handles, and it behaves alike in worlds that differ only in their handles. -/
namespace DataBinding

/-- The place of a value among those that a script has been given or has obtained. -/
structure Ref where
  index : Nat
  deriving DecidableEq

/-- Operations that obtain a value. -/
inductive Obtain where
  | undefined
  | literal (value : Literal)
  | array (items : List Ref)
  | object (entries : List (String × Ref))
  /-- A value for a JSON document. -/
  | json (document : Json)
  | member (holder : Ref) (key : String)
  | memberAt (holder key : Ref)
  /-- A copy that shares no container. -/
  | copy (v : Ref)
  /-- The data object of the scope. -/
  | data
  /-- A field of the data. -/
  | get (key : String)
  /-- A value kept under a name. -/
  | kept (name : String)
  | call (accessor : Accessor) (context locals : Option Ref)

/-- Operations that change a container, the data or the values kept by name. -/
inductive Change where
  | push (array v : Ref)
  | pop (array : Ref)
  | store (array : Ref) (index : Nat) (v : Ref)
  | insert (object : Ref) (key : String) (v : Ref)
  | erase (object : Ref) (key : String)
  | set (key : String) (v : Ref)
  | keep (name : String) (v : Ref)

inductive Op (κ σ : Type) where
  | obtain (op : Obtain)
  | change (op : Change)
  /-- The given values in a heap that holds what they reach and nothing else. -/
  | look (values : List Ref)
  | evalExpr (text : String) (locals : Option Ref)
  | register (callable : κ) (listener : Option κ) (comparison : Comparison)
  | watchExpr (text : String) (listener : κ) (comparison : Comparison)
  | deregister (watcher : Nat)
  /-- How many watchers there are, and the configuration. -/
  | status
  /-- The text of the scope for inspection. -/
  | inspect
  /-- Changes the client's state and returns what it was. -/
  | client (f : σ → σ)
  | note (message : String)
  | digest
  /-- Reports a digest after a panic that did not settle. -/
  | reportDivergence (divergence : Divergence)

/-- What an operation answers. -/
def Op.Answer {κ σ : Type} : Op κ σ → Type
  | .obtain _ => Ref
  | .change _ => Unit
  | .look _ => List Value × Heap
  | .evalExpr .. => Except CompileError Ref
  | .register .. => Nat
  | .watchExpr .. => Except CompileError Nat
  | .deregister _ => Unit
  | .status => Nat × Config
  | .inspect => String
  | .client _ => σ
  | .note _ => Unit
  | .digest => Except Divergence Unit
  | .reportDivergence _ => Unit

inductive Script (κ σ α : Type) where
  | pure (a : α)
  | panic (panic : Panic)
  | perform (op : Op κ σ) (next : op.Answer → Script κ σ α)

/-- How a script ends. -/
inductive Exit (α : Type) where
  | returned (a : α)
  | panicked (panic : Panic)

namespace Script

variable {κ σ α β : Type}

def bind (script : Script κ σ α) (f : α → Script κ σ β) : Script κ σ β :=
  match script with
  | .pure a => f a
  | .panic p => .panic p
  | .perform op next => .perform op fun answer => (next answer).bind f

instance : Monad (Script κ σ) where
  pure := .pure
  bind := .bind

instance : Inhabited (Script κ σ α) := ⟨.panic .unknown⟩

/-- A single operation. -/
def lift (op : Op κ σ) : Script κ σ op.Answer := .perform op .pure

/-- Ends a panic and tells how the script ended. -/
def attempt : Script κ σ α → Script κ σ (Exit α)
  | .pure a => .pure (.returned a)
  | .panic p => .pure (.panicked p)
  | .perform op next => .perform op fun answer => (next answer).attempt

def obtain (op : Obtain) : Script κ σ Ref := lift (.obtain op)

def change (op : Change) : Script κ σ Unit := lift (.change op)

def look (values : List Ref) : Script κ σ (List Value × Heap) := lift (.look values)

def evalExpr (text : String) (locals : Option Ref) : Script κ σ (Except CompileError Ref) :=
  lift (.evalExpr text locals)

def register (callable : κ) (listener : Option κ) (comparison : Comparison) : Script κ σ Nat :=
  lift (.register callable listener comparison)

def watchExpr (text : String) (listener : κ) (comparison : Comparison) :
    Script κ σ (Except CompileError Nat) :=
  lift (.watchExpr text listener comparison)

def deregister (watcher : Nat) : Script κ σ Unit := lift (.deregister watcher)

def status : Script κ σ (Nat × Config) := lift .status

def inspect : Script κ σ String := lift .inspect

def client (f : σ → σ) : Script κ σ σ := lift (.client f)

def note (message : String) : Script κ σ Unit := lift (.note message)

def digest : Script κ σ (Except Divergence Unit) := lift .digest

/-- Runs a script and then digests. The digest runs after a panic too, and then the panic
goes on; otherwise a digest that does not settle takes the place of the result. -/
def apply (script : Script κ σ α) : Script κ σ (Except Divergence α) := do
  let exit ← script.attempt
  let outcome ← digest
  match exit, outcome with
  | .returned a, .ok () => return .ok a
  | .returned _, .error divergence => return .error divergence
  | .panicked p, .ok () => .panic p
  | .panicked p, .error divergence => do
    lift (.reportDivergence divergence)
    .panic p

end Script

/-- The callables of a client: watch callables give a value or fail, listeners are given
the new and the old value. -/
structure Client (κ σ : Type) where
  watch : κ → Script κ σ (Except String Ref)
  listen : κ → Ref → Ref → Script κ σ (Except String Unit)

end DataBinding
