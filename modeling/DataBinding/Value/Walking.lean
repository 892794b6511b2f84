import DataBinding.Value.Basic

/-! Walks over the contents of a value. A thread has one list of the containers that its
walks have open. Entering a container that is open already is how a walk notices that the
container is inside itself; whatever becomes of the contents, a container that was entered
is left again. -/
namespace DataBinding

/-- A computation over the open containers of a thread, the latest first. There is no
outcome when its calls nest deeper than was allowed. -/
abbrev Walk (α : Type) := StateT (List Handle) Option α

namespace Walk

variable {ε α : Type}

/-- Opens a container, unless it is open. -/
def enter (h : Handle) : Walk Bool := fun opened =>
  if h ∈ opened then some (false, opened) else some (true, h :: opened)

/-- Closes a container where it was opened last. -/
def leave (h : Handle) : Walk Unit := fun opened => some ((), opened.erase h)

/-- What a walk yields on a thread that has nothing open, unless it fails. -/
def answer? (walk : Walk (Except ε α)) : Option α :=
  match walk [] with
  | some (.ok answer, _) => some answer
  | _ => none

end Walk

/-- What a walk makes of each kind of value. -/
structure Visitor (ε α : Type) where
  undefined : Except ε α
  null : Except ε α
  bool : Bool → Except ε α
  number : Number → Except ε α
  string : String → Except ε α
  array : List α → Except ε α
  object : List (String × α) → Except ε α
  /-- An array that is met inside itself. -/
  circularArray : Except ε α
  /-- An object that is met inside itself. -/
  circularObject : Except ε α
  /-- Whether members that hold undefined are passed over. -/
  skipsUndefined : Bool

namespace Visitor

variable {ε α : Type}

def circular (visitor : Visitor ε α) : Cell → Except ε α
  | .array _ => visitor.circularArray
  | .object _ => visitor.circularObject

/-- Whether the member of an object is passed over. -/
def skips (visitor : Visitor ε α) (v : Value) : Bool :=
  visitor.skipsUndefined && v == .undefined

end Visitor

/-- The walk of a visitor over a value, with at most `depth` containers inside one another.
The first failure inside a container is the outcome for the container. -/
def Heap.visitWithin {ε α : Type} (visitor : Visitor ε α) (heap : Heap) :
    Nat → Value → Walk (Except ε α)
  | _, .undefined => return visitor.undefined
  | _, .null => return visitor.null
  | _, .bool b => return visitor.bool b
  | _, .number n => return visitor.number n
  | _, .string s => return visitor.string s
  | 0, .container _ => failure
  | depth + 1, .container h => do
    unless ← Walk.enter h do return visitor.circular (heap.cell h)
    let outcome ← match heap.cell h with
      | .array items => do
        let parts ← (items.mapM (m := ExceptT ε Walk) fun item => heap.visitWithin visitor depth item).run
        pure (parts.bind visitor.array)
      | .object members => do
        let kept := members.entries.filter fun entry => !visitor.skips entry.2
        let parts ← (kept.mapM (m := ExceptT ε Walk) fun entry => do
          let part ← (heap.visitWithin visitor depth entry.2 : ExceptT ε Walk α)
          return (entry.1, part)).run
        pure (parts.bind visitor.object)
    Walk.leave h
    return outcome

/-- The walk of a visitor over a value. No more containers are inside one another than the heap
has, and one that is met again or is not in the heap. -/
def Heap.visit {ε α : Type} (visitor : Visitor ε α) (heap : Heap) (v : Value) :
    Walk (Except ε α) :=
  heap.visitWithin visitor (heap.size + 1) v

end DataBinding
