import DataBinding.Program.Run

/-! Strict runs. They do what a run does, but there is no outcome where a run would fall back on
undefined for a missing slot or leave a write to one out, nor where a slot is written that has
been read or written before. -/
namespace DataBinding

/-- The slot of a temporary. `used` tells whether it has been read or written. -/
structure Temporary where
  value : Value
  used : Bool

/-- A computation over the slots, without an outcome if it breaks a rule. -/
abbrev Strict (α : Type) := StateT (List Temporary) Option α

namespace Strict

/-- Reads a slot that is there, which is used from then on. -/
def read (id : Nat) : Strict Value := fun slots =>
  match slots[id]? with
  | some slot => some (slot.value, slots.set id { slot with used := true })
  | none => none

/-- Writes a slot that is there and has not been used. -/
def write (id : Nat) (v : Value) : Strict Unit := fun slots =>
  match slots[id]? with
  | some slot => if slot.used then none else some ((), slots.set id ⟨v, true⟩)
  | none => none

end Strict

namespace Operand

mutual

def loadStrictly (arguments : Arguments) (heap : Heap) : Operand → Strict (Value × Heap)
  | .literal value => return (value.value, heap)
  | .temp id => return (← Strict.read id, heap)
  | .context => return (arguments.context.getD .undefined, heap)
  | .locals => return (arguments.locals.getD .undefined, heap)
  | .array elements => do
    let (items, heap) ← loadElementsStrictly arguments heap elements
    return heap.newArray items
  | .object entries => do
    let (members, heap) ← loadEntriesStrictly arguments heap entries
    return heap.newObject members

def loadElementsStrictly (arguments : Arguments) (heap : Heap) :
    List Operand → Strict (List Value × Heap)
  | [] => return ([], heap)
  | element :: rest => do
    let (first, heap) ← loadStrictly arguments heap element
    let (others, heap) ← loadElementsStrictly arguments heap rest
    return (first :: others, heap)

def loadEntriesStrictly (arguments : Arguments) (heap : Heap) :
    List (String × Operand) → Strict (List (String × Value) × Heap)
  | [] => return ([], heap)
  | (key, value) :: rest => do
    let (first, heap) ← loadStrictly arguments heap value
    let (others, heap) ← loadEntriesStrictly arguments heap rest
    return ((key, first) :: others, heap)

end

end Operand

def Test.holdsStrictly (test : Test) (arguments : Arguments) (heap : Heap) :
    Strict (Bool × Heap) :=
  match test with
  | .localsHave name => return (arguments.localsHave heap name, heap)
  | .contextInstead name =>
    return (!arguments.localsHave heap name && arguments.contextPresent, heap)
  | .truthy operand => do
    let (v, heap) ← operand.loadStrictly arguments heap
    return (v.isTruthy, heap)

def Read.valueStrictly (read : Read) (arguments : Arguments) (heap : Heap) :
    Strict (Value × Heap) :=
  match read with
  | .member object name => do
    let (object, heap) ← object.loadStrictly arguments heap
    return (heap.member object name, heap)
  | .computed object key => do
    let (object, heap) ← object.loadStrictly arguments heap
    let (key, heap) ← key.loadStrictly arguments heap
    return (heap.memberAt object key, heap)

def Statement.runStrictly (statement : Statement) (arguments : Arguments) (heap : Heap) :
    Strict Heap := do
  let (holds, heap) ← statement.test.holdsStrictly arguments heap
  if holds then
    let (v, heap) ← statement.read.valueStrictly arguments heap
    Strict.write statement.target v
    return heap
  else return heap

def Statement.runAllStrictly (arguments : Arguments) : List Statement → Heap → Strict Heap
  | [], heap => return heap
  | statement :: rest, heap => do
    let heap ← statement.runStrictly arguments heap
    runAllStrictly arguments rest heap

/-- The value of a program, and the heap with what it built, if the run breaks no rule. -/
def Program.runStrictly (program : Program) (arguments : Arguments) (heap : Heap) :
    Option (Value × Heap) :=
  let slots := List.replicate program.tempCount ⟨.undefined, false⟩
  StateT.run' (do
    let heap ← Statement.runAllStrictly arguments program.body heap
    program.result.loadStrictly arguments heap) slots

end DataBinding
