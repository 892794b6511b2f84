import DataBinding.Program.Basic
import DataBinding.Value.Read

/-! Running programs. A run reads the context, the locals and the containers they reach;
all it does to the heap is to build the arrays and objects that the program spells out. -/
namespace DataBinding

/-- What a program runs on. A missing argument is kept apart from an undefined one. -/
structure Arguments where
  context : Option Value
  locals : Option Value

def Literal.value : Literal → Value
  | .null => .null
  | .bool b => .bool b
  | .number n => .number n
  | .string s => .string s

namespace Operand

mutual

/-- The value of an operand, and the heap with the containers built for it. -/
def load (arguments : Arguments) (temps : List Value) (heap : Heap) : Operand → Value × Heap
  | .literal value => (value.value, heap)
  | .temp id => ((temps[id]?).getD .undefined, heap)
  | .context => (arguments.context.getD .undefined, heap)
  | .locals => (arguments.locals.getD .undefined, heap)
  | .array elements =>
    let (items, heap) := loadElements arguments temps heap elements
    heap.newArray items
  | .object entries =>
    let (members, heap) := loadEntries arguments temps heap entries
    heap.newObject members

def loadElements (arguments : Arguments) (temps : List Value) (heap : Heap) :
    List Operand → List Value × Heap
  | [] => ([], heap)
  | element :: rest =>
    let (first, heap) := load arguments temps heap element
    let (others, heap) := loadElements arguments temps heap rest
    (first :: others, heap)

def loadEntries (arguments : Arguments) (temps : List Value) (heap : Heap) :
    List (String × Operand) → List (String × Value) × Heap
  | [] => ([], heap)
  | (key, value) :: rest =>
    let (first, heap) := load arguments temps heap value
    let (others, heap) := loadEntries arguments temps heap rest
    ((key, first) :: others, heap)

end

end Operand

namespace Arguments

def localsHave (arguments : Arguments) (heap : Heap) (name : String) : Bool :=
  arguments.locals.any fun locals => locals.isTruthy && heap.hasKey locals name

def contextPresent (arguments : Arguments) : Bool := arguments.context.any Value.isTruthy

end Arguments

def Test.holds (test : Test) (arguments : Arguments) (temps : List Value) (heap : Heap) :
    Bool × Heap :=
  match test with
  | .localsHave name => (arguments.localsHave heap name, heap)
  | .contextInstead name =>
    (!arguments.localsHave heap name && arguments.contextPresent, heap)
  | .truthy operand =>
    let (v, heap) := operand.load arguments temps heap
    (v.isTruthy, heap)

def Read.value (read : Read) (arguments : Arguments) (temps : List Value) (heap : Heap) :
    Value × Heap :=
  match read with
  | .member object name =>
    let (object, heap) := object.load arguments temps heap
    (heap.member object name, heap)
  | .computed object key =>
    let (object, heap) := object.load arguments temps heap
    let (key, heap) := key.load arguments temps heap
    (heap.memberAt object key, heap)

/-- Reads into the target if the test holds. A target without a slot is not written. -/
def Statement.run (statement : Statement) (arguments : Arguments) (temps : List Value)
    (heap : Heap) : List Value × Heap :=
  let (holds, heap) := statement.test.holds arguments temps heap
  if holds then
    let (v, heap) := statement.read.value arguments temps heap
    (temps.set statement.target v, heap)
  else (temps, heap)

def Statement.runAll (arguments : Arguments) :
    List Statement → List Value → Heap → List Value × Heap
  | [], temps, heap => (temps, heap)
  | statement :: rest, temps, heap =>
    let (temps, heap) := statement.run arguments temps heap
    runAll arguments rest temps heap

/-- The value of a program, and the heap with what it built. -/
def Program.run (program : Program) (arguments : Arguments) (heap : Heap) : Value × Heap :=
  let temps := List.replicate program.tempCount .undefined
  let (temps, heap) := Statement.runAll arguments program.body temps heap
  program.result.load arguments temps heap

end DataBinding
