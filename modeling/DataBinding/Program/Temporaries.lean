import DataBinding.Program.Generation
import DataBinding.Program.Run

/-! What it means that a program uses its temporaries well. They are numbered without gaps, each
is given its value in one place, and it is read only after that place. -/
namespace DataBinding

namespace Operand

mutual

/-- The temporaries in an operand. -/
def temps : Operand → List Nat
  | .literal _ => []
  | .temp id => [id]
  | .context => []
  | .locals => []
  | .array elements => elementTemps elements
  | .object entries => entryTemps entries

def elementTemps : List Operand → List Nat
  | [] => []
  | element :: rest => temps element ++ elementTemps rest

def entryTemps : List (String × Operand) → List Nat
  | [] => []
  | (_, value) :: rest => temps value ++ entryTemps rest

end

end Operand

def Test.temps : Test → List Nat
  | .localsHave _ => []
  | .contextInstead _ => []
  | .truthy operand => operand.temps

def Read.temps : Read → List Nat
  | .member object _ => object.temps
  | .computed object key => object.temps ++ key.temps

/-- The temporaries that a statement may read. -/
def Statement.temps (statement : Statement) : List Nat :=
  statement.test.temps ++ statement.read.temps

/-- Statements whose tests never both hold, whatever the temporaries hold at each test. -/
def Statement.Exclusive (one other : Statement) : Prop :=
  ∀ arguments heap temps temps', (one.test.holds arguments temps heap).1 = true →
    (other.test.holds arguments temps' heap).1 = false

/-- The statements that give one temporary its value: the two of a name, or the one of a member. -/
inductive Assignment (id : Nat) : List Statement → Prop where
  | name (name : String) : Assignment id (lookupStatements id name)
  | fixed (object : Operand) (name : String) :
      Assignment id [⟨.truthy object, id, .member object name⟩]
  | computed (object key : Operand) :
      Assignment id [⟨.truthy object, id, .computed object key⟩]

/-- A program that uses its temporaries well, of which there are `count`. -/
structure Program.WellFormed (program : Program) (count : Nat) : Prop where
  vars : program.vars = List.range count
  targets : ∀ statement ∈ program.body, statement.target < count
  temps : ∀ statement ∈ program.body, ∀ id ∈ statement.temps, id < count
  resultTemps : ∀ id ∈ program.result.temps, id < count
  /-- What a statement may read is the target of one before it, and of none from it on. -/
  reads : ∀ before statement after, program.body = before ++ statement :: after →
    ∀ id ∈ statement.temps, (∃ earlier ∈ before, earlier.target = id) ∧
      ∀ later ∈ statement :: after, later.target ≠ id
  result : ∀ id ∈ program.result.temps, ∃ statement ∈ program.body, statement.target = id
  /-- The statements with one target stand together, and their tests never both hold. -/
  assigned : ∀ id < count, ∃ before own after, program.body = before ++ own ++ after ∧
    Assignment id own ∧ own.Pairwise Statement.Exclusive ∧
    ∀ other ∈ before ++ after, other.target ≠ id

namespace Expression

mutual

/-- The parts of an expression that have a value, itself included. A fixed member name has none. -/
def nodes : Expression → List Expression
  | .program body => .program body :: nodes body
  | .literal value => [.literal value]
  | .array elements => .array elements :: elementNodes elements
  | .object properties => .object properties :: propertyNodes properties
  | .identifier name => [.identifier name]
  | .this => [.this]
  | .locals => [.locals]
  | .member holder property computed =>
    .member holder property computed :: (nodes holder ++
      match property, computed with
      | .identifier _, false => []
      | key, _ => nodes key)

def elementNodes : List Expression → List Expression
  | [] => []
  | element :: rest => nodes element ++ elementNodes rest

def propertyNodes : List (String × Expression) → List Expression
  | [] => []
  | (_, value) :: rest => nodes value ++ propertyNodes rest

end

def isLookup : Expression → Bool
  | .identifier _ => true
  | _ => false

def isMember : Expression → Bool
  | .member .. => true
  | _ => false

/-- How many names are looked up. -/
def lookups (e : Expression) : Nat := e.nodes.countP isLookup

/-- How many members are read. -/
def memberReads (e : Expression) : Nat := e.nodes.countP isMember

end Expression
end DataBinding
