import DataBinding.Expression.Basic

/-! Programs of guarded reads: straight lines of statements over numbered temporaries, each
reading one property if its test holds. A link that is missing leaves its temporary
undefined, and an undefined temporary fails the next test. -/
namespace DataBinding

/-- A value that is at hand or built without reading. -/
inductive Operand where
  | literal (value : Literal)
  | temp (id : Nat)
  | context
  | locals
  | array (elements : List Operand)
  | object (entries : List (String × Operand))

instance : Inhabited Operand := ⟨.context⟩

inductive Test where
  /-- The locals are there and have the name. -/
  | localsHave (name : String)
  /-- The locals do not have the name and the context is there. -/
  | contextInstead (name : String)
  | truthy (operand : Operand)

inductive Read where
  | member (object : Operand) (name : String)
  | computed (object key : Operand)

structure Statement where
  test : Test
  target : Nat
  read : Read

structure Program where
  vars : List Nat
  body : List Statement
  result : Operand

instance : Inhabited Program := ⟨⟨[], [], .context⟩⟩

/-- How many temporaries a program has. -/
def Program.tempCount (program : Program) : Nat := program.vars.length

end DataBinding
