import DataBinding.Program.Basic

/-! The program of an expression. Temporaries are numbered in the order in which names and
members are met; the number of a member comes after those of its object and before those
of its computed key. -/
namespace DataBinding

/-- The part of a program that has been generated, with the temporaries handed out for it, and
the next free one. -/
structure Generated (α : Type) where
  operand : α
  vars : List Nat
  body : List Statement
  next : Nat

/-- A name is read from the locals if they have it, else from the context. -/
def lookupStatements (id : Nat) (name : String) : List Statement :=
  [⟨.localsHave name, id, .member .locals name⟩,
    ⟨.contextInstead name, id, .member .context name⟩]

/-- A property with a fixed name. -/
def Expression.fixedName? (property : Expression) (computed : Bool) : Option String :=
  match property, computed with
  | .identifier name, false => some name
  | _, _ => none

namespace Expression

mutual

def generateFrom (next : Nat) : Expression → Generated Operand
  | .program body => generateFrom next body
  | .literal value => ⟨.literal value, [], [], next⟩
  | .array elements =>
    let parts := generateElements next elements
    ⟨.array parts.operand, parts.vars, parts.body, parts.next⟩
  | .object properties =>
    let parts := generateProperties next properties
    ⟨.object parts.operand, parts.vars, parts.body, parts.next⟩
  | .identifier name => ⟨.temp next, [next], lookupStatements next name, next + 1⟩
  | .this => ⟨.context, [], [], next⟩
  | .locals => ⟨.locals, [], [], next⟩
  | .member holder property computed =>
    let left := generateFrom next holder
    let id := left.next
    match fixedName? property computed with
    | some name =>
      ⟨.temp id, left.vars ++ [id],
        left.body ++ [⟨.truthy left.operand, id, .member left.operand name⟩], id + 1⟩
    | none =>
      let key := generateFrom (id + 1) property
      ⟨.temp id, left.vars ++ id :: key.vars,
        left.body ++ key.body ++
          [⟨.truthy left.operand, id, .computed left.operand key.operand⟩], key.next⟩

def generateElements (next : Nat) : List Expression → Generated (List Operand)
  | [] => ⟨[], [], [], next⟩
  | element :: rest =>
    let first := generateFrom next element
    let others := generateElements first.next rest
    ⟨first.operand :: others.operand, first.vars ++ others.vars, first.body ++ others.body,
      others.next⟩

def generateProperties (next : Nat) :
    List (String × Expression) → Generated (List (String × Operand))
  | [] => ⟨[], [], [], next⟩
  | (key, value) :: rest =>
    let first := generateFrom next value
    let others := generateProperties first.next rest
    ⟨(key, first.operand) :: others.operand, first.vars ++ others.vars,
      first.body ++ others.body, others.next⟩

end

end Expression

/-- The program that computes an expression. -/
def Program.ofExpression (expression : Expression) : Program :=
  let whole := expression.generateFrom 0
  ⟨whole.vars, whole.body, whole.operand⟩

end DataBinding
