import DataBinding.Number.Layout
import DataBinding.Token.Basic

/-! Binding expressions. -/
namespace DataBinding

inductive Literal where
  | null
  | bool (b : Bool)
  | number (n : Number)
  | string (s : String)
  deriving DecidableEq

def Constant.literal : Constant → Literal
  | .number n => .number n
  | .string s => .string s

/-- A constant as a property key; a number has its canonical text. -/
def Constant.key : Constant → String
  | .number n => n.key
  | .string s => s

inductive Expression where
  /-- A whole program. -/
  | program (body : Expression)
  | literal (value : Literal)
  | array (elements : List Expression)
  | object (properties : List (String × Expression))
  | identifier (name : String)
  | this
  | locals
  /-- A property of an object. `computed` tells the bracket form from the form with a dot. -/
  | member (object property : Expression) (computed : Bool)

instance : Inhabited Expression := ⟨.literal .null⟩

/-- Names with a meaning of their own where an expression starts. -/
def Expression.keyword? (text : String) : Option Expression :=
  if text = "null" then some (.literal .null)
  else if text = "true" then some (.literal (.bool true))
  else if text = "false" then some (.literal (.bool false))
  else if text = "this" then some .this
  else if text = "$locals" then some .locals
  else none

end DataBinding
