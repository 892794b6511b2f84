import DataBinding.Program.Basic
import DataBinding.Text.Quoted

/-! The text of a program: one line of guarded assignments, with `s` for the context, `l` for
the locals and `v0`, `v1`, … for the temporaries. -/
namespace DataBinding

def Literal.chars : Literal → List Char
  | .null => "null".toList
  | .bool true => "true".toList
  | .bool false => "false".toList
  | .number n => keyLayout.chars n
  | .string s => Text.literal s.toList

/-- Keys of this shape are written without quotes. -/
def isPlainName (key : List Char) : Bool :=
  match key with
  | [] => false
  | first :: rest =>
    (first.isAlpha || first == '_' || first == '$') &&
      rest.all fun c => c.isAlphanum || c == '_' || c == '$'

def tempChars (id : Nat) : List Char := 'v' :: Nat.toDigits 10 id

def keyChars (key : String) : List Char :=
  if isPlainName key.toList then key.toList else Text.literal key.toList

namespace Operand

mutual

def chars : Operand → List Char
  | .literal value => value.chars
  | .temp id => tempChars id
  | .context => ['s']
  | .locals => ['l']
  | .array elements => '[' :: (elementsChars elements ++ [']'])
  | .object entries => '\x7b' :: (entriesChars entries ++ ['\x7d'])

def elementsChars : List Operand → List Char
  | [] => []
  | [element] => chars element
  | element :: rest => chars element ++ ',' :: elementsChars rest

def entriesChars : List (String × Operand) → List Char
  | [] => []
  | [(key, value)] => keyChars key ++ ':' :: chars value
  | (key, value) :: rest => keyChars key ++ ':' :: (chars value ++ ',' :: entriesChars rest)

end

end Operand

def Test.chars : Test → List Char
  | .localsHave name => "l&&(".toList ++ Text.literal name.toList ++ " in l)".toList
  | .contextInstead name => "!(l&&(".toList ++ Text.literal name.toList ++ " in l))&&s".toList
  | .truthy operand => operand.chars

def Read.chars : Read → List Char
  | .member object name => '(' :: (object.chars ++ ')' :: '.' :: name.toList)
  | .computed object key => '(' :: (object.chars ++ ')' :: '[' :: (key.chars ++ [']']))

def Statement.chars (statement : Statement) : List Char :=
  "if(".toList ++ statement.test.chars ++ ")\x7b".toList ++ tempChars statement.target ++
    '=' :: (statement.read.chars ++ ";\x7d".toList)

def Program.varsChars : List Nat → List Char
  | [] => []
  | vars => "var ".toList ++ List.intercalate [','] (vars.map tempChars) ++ [';']

/-- The text of a program, on one line. -/
def Program.chars (program : Program) : List Char :=
  varsChars program.vars ++ program.body.flatMap Statement.chars ++
    "return ".toList ++ program.result.chars ++ [';']

def Program.text (program : Program) : String := String.ofList program.chars

end DataBinding
