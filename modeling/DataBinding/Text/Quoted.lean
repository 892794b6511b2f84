import DataBinding.Text.Units
import DataBinding.Text.Visible

/-! Quoted texts. `literal` writes a string constant for program text in plain letters,
digits, spaces and escaped UTF-16 units only; `debug` writes a text for inspection. -/
namespace DataBinding.Text

/-- Letters, digits and the space stand for themselves in a literal. -/
def isPlain (c : Char) : Bool := c == ' ' || c.isAlphanum

def literalChar (c : Char) : List Char :=
  if isPlain c then [c] else (units16 c).flatMap fun unit => '\\' :: 'u' :: hex 4 unit

/-- A string constant in single quotes. -/
def literal (text : List Char) : List Char :=
  '\x27' :: (text.flatMap literalChar ++ ['\x27'])

def debugChar (c : Char) : List Char :=
  if c = '\x22' then ['\\', '\x22']
  else if c = '\\' then ['\\', '\\']
  else if c = '\n' then ['\\', 'n']
  else if c = '\r' then ['\\', 'r']
  else if c = '\t' then ['\\', 't']
  else if c.toNat = 0 then ['\\', '0']
  else if isVisible c then [c]
  else '\\' :: 'u' :: '\x7b' :: (hex 1 c.toNat ++ ['\x7d'])

/-- A text in double quotes, for inspection. -/
def debug (text : List Char) : List Char :=
  '\x22' :: (text.flatMap debugChar ++ ['\x22'])

end DataBinding.Text
