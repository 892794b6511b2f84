import DataBinding.Text.Units
import DataBinding.Token.Basic

/-! The lexical grammar: what the tokens of a text are, with no word on how they are found.
A lexeme is the text of one token as it is written. Classes of characters and the meanings of
escapes are listed here, apart from the tests of a scanner. -/
namespace DataBinding.Token

/-- A blank: also a vertical tab, and a space that does not break. -/
def Blank (c : Char) : Prop := c ∈ [' ', '\r', '\t', '\n', '\x0b', '\u00a0']

def Quote (c : Char) : Prop := c ∈ ['\x27', '\x22']

def Punctuation (c : Char) : Prop := c ∈ ['[', ']', '\x7b', '\x7d', ':', ',', '.']

def NameStart (c : Char) : Prop := c.isAlpha ∨ c = '_' ∨ c = '$'

def NamePart (c : Char) : Prop := NameStart c ∨ c.isDigit

/-- One or more decimal digits. -/
def Digits (cs : List Char) : Prop := cs ≠ [] ∧ ∀ c ∈ cs, c.isDigit

/-- A number up to its exponent. A point needs a digit after it, and none before it. -/
inductive Mantissa : List Char → Prop
  | whole {ds} : Digits ds → Mantissa ds
  | both {ds fs} : Digits ds → Digits fs → Mantissa (ds ++ '.' :: fs)
  | fraction {fs} : Digits fs → Mantissa ('.' :: fs)

def isExponentMark (c : Char) : Bool := c == 'e' || c == 'E'

inductive Exponent : List Char → Prop
  | plain {mark ds} : isExponentMark mark → Digits ds → Exponent (mark :: ds)
  | signed {mark sign ds} : isExponentMark mark → sign = '+' ∨ sign = '-' → Digits ds →
      Exponent (mark :: sign :: ds)

inductive IsNumber : List Char → Prop
  | mantissa {cs} : Mantissa cs → IsNumber cs
  | exponent {cs es} : Mantissa cs → Exponent es → IsNumber (cs ++ es)

/-- A hexadecimal digit and its value. -/
def HexDigit (c : Char) (value : Nat) : Prop :=
  "0123456789abcdef".toList[value]? = some c ∨ "0123456789ABCDEF".toList[value]? = some c

instance (c : Char) (value : Nat) : Decidable (HexDigit c value) :=
  inferInstanceAs (Decidable (_ ∨ _))

/-- Four hexadecimal digits and the UTF-16 unit that they write. -/
inductive HexUnit : List Char → Nat → Prop
  | digits {a b c d : Char} {x y z w : Nat} :
      HexDigit a x → HexDigit b y → HexDigit c z → HexDigit d w →
      HexUnit [a, b, c, d] (4096 * x + 256 * y + 16 * z + w)

/-- What is written after a backslash and `u` for a character: its UTF-16 unit, or a high
surrogate and an escaped low one. A surrogate by itself stands for no character. -/
inductive UnicodeEscape (c : Char) : List Char → Prop
  | unit {hex u} : HexUnit hex u → Text.units16 c = [u] → UnicodeEscape c hex
  | pair {hex hex' high low} : HexUnit hex high → HexUnit hex' low →
      Text.units16 c = [high, low] → UnicodeEscape c (hex ++ '\\' :: 'u' :: hex')

/-- A character after a backslash and the one that is read for it. Those with no meaning of their
own are read as themselves; `u` starts an escape of another form. -/
inductive Escape : Char → Char → Prop
  | newline : Escape 'n' '\n'
  | formFeed : Escape 'f' '\x0c'
  | carriageReturn : Escape 'r' '\r'
  | tab : Escape 't' '\t'
  | verticalTab : Escape 'v' '\x0b'
  | itself {c} : c ∉ ['n', 'f', 'r', 't', 'v', 'u'] → Escape c c

/-- What stands between two quotes, as it is written and as it is read. -/
inductive StringBody (quote : Char) : List Char → List Char → Prop
  | done : StringBody quote [] []
  | plain {c written read} : c ≠ quote → c ≠ '\\' → StringBody quote written read →
      StringBody quote (c :: written) (c :: read)
  | escaped {c d written read} : Escape c d → StringBody quote written read →
      StringBody quote ('\\' :: c :: written) (d :: read)
  | unicode {c escape written read} : UnicodeEscape c escape → StringBody quote written read →
      StringBody quote ('\\' :: 'u' :: (escape ++ written)) (c :: read)

/-- A lexeme and its token. The text of a number has a small `e`, and its value is what that
text reads as. -/
inductive Lexeme : List Char → Token → Prop
  | number {cs n} : IsNumber cs → Number.ofDecimalText? (cs.map Char.toLower) = some n →
      Lexeme cs ⟨String.ofList (cs.map Char.toLower), some (.number n), false⟩
  | string {quote written read} : Quote quote → StringBody quote written read →
      Lexeme (quote :: (written ++ [quote]))
        ⟨String.ofList (quote :: (written ++ [quote])), some (.string (String.ofList read)), false⟩
  | punctuation {c} : Punctuation c → Lexeme [c] ⟨String.singleton c, none, false⟩
  | name {c cs} : NameStart c → (∀ d ∈ cs, NamePart d) →
      Lexeme (c :: cs) ⟨String.ofList (c :: cs), none, true⟩

/-- No lexeme at the start of `cs ++ rest` is longer than `cs`. -/
def Longest (cs rest : List Char) : Prop :=
  ∀ candidate token, Lexeme candidate token → candidate <+: cs ++ rest →
    candidate.length ≤ cs.length

/-- A number that has no exponent, with the mark of one right after it. -/
def DanglingMark (cs rest : List Char) : Prop := Mantissa cs ∧ rest.head?.any isExponentMark

/-- A text as blanks and longest lexemes from left to right, and the tokens of the lexemes. -/
inductive Lexes : List Char → List Token → Prop
  | done : Lexes [] []
  | blank {c rest tokens} : Blank c → Lexes rest tokens → Lexes (c :: rest) tokens
  | lexeme {cs rest token tokens} : Lexeme cs token → Longest cs rest → ¬ DanglingMark cs rest →
      Lexes rest tokens → Lexes (cs ++ rest) (token :: tokens)

end DataBinding.Token
