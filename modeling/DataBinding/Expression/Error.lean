import DataBinding.Token.Error

/-! Why a text is no binding expression. -/
namespace DataBinding

/-- What could stand where the parser stopped. -/
inductive Wanted where
  | expression
  | propertyKey
  | identifier
  | colon
  | closingBracket
  | closingBrace
  | endOfInput
  deriving DecidableEq

inductive ParseError where
  | expected (wanted : Wanted) (found : String)
  | unexpectedEnd (wanted : Wanted)
  deriving DecidableEq

inductive CompileError where
  | lex (error : LexError)
  | parse (error : ParseError)
  deriving DecidableEq

def Wanted.text : Wanted → String
  | .expression => "expression"
  | .propertyKey => "property key"
  | .identifier => "identifier"
  | .colon => ":"
  | .closingBracket => "]"
  | .closingBrace => "\x7d"
  | .endOfInput => "end of input"

def ParseError.wanted : ParseError → Wanted
  | .expected wanted _ => wanted
  | .unexpectedEnd wanted => wanted

def ParseError.message : ParseError → String
  | .expected wanted found => "unexpected '" ++ found ++ "', expecting: " ++ wanted.text
  | .unexpectedEnd wanted => "unexpected end of input, expecting: " ++ wanted.text

def CompileError.message : CompileError → String
  | .lex error => error.message
  | .parse error => error.message

end DataBinding
