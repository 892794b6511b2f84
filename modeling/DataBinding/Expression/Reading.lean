import DataBinding.Expression.Basic
import DataBinding.Expression.Error
import DataBinding.Token.Scan

/-! Reading tokens as an expression, one token at a time. The reader keeps a stack of the
brackets that are open, the innermost first, each with what has been read inside it, and
knows what may come next. It refuses the first token that cannot. -/
namespace DataBinding.Expression.Reader

/-- An open bracket. Items already read are kept in reverse. -/
inductive Frame where
  | array (read : List Expression)
  /-- An object whose entry under `key` is being read. -/
  | object (read : List (String × Expression)) (key : String)
  /-- A property of `holder` in brackets. -/
  | property (holder : Expression)

/-- What may come next. -/
inductive Mode where
  /-- An expression, or the end of an array that is open here. -/
  | start
  /-- A key or the end of an object whose entries so far are given in reverse. -/
  | key (read : List (String × Expression))
  | colon (read : List (String × Expression)) (key : String)
  /-- The name after a dot. -/
  | name (holder : Expression)
  /-- An expression has been read: a property of it, or what ends it. -/
  | after (read : Expression)

structure State where
  mode : Mode
  stack : List Frame

def initial : State := ⟨.start, []⟩

/-- A token where an expression starts. -/
def startStep (stack : List Frame) (token : Token) : Except ParseError State :=
  if token.text = "[" then .ok ⟨.start, .array [] :: stack⟩
  else if token.text = "\x7b" then .ok ⟨.key [], stack⟩
  else
    match Expression.keyword? token.text with
    | some keyword => .ok ⟨.after keyword, stack⟩
    | none =>
      if token.identifier then .ok ⟨.after (.identifier token.text), stack⟩
      else
        match token.value with
        | some constant => .ok ⟨.after (.literal constant.literal), stack⟩
        | none => .error (.expected .expression token.text)

/-- A token after an expression that takes no property of it. -/
def endStep (read : Expression) (stack : List Frame) (token : Token) : Except ParseError State :=
  match stack with
  | [] => .error (.expected .endOfInput token.text)
  | .array items :: stack =>
    if token.text = "," then .ok ⟨.start, .array (read :: items) :: stack⟩
    else if token.text = "]" then .ok ⟨.after (.array (read :: items).reverse), stack⟩
    else .error (.expected .closingBracket token.text)
  | .object entries key :: stack =>
    if token.text = "," then .ok ⟨.key ((key, read) :: entries), stack⟩
    else if token.text = "\x7d" then
      .ok ⟨.after (.object ((key, read) :: entries).reverse), stack⟩
    else .error (.expected .closingBrace token.text)
  | .property holder :: stack =>
    if token.text = "]" then .ok ⟨.after (.member holder read true), stack⟩
    else .error (.expected .closingBracket token.text)

def step (state : State) (token : Token) : Except ParseError State :=
  match state.mode with
  | .start =>
    match state.stack with
    | .array items :: stack =>
      if token.text = "]" then .ok ⟨.after (.array items.reverse), stack⟩
      else startStep state.stack token
    | stack => startStep stack token
  | .key entries =>
    if token.text = "\x7d" then .ok ⟨.after (.object entries.reverse), state.stack⟩
    else if token.identifier then .ok ⟨.colon entries token.text, state.stack⟩
    else
      match token.value with
      | some constant => .ok ⟨.colon entries constant.key, state.stack⟩
      | none => .error (.expected .propertyKey token.text)
  | .colon entries key =>
    if token.text = ":" then .ok ⟨.start, .object entries key :: state.stack⟩
    else .error (.expected .colon token.text)
  | .name holder =>
    if token.identifier then
      .ok ⟨.after (.member holder (.identifier token.text) false), state.stack⟩
    else .error (.expected .identifier token.text)
  | .after read =>
    if token.text = "." then .ok ⟨.name read, state.stack⟩
    else if token.text = "[" then .ok ⟨.start, .property read :: state.stack⟩
    else endStep read state.stack token

/-- The expression read, if the tokens may end here. -/
def finish (state : State) : Except ParseError Expression :=
  match state.mode with
  | .start => .error (.unexpectedEnd .expression)
  | .key _ => .error (.unexpectedEnd .propertyKey)
  | .colon .. => .error (.unexpectedEnd .colon)
  | .name _ => .error (.unexpectedEnd .identifier)
  | .after read =>
    match state.stack with
    | [] => .ok (.program read)
    | .array _ :: _ => .error (.unexpectedEnd .closingBracket)
    | .object .. :: _ => .error (.unexpectedEnd .closingBrace)
    | .property _ :: _ => .error (.unexpectedEnd .closingBracket)

end DataBinding.Expression.Reader

namespace DataBinding.Expression

/-- The program that a list of tokens is. -/
def ofTokens (tokens : List Token) : Except ParseError Expression := do
  let state ← tokens.foldlM Reader.step Reader.initial
  Reader.finish state

/-- The program that a text is. -/
def ofText (text : String) : Except CompileError Expression :=
  match Token.scan text with
  | .error fault => .error (.lex fault)
  | .ok tokens => (ofTokens tokens).mapError .parse

end DataBinding.Expression
