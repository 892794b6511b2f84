import DataBinding.Expression.Basic

/-! The grammar of binding expressions, on tokens:

    program := primary
    primary := ( '[' array ']' | '{' object '}' | keyword | identifier | constant )
               ( '.' identifier | '[' primary ']' )*
    array   := ( primary ( ',' primary )* ','? )?
    object  := ( key ':' primary ( ',' key ':' primary )* ','? )?
    key     := identifier | constant
    keyword := 'null' | 'true' | 'false' | 'this' | '$locals'

A derivation is a tree with one constructor for each alternative. It has the tokens that it
derives and the expression that it stands for. After a dot and as a key any name is an
identifier; where a primary starts, a keyword is not. -/
namespace DataBinding.Grammar

inductive Keyword where
  | null
  | true
  | false
  | this
  | locals
  deriving DecidableEq

def Keyword.text : Keyword → String
  | .null => "null"
  | .true => "true"
  | .false => "false"
  | .this => "this"
  | .locals => "$locals"

def Keyword.tree : Keyword → Expression
  | .null => .literal .null
  | .true => .literal (.bool Bool.true)
  | .false => .literal (.bool Bool.false)
  | .this => .this
  | .locals => .locals

/-- A name that is no keyword. -/
structure Identifier where
  text : String
  plain : ∀ keyword : Keyword, keyword.text ≠ text

/-- The token of a name. -/
def name (text : String) : Token := ⟨text, none, .true⟩

/-- The token of a number or a string, as it is written and as it is read. -/
def constant (text : String) (value : Constant) : Token := ⟨text, some value, .false⟩

inductive Key where
  | name (text : String)
  | constant (text : String) (value : Constant)

def Key.token : Key → Token
  | .name text => Grammar.name text
  | .constant text value => Grammar.constant text value

/-- The property named, a number by its canonical text. -/
def Key.property : Key → String
  | .name text => text
  | .constant _ (.number n) => n.key
  | .constant _ (.string s) => s

mutual

inductive Primary where
  | mk (head : Head) (suffixes : Suffixes)

inductive Head where
  | array (elements : Elements)
  | object (entries : Entries)
  | keyword (keyword : Keyword)
  | identifier (identifier : Identifier)
  | constant (text : String) (value : Constant)

inductive Suffixes where
  | done
  | name (text : String) (rest : Suffixes)
  | index (property : Primary) (rest : Suffixes)

inductive Elements where
  | none
  | some (first : Primary) (rest : MoreElements)

/-- What follows an element: more elements after commas, or the end, where one more comma
may stand. -/
inductive MoreElements where
  | done
  | comma
  | more (next : Primary) (rest : MoreElements)

inductive Entries where
  | none
  | some (key : Key) (value : Primary) (rest : MoreEntries)

inductive MoreEntries where
  | done
  | comma
  | more (key : Key) (value : Primary) (rest : MoreEntries)

end

open Token (punctuation)

mutual

def Primary.tokens : Primary → List Token
  | .mk head suffixes => head.tokens ++ suffixes.tokens

def Head.tokens : Head → List Token
  | .array elements => punctuation '[' :: (elements.tokens ++ [punctuation ']'])
  | .object entries => punctuation '\x7b' :: (entries.tokens ++ [punctuation '\x7d'])
  | .keyword keyword => [name keyword.text]
  | .identifier identifier => [name identifier.text]
  | .constant text value => [constant text value]

def Suffixes.tokens : Suffixes → List Token
  | .done => []
  | .name text rest => punctuation '.' :: name text :: rest.tokens
  | .index property rest =>
    punctuation '[' :: (property.tokens ++ punctuation ']' :: rest.tokens)

def Elements.tokens : Elements → List Token
  | .none => []
  | .some first rest => first.tokens ++ rest.tokens

def MoreElements.tokens : MoreElements → List Token
  | .done => []
  | .comma => [punctuation ',']
  | .more next rest => punctuation ',' :: (next.tokens ++ rest.tokens)

def Entries.tokens : Entries → List Token
  | .none => []
  | .some key value rest => key.token :: punctuation ':' :: (value.tokens ++ rest.tokens)

def MoreEntries.tokens : MoreEntries → List Token
  | .done => []
  | .comma => [punctuation ',']
  | .more key value rest =>
    punctuation ',' :: key.token :: punctuation ':' :: (value.tokens ++ rest.tokens)

end

mutual

def Primary.tree : Primary → Expression
  | .mk head suffixes => suffixes.onto head.tree

def Head.tree : Head → Expression
  | .array elements => .array elements.trees
  | .object entries => .object entries.trees
  | .keyword keyword => keyword.tree
  | .identifier identifier => .identifier identifier.text
  | .constant _ (.number n) => .literal (.number n)
  | .constant _ (.string s) => .literal (.string s)

/-- The suffixes taken of `holder`, the first one innermost. -/
def Suffixes.onto (holder : Expression) : Suffixes → Expression
  | .done => holder
  | .name text rest => rest.onto (.member holder (.identifier text) .false)
  | .index property rest => rest.onto (.member holder property.tree .true)

def Elements.trees : Elements → List Expression
  | .none => []
  | .some first rest => first.tree :: rest.trees

def MoreElements.trees : MoreElements → List Expression
  | .done => []
  | .comma => []
  | .more next rest => next.tree :: rest.trees

def Entries.trees : Entries → List (String × Expression)
  | .none => []
  | .some key value rest => (key.property, value.tree) :: rest.trees

def MoreEntries.trees : MoreEntries → List (String × Expression)
  | .done => []
  | .comma => []
  | .more key value rest => (key.property, value.tree) :: rest.trees

end

/-- The tokens are a program, and this is its syntax tree. -/
def Derives (tokens : List Token) (program : Expression) : Prop :=
  ∃ derivation : Primary, derivation.tokens = tokens ∧ program = .program derivation.tree

end DataBinding.Grammar
