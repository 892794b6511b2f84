import DataBinding.Json.Reader
import DataBinding.Text.Outline

/-! The configuration of a scope and its JSON form. -/
namespace DataBinding

structure Config where
  /-- How many passes a digest may take. -/
  ttl : Nat
  deriving DecidableEq

namespace Config

def default : Config := ⟨10⟩

instance : Inhabited Config := ⟨default⟩

def toJson (config : Config) : Json := .object [("ttl", .integer config.ttl)]

def outline (config : Config) : Text.Outline :=
  .record "ScopeConfig" [("ttl", .word (Nat.toDigits 10 config.ttl))]

/-- A limit is a whole number that is not negative. -/
def ttl? : Json → Option Nat
  | .integer n => if 0 ≤ n then some n.toNat else none
  | _ => none

/-- What an unpaired surrogate reads as in a part that is passed over. -/
def ignored : Option Char := some (Char.ofNat 0xFFFD)

/-- The members after an opening brace or a comma, `ttl` being what they gave so far. A
second `ttl` is refused, any other name is passed over. -/
def members? : Nat → Option Nat → List Char → Option (Config × List Char)
  | 0, _, _ => none
  | fuel + 1, ttl, cs => do
    let (key, rest) ← Json.key? none cs
    let (value, rest) ← Json.take? ignored rest
    let ttl ←
      if key = "ttl" then
        if ttl.isSome then none else (ttl? value).map some
      else some ttl
    match Json.skipBlanks rest with
    | ',' :: rest => members? fuel ttl rest
    | '\x7d' :: rest => some (⟨ttl.getD default.ttl⟩, rest)
    | _ => none

/-- The fields in order instead of by name, after an opening bracket. -/
def positional? (cs : List Char) : Option (Config × List Char) :=
  match Json.skipBlanks cs with
  | ']' :: rest => some (default, rest)
  | cs => do
    let (value, rest) ← Json.take? ignored cs
    let ttl ← ttl? value
    match Json.skipBlanks rest with
    | ']' :: rest => some (⟨ttl⟩, rest)
    | _ => none

/-- The configuration written by a text; what it leaves out is taken from the default. -/
def ofText? (text : String) : Option Config := do
  let cs := text.toList
  let (config, rest) ←
    match Json.skipBlanks cs with
    | '\x7b' :: rest =>
      match Json.skipBlanks rest with
      | '\x7d' :: rest => some (default, rest)
      | rest => members? cs.length none rest
    | '[' :: rest => positional? rest
    | _ => none
  if (Json.skipBlanks rest).isEmpty then some config else none

end Config
end DataBinding
