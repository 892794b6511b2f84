import DataBinding.Text.Quoted

/-! Bracketed outlines for inspection, on one line or indented with one item per line. -/
namespace DataBinding.Text

/-- A word, or brackets around items that each follow a label. -/
inductive Outline where
  | word (text : List Char)
  | group (opening closing : String) (items : List (List Char × Outline))

namespace Outline

instance : Inhabited Outline := ⟨.word []⟩

/-- A name with one argument in parentheses. -/
def call (name : String) (argument : Outline) : Outline :=
  .group (name ++ "(") ")" [([], argument)]

/-- A named record with named fields. -/
def record (name : String) (fields : List (String × Outline)) : Outline :=
  .group (name ++ " \x7b ") " \x7d" (fields.map fun field => ((field.1 ++ ": ").toList, field.2))

mutual

def inline : Outline → List Char
  | .word text => text
  | .group opening closing items => opening.toList ++ inlineItems items ++ closing.toList

def inlineItems : List (List Char × Outline) → List Char
  | [] => []
  | [(label, item)] => label ++ inline item
  | (label, item) :: rest => label ++ inline item ++ ',' :: ' ' :: inlineItems rest

end

mutual

/-- The indented form, its later lines starting with `margin`. -/
def indented (margin : List Char) : Outline → List Char
  | .word text => text
  | .group opening closing [] => opening.toList ++ closing.toList
  | .group opening closing items =>
    opening.toList ++ indentedItems (margin ++ [' ', ' ', ' ', ' ']) items ++
      '\n' :: (margin ++ closing.toList)

def indentedItems (margin : List Char) : List (List Char × Outline) → List Char
  | [] => []
  | (label, item) :: rest =>
    '\n' :: (margin ++ label ++ indented margin item ++ ',' :: indentedItems margin rest)

end

end Outline
end DataBinding.Text
