import DataBinding.Expression.Reading
import DataBinding.Program.Generation
import DataBinding.Program.Run
import DataBinding.Program.Text
import DataBinding.Text.Outline

/-! Accessors: programs that can be called, with the text they were compiled from. -/
namespace DataBinding

/-- A program with the text that it was compiled from, if there is one. -/
structure Accessor where
  source : Option String
  program : Program

namespace Accessor

instance : Inhabited Accessor := ⟨⟨none, default⟩⟩

/-- Compiles a text. -/
def ofText (text : String) : Except CompileError Accessor := do
  let expression ← Expression.ofText text
  return ⟨some text, Program.ofExpression expression⟩

def run (accessor : Accessor) (arguments : Arguments) (heap : Heap) : Value × Heap :=
  accessor.program.run arguments heap

open Text (Outline)

def debugText (accessor : Accessor) : String :=
  let source := match accessor.source with
    | some text => Outline.call "Some" (.word (Text.debug text.toList))
    | none => .word "None".toList
  String.ofList (Outline.record "Accessor"
    [("source", source), ("program", .word (Text.debug accessor.program.chars))]).inline

end Accessor
end DataBinding
