import DataBinding.Proofs.Lockstep
import DataBinding.Program.Accessor

/-! Programs on alike heaps. A program reads what its arguments reach and adds containers,
so it grows its heap, and run on alike arguments it gives alike values. -/
namespace DataBinding

variable {ρ : Pairing} {l r : Heap}

/-- Arguments that are given alike. -/
structure Arguments.Alike (ρ : Pairing) (left right : Arguments) : Prop where
  context : Option.Rel (Value.Alike ρ) left.context right.context
  locals : Option.Rel (Value.Alike ρ) left.locals right.locals

namespace Arguments.Alike

variable {ρ' : Pairing} {left right : Arguments}

theorem mono (larger : ρ ≤ ρ') (alike : left.Alike ρ right) : left.Alike ρ' right :=
  ⟨alike.context.imp fun _ _ => .mono larger, alike.locals.imp fun _ _ => .mono larger⟩

theorem contextPresent_eq (alike : left.Alike ρ right) :
    left.contextPresent = right.contextPresent := by
  have given := alike.context
  unfold contextPresent
  generalize left.context = v at given
  generalize right.context = w at given
  cases given with
  | some values => exact values.isTruthy_eq
  | none => rfl

theorem localsHave_eq (alike : left.Alike ρ right) (heaps : Heap.Alike ρ l r) (name : String) :
    left.localsHave l name = right.localsHave r name := by
  have given := alike.locals
  unfold localsHave
  generalize left.locals = v at given
  generalize right.locals = w at given
  cases given with
  | some values => simp only [Option.any_some, values.isTruthy_eq, heaps.hasKey_eq values]
  | none => rfl

end Arguments.Alike

namespace Operand

mutual

theorem grows_load (arguments : Arguments) (temps : List Value) (heap : Heap) (operand : Operand) :
    heap.Grows (operand.load arguments temps heap).2 := by
  cases operand with
  | array elements =>
    simp only [load]
    exact (grows_loadElements arguments temps heap elements).trans (Heap.grows_alloc _ _)
  | object entries =>
    simp only [load]
    exact (grows_loadEntries arguments temps heap entries).trans (Heap.grows_alloc _ _)
  | _ => exact .refl _ _

theorem grows_loadElements (arguments : Arguments) (temps : List Value) (heap : Heap)
    (elements : List Operand) : heap.Grows (loadElements arguments temps heap elements).2 := by
  cases elements with
  | nil => exact .refl _ _
  | cons element rest =>
    simp only [loadElements]
    exact (grows_load arguments temps heap element).trans
      (grows_loadElements arguments temps _ rest)

theorem grows_loadEntries (arguments : Arguments) (temps : List Value) (heap : Heap)
    (entries : List (String × Operand)) : heap.Grows (loadEntries arguments temps heap entries).2 := by
  cases entries with
  | nil => exact .refl _ _
  | cons entry rest =>
    obtain ⟨key, value⟩ := entry
    simp only [loadEntries]
    exact (grows_load arguments temps heap value).trans (grows_loadEntries arguments temps _ rest)

end

variable {left right : Arguments} {temps temps' : List Value}

mutual

theorem load_alike {ρ : Pairing} {l r : Heap} (heaps : Heap.Alike ρ l r)
    (arguments : left.Alike ρ right) (slots : List.Forall₂ (Value.Alike ρ) temps temps')
    (operand : Operand) :
    ∃ ρ', Heap.Lockstep ρ ρ' l (operand.load left temps l).2 r (operand.load right temps' r).2 ∧
      (operand.load left temps l).1.Alike ρ' (operand.load right temps' r).1 := by
  cases operand with
  | literal value => exact ⟨ρ, .refl heaps, .leaf (by cases value <;> rfl)⟩
  | temp id => exact ⟨ρ, .refl heaps, .getD_getElem? slots id⟩
  | context => exact ⟨ρ, .refl heaps, .getD_of_rel arguments.context⟩
  | locals => exact ⟨ρ, .refl heaps, .getD_of_rel arguments.locals⟩
  | array elements =>
    obtain ⟨ρ₁, step, items⟩ := loadElements_alike heaps arguments slots elements
    obtain ⟨ρ₂, step', values⟩ := step.alike.newArray items
    exact ⟨ρ₂, step.trans step', values⟩
  | object entries =>
    obtain ⟨ρ₁, step, members⟩ := loadEntries_alike heaps arguments slots entries
    obtain ⟨ρ₂, step', values⟩ := step.alike.newObject members
    exact ⟨ρ₂, step.trans step', values⟩

theorem loadElements_alike {ρ : Pairing} {l r : Heap} (heaps : Heap.Alike ρ l r)
    (arguments : left.Alike ρ right) (slots : List.Forall₂ (Value.Alike ρ) temps temps')
    (elements : List Operand) :
    ∃ ρ', Heap.Lockstep ρ ρ' l (loadElements left temps l elements).2
        r (loadElements right temps' r elements).2 ∧
      List.Forall₂ (Value.Alike ρ') (loadElements left temps l elements).1
        (loadElements right temps' r elements).1 := by
  cases elements with
  | nil => exact ⟨ρ, .refl heaps, .nil⟩
  | cons element rest =>
    obtain ⟨ρ₁, step, first⟩ := load_alike heaps arguments slots element
    obtain ⟨ρ₂, step', others⟩ := loadElements_alike step.alike (arguments.mono step.larger)
      (Value.Alike.all_mono step.larger slots) rest
    exact ⟨ρ₂, step.trans step', .cons (first.mono step'.larger) others⟩

theorem loadEntries_alike {ρ : Pairing} {l r : Heap} (heaps : Heap.Alike ρ l r)
    (arguments : left.Alike ρ right) (slots : List.Forall₂ (Value.Alike ρ) temps temps')
    (entries : List (String × Operand)) :
    ∃ ρ', Heap.Lockstep ρ ρ' l (loadEntries left temps l entries).2
        r (loadEntries right temps' r entries).2 ∧
      List.Forall₂ (EntryAlike ρ') (loadEntries left temps l entries).1
        (loadEntries right temps' r entries).1 := by
  cases entries with
  | nil => exact ⟨ρ, .refl heaps, .nil⟩
  | cons entry rest =>
    obtain ⟨key, value⟩ := entry
    obtain ⟨ρ₁, step, first⟩ := load_alike heaps arguments slots value
    obtain ⟨ρ₂, step', others⟩ := loadEntries_alike step.alike (arguments.mono step.larger)
      (Value.Alike.all_mono step.larger slots) rest
    exact ⟨ρ₂, step.trans step', .cons ⟨rfl, first.mono step'.larger⟩ others⟩

end

end Operand

variable {left right : Arguments} {temps temps' : List Value}

theorem Test.grows_holds (test : Test) (arguments : Arguments) (temps : List Value) (heap : Heap) :
    heap.Grows (test.holds arguments temps heap).2 := by
  cases test with
  | truthy operand => exact operand.grows_load arguments temps heap
  | _ => exact .refl _ _

theorem Test.holds_alike (heaps : Heap.Alike ρ l r) (arguments : left.Alike ρ right)
    (slots : List.Forall₂ (Value.Alike ρ) temps temps') (test : Test) :
    ∃ ρ', Heap.Lockstep ρ ρ' l (test.holds left temps l).2 r (test.holds right temps' r).2 ∧
      (test.holds left temps l).1 = (test.holds right temps' r).1 := by
  cases test with
  | localsHave name => exact ⟨ρ, .refl heaps, arguments.localsHave_eq heaps name⟩
  | contextInstead name =>
    refine ⟨ρ, .refl heaps, ?_⟩
    simp only [Test.holds, arguments.localsHave_eq heaps name, arguments.contextPresent_eq]
  | truthy operand =>
    obtain ⟨ρ', step, values⟩ := Operand.load_alike heaps arguments slots operand
    exact ⟨ρ', step, values.isTruthy_eq⟩

theorem Read.grows_value (read : Read) (arguments : Arguments) (temps : List Value) (heap : Heap) :
    heap.Grows (read.value arguments temps heap).2 := by
  cases read with
  | member object name => exact object.grows_load arguments temps heap
  | computed object key =>
    exact (object.grows_load arguments temps heap).trans (key.grows_load arguments temps _)

theorem Read.value_alike (heaps : Heap.Alike ρ l r) (arguments : left.Alike ρ right)
    (slots : List.Forall₂ (Value.Alike ρ) temps temps') (read : Read) :
    ∃ ρ', Heap.Lockstep ρ ρ' l (read.value left temps l).2 r (read.value right temps' r).2 ∧
      (read.value left temps l).1.Alike ρ' (read.value right temps' r).1 := by
  cases read with
  | member object name =>
    obtain ⟨ρ', step, holders⟩ := Operand.load_alike heaps arguments slots object
    exact ⟨ρ', step, step.alike.member holders name⟩
  | computed object key =>
    obtain ⟨ρ₁, step, holders⟩ := Operand.load_alike heaps arguments slots object
    obtain ⟨ρ₂, step', keys⟩ := Operand.load_alike step.alike (arguments.mono step.larger)
      (Value.Alike.all_mono step.larger slots) key
    exact ⟨ρ₂, step.trans step', step'.alike.memberAt (holders.mono step'.larger) keys⟩

namespace Statement

theorem grows_run (statement : Statement) (arguments : Arguments) (temps : List Value)
    (heap : Heap) : heap.Grows (statement.run arguments temps heap).2 := by
  have tested := statement.test.grows_holds arguments temps heap
  simp only [run]
  split
  · exact tested.trans (statement.read.grows_value arguments temps _)
  · exact tested

theorem run_alike (heaps : Heap.Alike ρ l r) (arguments : left.Alike ρ right)
    (slots : List.Forall₂ (Value.Alike ρ) temps temps') (statement : Statement) :
    ∃ ρ', Heap.Lockstep ρ ρ' l (statement.run left temps l).2 r (statement.run right temps' r).2 ∧
      List.Forall₂ (Value.Alike ρ') (statement.run left temps l).1
        (statement.run right temps' r).1 := by
  obtain ⟨ρ₁, step, same⟩ := Test.holds_alike heaps arguments slots statement.test
  have slots := Value.Alike.all_mono step.larger slots
  simp only [run, same]
  split
  · obtain ⟨ρ₂, step', values⟩ := Read.value_alike step.alike (arguments.mono step.larger) slots
      statement.read
    exact ⟨ρ₂, step.trans step',
      Value.Alike.all_set (Value.Alike.all_mono step'.larger slots) _ values⟩
  · exact ⟨ρ₁, step, slots⟩

theorem grows_runAll (arguments : Arguments) (body : List Statement) (temps : List Value)
    (heap : Heap) : heap.Grows (runAll arguments body temps heap).2 := by
  induction body generalizing temps heap with
  | nil => exact .refl _ _
  | cons statement rest ih =>
    simp only [runAll]
    exact (statement.grows_run arguments temps heap).trans (ih _ _)

theorem runAll_alike (heaps : Heap.Alike ρ l r) (arguments : left.Alike ρ right)
    (slots : List.Forall₂ (Value.Alike ρ) temps temps') (body : List Statement) :
    ∃ ρ', Heap.Lockstep ρ ρ' l (runAll left body temps l).2 r (runAll right body temps' r).2 ∧
      List.Forall₂ (Value.Alike ρ') (runAll left body temps l).1
        (runAll right body temps' r).1 := by
  induction body generalizing ρ temps temps' l r with
  | nil => exact ⟨ρ, .refl heaps, slots⟩
  | cons statement rest ih =>
    obtain ⟨ρ₁, step, slots⟩ := statement.run_alike heaps arguments slots
    obtain ⟨ρ₂, step', slots⟩ := ih step.alike (arguments.mono step.larger) slots
    exact ⟨ρ₂, step.trans step', slots⟩

end Statement

namespace Program

theorem grows_run (program : Program) (arguments : Arguments) (heap : Heap) :
    heap.Grows (program.run arguments heap).2 :=
  (Statement.grows_runAll arguments program.body _ heap).trans
    (program.result.grows_load arguments _ _)

/-- A program gives alike values for alike arguments. -/
theorem run_alike (heaps : Heap.Alike ρ l r) (arguments : left.Alike ρ right) (program : Program) :
    ∃ ρ', Heap.Lockstep ρ ρ' l (program.run left l).2 r (program.run right r).2 ∧
      (program.run left l).1.Alike ρ' (program.run right r).1 := by
  obtain ⟨ρ₁, step, slots⟩ := Statement.runAll_alike heaps arguments
    (Value.Alike.all_replicate .undefined program.tempCount) program.body
  obtain ⟨ρ₂, step', values⟩ := Operand.load_alike step.alike (arguments.mono step.larger) slots
    program.result
  exact ⟨ρ₂, step.trans step', values⟩

end Program
end DataBinding
