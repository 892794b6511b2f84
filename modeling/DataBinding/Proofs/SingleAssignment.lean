import DataBinding.Program.Strict
import DataBinding.Proofs.Assignments
import DataBinding.Proofs.Compilation

/-! Runs of generated programs break no rule on the use of temporaries. Along a run, the slots that
have been used are among those of the temporaries whose code has been run; the code of the next
temporary reads those only and writes its own slot, at most once. -/
namespace DataBinding

variable {α β : Type}

namespace Strict

/-- Slots that hold the given values. Only those of `known` temporaries have been used. -/
structure Fits (known : List Nat) (temps : List Value) (slots : List Temporary) : Prop where
  values : slots.map Temporary.value = temps
  used : ∀ {i slot}, slots[i]? = some slot → slot.used = true → i ∈ known

/-- From slots that fit, a computation has an outcome, the given one, and leaves slots that fit. -/
def Yields (x : Strict α) (known : List Nat) (temps : List Value) (a : α)
    (known' : List Nat) (temps' : List Value) : Prop :=
  ∀ slots, Fits known temps slots → ∃ slots', x slots = some (a, slots') ∧ Fits known' temps' slots'

variable {known known' known'' : List Nat} {temps temps' temps'' : List Value}
variable {slots : List Temporary} {id : Nat}

namespace Fits

theorem weaken (fits : Fits known temps slots) (more : ∀ i ∈ known, i ∈ known') :
    Fits known' temps slots :=
  ⟨fits.values, fun found used => more _ (fits.used found used)⟩

/-- A temporary that is there has a slot with its value. -/
theorem exists_slot (fits : Fits known temps slots) (inside : id < temps.length) :
    ∃ slot, slots[id]? = some slot ∧ temps[id]? = some slot.value := by
  have room : id < slots.length := by
    rw [← fits.values, List.length_map] at inside
    exact inside
  refine ⟨slots[id], List.getElem?_eq_getElem room, ?_⟩
  rw [← fits.values, List.getElem?_map, List.getElem?_eq_getElem room, Option.map_some]

/-- A slot that is used becomes one of the known ones. -/
theorem set (fits : Fits known temps slots) (slot : Temporary) (mem : id ∈ known')
    (more : ∀ i ∈ known, i ∈ known') : Fits known' (temps.set id slot.value) (slots.set id slot) where
  values := by rw [List.map_set, fits.values]
  used := by
    intro i other found used
    rw [List.getElem?_set] at found
    split at found
    · rename_i same
      exact same ▸ mem
    · exact more i (fits.used found used)

end Fits

namespace Yields

variable {x : Strict α} {a : α} {b : β} {f : α → Strict β}

theorem pure (a : α) : Yields (Pure.pure a) known temps a known temps :=
  fun slots fits => ⟨slots, rfl, fits⟩

theorem bind (first : Yields x known temps a known' temps')
    (second : Yields (f a) known' temps' b known'' temps'') :
    Yields (x >>= f) known temps b known'' temps'' := by
  intro slots fits
  obtain ⟨slots', ran, fits'⟩ := first slots fits
  obtain ⟨slots'', ran', fits''⟩ := second slots' fits'
  refine ⟨slots'', ?_, fits''⟩
  show (x slots >>= fun p => f p.1 p.2) = _
  rw [ran]
  exact ran'

theorem weaken (yields : Yields x known temps a known' temps') (more : ∀ i ∈ known', i ∈ known'') :
    Yields x known temps a known'' temps' := by
  intro slots fits
  obtain ⟨slots', ran, fits'⟩ := yields slots fits
  exact ⟨slots', ran, fits'.weaken more⟩

theorem read (mem : id ∈ known) (inside : id < temps.length) :
    Yields (Strict.read id) known temps ((temps[id]?).getD .undefined) known temps := by
  intro slots fits
  obtain ⟨slot, found, value⟩ := fits.exists_slot inside
  refine ⟨slots.set id { slot with used := true }, ?_, ?_⟩
  · simp only [Strict.read, found, value, Option.getD_some]
  · have same : temps.set id slot.value = temps := by
      obtain ⟨room, here⟩ := List.getElem?_eq_some_iff.1 value
      rw [← here, List.set_getElem_self]
    have fits' := fits.set { slot with used := true } mem fun _ old => old
    rwa [same] at fits'

theorem write (fresh : id ∉ known) (inside : id < temps.length) (v : Value) :
    Yields (Strict.write id v) known temps () (known ++ [id]) (temps.set id v) := by
  intro slots fits
  obtain ⟨slot, found, _⟩ := fits.exists_slot inside
  have unused : slot.used = false := by
    by_contra used
    exact fresh (fits.used found (by simpa using used))
  refine ⟨slots.set id ⟨v, true⟩, ?_, ?_⟩
  · simp only [Strict.write, found, unused, Bool.false_eq_true, if_false]
  · exact fits.set ⟨v, true⟩ (by simp) fun i old => List.mem_append_left _ old

end Yields

end Strict

open Strict (Fits Yields)

variable {arguments : Arguments} {known : List Nat} {temps : List Value}

namespace Operand

mutual

theorem yields_load (room : ∀ i ∈ known, i < temps.length) (heap : Heap) (operand : Operand)
    (reads : ∀ i ∈ operand.temps, i ∈ known) :
    Yields (operand.loadStrictly arguments heap) known temps (operand.load arguments temps heap)
      known temps := by
  cases operand with
  | temp id =>
    have mem : id ∈ known := reads id (by simp [Operand.temps])
    exact .bind (.read mem (room id mem)) (.pure _)
  | array elements => exact .bind (yields_loadElements room heap elements reads) (.pure _)
  | object entries => exact .bind (yields_loadEntries room heap entries reads) (.pure _)
  | _ => exact .pure _

theorem yields_loadElements (room : ∀ i ∈ known, i < temps.length) (heap : Heap)
    (elements : List Operand) (reads : ∀ i ∈ elementTemps elements, i ∈ known) :
    Yields (loadElementsStrictly arguments heap elements) known temps
      (loadElements arguments temps heap elements) known temps := by
  cases elements with
  | nil => exact .pure _
  | cons element rest =>
    obtain ⟨first, others⟩ := List.forall_mem_append.1 reads
    exact .bind (yields_load room heap element first)
      (.bind (yields_loadElements room _ rest others) (.pure _))

theorem yields_loadEntries (room : ∀ i ∈ known, i < temps.length) (heap : Heap)
    (entries : List (String × Operand)) (reads : ∀ i ∈ entryTemps entries, i ∈ known) :
    Yields (loadEntriesStrictly arguments heap entries) known temps
      (loadEntries arguments temps heap entries) known temps := by
  cases entries with
  | nil => exact .pure _
  | cons entry rest =>
    obtain ⟨key, value⟩ := entry
    obtain ⟨first, others⟩ := List.forall_mem_append.1 reads
    exact .bind (yields_load room heap value first)
      (.bind (yields_loadEntries room _ rest others) (.pure _))

end

end Operand

theorem Test.yields_holds (room : ∀ i ∈ known, i < temps.length) (heap : Heap) (test : Test)
    (reads : ∀ i ∈ test.temps, i ∈ known) :
    Yields (test.holdsStrictly arguments heap) known temps (test.holds arguments temps heap)
      known temps := by
  cases test with
  | truthy operand => exact .bind (operand.yields_load room heap reads) (.pure _)
  | _ => exact .pure _

theorem Read.yields_value (room : ∀ i ∈ known, i < temps.length) (heap : Heap) (read : Read)
    (reads : ∀ i ∈ read.temps, i ∈ known) :
    Yields (read.valueStrictly arguments heap) known temps (read.value arguments temps heap)
      known temps := by
  cases read with
  | member object name => exact .bind (object.yields_load room heap reads) (.pure _)
  | computed object key =>
    obtain ⟨first, others⟩ := List.forall_mem_append.1 reads
    exact .bind (object.yields_load room heap first)
      (.bind (key.yields_load room _ others) (.pure _))

namespace Statement

/-- A statement is performed on a slot that has not been used, if its test holds. -/
theorem yields_run (room : ∀ i ∈ known, i < temps.length) (heap : Heap) (statement : Statement)
    (reads : ∀ i ∈ statement.temps, i ∈ known) (inside : statement.target < temps.length)
    (fresh : (statement.test.holds arguments temps heap).1 = true → statement.target ∉ known) :
    Yields (statement.runStrictly arguments heap) known temps
      (statement.run arguments temps heap).2
      (if (statement.test.holds arguments temps heap).1 then known ++ [statement.target] else known)
      (statement.run arguments temps heap).1 := by
  obtain ⟨inTest, inRead⟩ := List.forall_mem_append.1 reads
  refine .bind (statement.test.yields_holds room heap inTest) ?_
  simp only [run]
  split
  · rename_i holds
    exact .bind (statement.read.yields_value room _ inRead)
      (.bind (.write (fresh holds) inside _) (.pure _))
  · exact .pure _

theorem runAllStrictly_append (xs ys : List Statement) (heap : Heap) :
    runAllStrictly arguments (xs ++ ys) heap =
      runAllStrictly arguments xs heap >>= runAllStrictly arguments ys := by
  induction xs generalizing heap with
  | nil => rfl
  | cons statement rest ih =>
    simp only [List.cons_append, runAllStrictly, ih, bind_assoc]

end Statement

theorem Statement.run_localsHave (id : Nat) (name : String) (temps : List Value) (heap : Heap) :
    Statement.run ⟨.localsHave name, id, .member .locals name⟩ arguments temps heap =
      (if arguments.localsHave heap name then
        temps.set id (heap.member (arguments.locals.getD .undefined) name) else temps, heap) := by
  by_cases found : arguments.localsHave heap name = true <;>
    simp [Statement.run, Test.holds, Read.value, Operand.load, found]

/-- Of the statements that give a temporary its value, one at most is performed. -/
theorem Assignment.yields_runAll {id : Nat} {own : List Statement} (assignment : Assignment id own)
    (room : ∀ i ∈ known, i < temps.length) (heap : Heap)
    (reads : ∀ statement ∈ own, ∀ i ∈ statement.temps, i ∈ known) (inside : id < temps.length)
    (fresh : id ∉ known) :
    Yields (Statement.runAllStrictly arguments own heap) known temps
      (Statement.runAll arguments own temps heap).2 (known ++ [id])
      (Statement.runAll arguments own temps heap).1 := by
  have alone : ∀ statement : Statement, statement.target = id →
      (∀ i ∈ statement.temps, i ∈ known) →
      Yields (Statement.runAllStrictly arguments [statement] heap) known temps
        (Statement.runAll arguments [statement] temps heap).2 (known ++ [id])
        (Statement.runAll arguments [statement] temps heap).1 := by
    rintro statement rfl reads
    refine .bind ((statement.yields_run room heap reads inside fun _ => fresh).weaken ?_) (.pure _)
    split
    · exact fun _ mem => mem
    · exact fun _ => List.mem_append_left _
  have exclusive := assignment.exclusive
  cases assignment with
  | fixed object name => exact alone _ rfl (reads _ List.mem_cons_self)
  | computed object key => exact alone _ rfl (reads _ List.mem_cons_self)
  | name name =>
    refine .bind (Statement.yields_run room heap _ (reads _ List.mem_cons_self) inside
      fun _ => fresh) ?_
    simp only [lookupStatements, Statement.runAll, Statement.run_localsHave]
    by_cases found : arguments.localsHave heap name = true
    · -- the locals have the name, so the slot is written and the context is not asked
      have skipped := fun slots => List.pairwise_pair.1 exclusive arguments heap temps slots found
      simp only [Test.holds, found, if_true]
      refine .bind ((Statement.yields_run ?_ heap _ ?_ ?_ ?_).weaken ?_) (.pure _)
      · simpa [or_imp, forall_and, inside] using room
      · exact fun i mem => List.mem_append_left _ (reads _ (by simp [lookupStatements]) i mem)
      · rwa [List.length_set]
      · simp only [skipped, Bool.false_eq_true, false_implies]
      · simp only [skipped, Bool.false_eq_true, if_false, imp_self, implies_true]
    · simp only [Test.holds, found]
      exact alone _ rfl (reads _ (by simp [lookupStatements]))

/-- Code that gives temporaries their values breaks no rule and computes what it computes. -/
theorem Assigns.yields_runAll {given : List Nat} {body : List Statement}
    (assigns : Assigns known body given) (room : ∀ i ∈ known ++ given, i < temps.length)
    (heap : Heap) :
    Yields (Statement.runAllStrictly arguments body heap) known temps
      (Statement.runAll arguments body temps heap).2 (known ++ given)
      (Statement.runAll arguments body temps heap).1 := by
  induction assigns generalizing temps heap with
  | nil => exact (Yields.pure _).weaken (by simp)
  | cons assignment fresh reads _ ih =>
    rw [Statement.runAllStrictly_append, Statement.runAll_append, List.append_cons]
    rw [List.append_cons] at room
    refine .bind (assignment.yields_runAll (fun i mem => room i (by simp [mem])) heap reads
      (room _ (by simp)) fresh) (ih ?_ _)
    rwa [Statement.length_runAll]

namespace Program

/-- The run of a program breaks no rule if its code gives values to the temporaries in its result,
and to declared ones only. -/
theorem runStrictly_eq {program : Program} {given : List Nat}
    (assigns : Assigns [] program.body given) (declared : ∀ i ∈ given, i < program.tempCount)
    (result : ∀ i ∈ program.result.temps, i ∈ given) (arguments : Arguments) (heap : Heap) :
    program.runStrictly arguments heap = some (program.run arguments heap) := by
  let temps := List.replicate program.tempCount Value.undefined
  have fresh : Fits [] temps (List.replicate program.tempCount ⟨.undefined, false⟩) := by
    refine ⟨List.map_replicate, fun found used => ?_⟩
    rw [List.eq_of_mem_replicate (List.mem_of_getElem? found)] at used
    cases used
  have room : ∀ i ∈ given, i < temps.length := by
    rw [List.length_replicate]
    exact declared
  have yields : Yields (do
      let heap ← Statement.runAllStrictly arguments program.body heap
      program.result.loadStrictly arguments heap) [] temps (program.run arguments heap) given
      (Statement.runAll arguments program.body temps heap).1 := by
    refine .bind (assigns.yields_runAll room heap) (Operand.yields_load ?_ _ _ result)
    rwa [Statement.length_runAll]
  obtain ⟨slots, ran, _⟩ := yields _ fresh
  exact congrArg (Option.map Prod.fst) ran

-- a result without a slot, and a test that reads the slot that is written then
example : runStrictly ⟨[0], [], .temp 1⟩ ⟨none, none⟩ .empty = none := rfl
example : runStrictly ⟨[0], [⟨.truthy (.array [.temp 0]), 0, .member .context "a"⟩], .temp 0⟩
    ⟨none, none⟩ .empty = none := rfl

/-- The program of an expression uses its temporaries well, one for each name that is looked up
and each member that is read. So each call reads and writes slots that there are, and writes a
slot at most once and never after reading it. -/
theorem ofExpression_singleAssignment (e : Expression) :
    (ofExpression e).WellFormed (e.lookups + e.memberReads) ∧
      ∀ arguments heap,
        (ofExpression e).runStrictly arguments heap =
          some ((ofExpression e).run arguments heap) := by
  have formed := wellFormed_ofExpression e
  obtain ⟨given, assigns, range⟩ := assigns_ofExpression e
  refine ⟨formed, runStrictly_eq assigns (fun i mem => ?_) fun i mem => ?_⟩
  · rw [tempCount, formed.vars, List.length_range]
    exact (range i).1 mem
  · exact (range i).2 (formed.resultTemps i mem)

end Program
end DataBinding
