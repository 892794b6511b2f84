import DataBinding.Program.Temporaries

/-! Generated code gives each of its temporaries a value in one place. What has been given a value
before is carried along the code, so a statement that reads something else, or gives a value once
more, has no place in it. The temporaries of an expression are those from the next free one on, in
an order of their own: a member's comes after those of its key, which have greater numbers. -/
namespace DataBinding

/-- Code that gives the temporaries `given` values, in this order and each once, and reads only
those that were `known` before it or have been given one. -/
inductive Assigns : List Nat → List Statement → List Nat → Prop where
  | nil {known : List Nat} : Assigns known [] []
  | cons {known given : List Nat} {id : Nat} {own rest : List Statement}
      (assignment : Assignment id own) (fresh : id ∉ known)
      (reads : ∀ statement ∈ own, ∀ i ∈ statement.temps, i ∈ known)
      (others : Assigns (known ++ [id]) rest given) : Assigns known (own ++ rest) (id :: given)

namespace Assignment

variable {id : Nat} {own : List Statement}

theorem target (assignment : Assignment id own) : ∀ statement ∈ own, statement.target = id := by
  intro statement mem
  cases assignment with
  | name name =>
    simp only [lookupStatements, List.mem_cons, List.not_mem_nil, or_false] at mem
    rcases mem with rfl | rfl <;> rfl
  | fixed object name => rw [List.mem_singleton.1 mem]
  | computed object key => rw [List.mem_singleton.1 mem]

theorem exists_mem (assignment : Assignment id own) : ∃ statement, statement ∈ own := by
  cases assignment with
  | name name => exact ⟨_, List.mem_cons_self⟩
  | fixed object name => exact ⟨_, List.mem_cons_self⟩
  | computed object key => exact ⟨_, List.mem_cons_self⟩

/-- A name that the locals have is not read from the context. -/
theorem exclusive (assignment : Assignment id own) : own.Pairwise Statement.Exclusive := by
  cases assignment with
  | name name =>
    refine List.pairwise_pair.2 fun arguments heap _ _ found => ?_
    have found : arguments.localsHave heap name = true := found
    simp only [Test.holds, found, Bool.not_true, Bool.false_and]
  | fixed object name => exact List.pairwise_singleton _ _
  | computed object key => exact List.pairwise_singleton _ _

end Assignment

namespace Assigns

variable {known given given' : List Nat} {xs ys body : List Statement}

theorem append (first : Assigns known xs given) (second : Assigns (known ++ given) ys given') :
    Assigns known (xs ++ ys) (given ++ given') := by
  induction first with
  | nil => simpa using second
  | cons assignment fresh reads _ ih =>
    rw [List.append_assoc]
    exact .cons assignment fresh reads (ih (by simpa using second))

theorem single {id : Nat} {own : List Statement} (assignment : Assignment id own)
    (fresh : id ∉ known) (reads : ∀ statement ∈ own, ∀ i ∈ statement.temps, i ∈ known) :
    Assigns known own [id] := by
  simpa using cons assignment fresh reads nil

theorem fresh (assigns : Assigns known body given) : ∀ id ∈ given, id ∉ known := by
  induction assigns with
  | nil => simp
  | cons _ fresh _ _ ih =>
    intro i mem
    rcases List.mem_cons.1 mem with rfl | mem
    · exact fresh
    · exact fun old => ih i mem (List.mem_append_left _ old)

theorem target_mem (assigns : Assigns known body given) :
    ∀ statement ∈ body, statement.target ∈ given := by
  induction assigns with
  | nil => simp
  | cons assignment _ _ _ ih =>
    intro statement mem
    rcases List.mem_append.1 mem with own | mem
    · rw [assignment.target statement own]
      exact List.mem_cons_self
    · exact List.mem_cons_of_mem _ (ih statement mem)

/-- What is known is not given a value once more. -/
theorem target_ne {id : Nat} (assigns : Assigns known body given) (old : id ∈ known) :
    ∀ statement ∈ body, statement.target ≠ id := by
  rintro statement mem rfl
  exact assigns.fresh _ (assigns.target_mem statement mem) old

/-- The code of each temporary stands together. -/
theorem assigned (assigns : Assigns known body given) : ∀ id ∈ given, ∃ before own after,
    body = before ++ own ++ after ∧ Assignment id own ∧
      ∀ other ∈ before ++ after, other.target ≠ id := by
  induction assigns with
  | nil => simp
  | @cons known _ first own rest assignment fresh _ others ih =>
    intro id mem
    rcases List.mem_cons.1 mem with rfl | mem
    · exact ⟨[], own, rest, rfl, assignment, others.target_ne (by simp)⟩
    · obtain ⟨before, its, after, rfl, assigned, apart⟩ := ih id mem
      refine ⟨own ++ before, its, after, by simp, assigned, fun other mem' => ?_⟩
      rw [List.append_assoc] at mem'
      rcases List.mem_append.1 mem' with inOwn | elsewhere
      · rw [assignment.target other inOwn]
        rintro rfl
        exact others.fresh _ mem (by simp)
      · exact apart other elsewhere

/-- What a statement reads has its value and keeps it from there on. -/
theorem reads (assigns : Assigns known body given) :
    ∀ before statement after, body = before ++ statement :: after → ∀ i ∈ statement.temps,
      (i ∈ known ∨ ∃ earlier ∈ before, earlier.target = i) ∧
        ∀ later ∈ statement :: after, later.target ≠ i := by
  induction assigns with
  | nil => simp
  | @cons known _ id own rest assignment fresh reads others ih =>
    intro before statement after split i read
    have behind : ∀ between, before = own ++ between → rest = between ++ statement :: after →
        (i ∈ known ∨ ∃ earlier ∈ before, earlier.target = i) ∧
          ∀ later ∈ statement :: after, later.target ≠ i := by
      rintro between rfl split
      obtain ⟨earlier, later⟩ := ih between statement after split i read
      refine ⟨?_, later⟩
      rcases earlier with old | ⟨earlier, inside, same⟩
      · refine (List.mem_append.1 old).imp_right fun new => ?_
        obtain ⟨setter, inOwn⟩ := assignment.exists_mem
        exact ⟨setter, List.mem_append_left _ inOwn,
          (assignment.target setter inOwn).trans (List.mem_singleton.1 new).symm⟩
      · exact .inr ⟨earlier, List.mem_append_right _ inside, same⟩
    rcases List.append_eq_append_iff.1 split with ⟨between, ahead, tail⟩ | ⟨start, ahead, tail⟩
    · exact behind between ahead tail
    · cases start with
      | nil => exact behind [] (by simpa using ahead.symm) tail.symm
      | cons head start =>
        obtain ⟨rfl, rfl⟩ := List.cons.inj tail
        have old : i ∈ known := reads statement (by simp [ahead]) i read
        refine ⟨.inl old, fun later mem => ?_⟩
        exact (cons assignment fresh reads others).target_ne old later
          (split ▸ List.mem_append_right before mem)

end Assigns

/-- Code for the temporaries from `next` to below `last`. -/
structure Fills (next last : Nat) (body : List Statement) : Prop where
  ordered : next ≤ last
  assigns : ∀ known, (∀ i ∈ known, i < next) →
    ∃ given, Assigns known body given ∧ ∀ i, i ∈ given ↔ next ≤ i ∧ i < last

namespace Fills

variable {next middle last : Nat} {xs ys body : List Statement}

theorem nil (next : Nat) : Fills next next [] :=
  ⟨Nat.le_refl _, fun _ _ => ⟨[], .nil, by simp⟩⟩

theorem below {known given : List Nat} (first : Fills next middle xs)
    (below : ∀ i ∈ known, i < next) (range : ∀ i, i ∈ given ↔ next ≤ i ∧ i < middle) :
    ∀ i ∈ known ++ given, i < middle := by
  intro i mem
  rcases List.mem_append.1 mem with old | new
  · exact Nat.lt_of_lt_of_le (below i old) first.ordered
  · exact ((range i).1 new).2

theorem append (first : Fills next middle xs) (second : Fills middle last ys) :
    Fills next last (xs ++ ys) where
  ordered := Nat.le_trans first.ordered second.ordered
  assigns := by
    intro known below
    have ordered := first.ordered
    have ordered' := second.ordered
    obtain ⟨given, assigns, range⟩ := first.assigns known below
    obtain ⟨given', assigns', range'⟩ := second.assigns _ (first.below below range)
    refine ⟨given ++ given', assigns.append assigns', fun i => ?_⟩
    rw [List.mem_append, range, range']
    omega

/-- A temporary is numbered after those of `xs` and before those of `ys`, and assigned after
both. -/
theorem assign {id : Nat} {own : List Statement} (first : Fills next id xs)
    (second : Fills (id + 1) last ys) (assignment : Assignment id own)
    (reads : ∀ statement ∈ own, ∀ i ∈ statement.temps, next ≤ i ∧ i < last ∧ i ≠ id) :
    Fills next last (xs ++ ys ++ own) where
  ordered := Nat.le_trans first.ordered (Nat.le_of_succ_le second.ordered)
  assigns := by
    intro known below
    have ordered := first.ordered
    have ordered' := second.ordered
    obtain ⟨given, assigns, range⟩ := first.assigns known below
    obtain ⟨given', assigns', range'⟩ := second.assigns _ fun i mem =>
      Nat.lt_succ_of_lt (first.below below range i mem)
    have last : Assigns (known ++ (given ++ given')) own [id] := by
      refine .single assignment ?_ fun statement mem i read => ?_
      · have new : id ∉ known := fun old => by
          have := below id old
          omega
        simp only [List.mem_append, new, range, range', false_or]
        omega
      · have := reads statement mem i read
        simp only [List.mem_append, range, range']
        omega
    refine ⟨given ++ given' ++ [id], (assigns.append assigns').append last, fun i => ?_⟩
    simp only [List.mem_append, List.mem_singleton, range, range']
    omega

end Fills

namespace Expression

/-- How many names are looked up and members read in some nodes. -/
def readsIn (nodes : List Expression) : Nat := nodes.countP isLookup + nodes.countP isMember

theorem readsIn_append (xs ys : List Expression) : readsIn (xs ++ ys) = readsIn xs + readsIn ys := by
  simp only [readsIn, List.countP_append]
  omega

theorem readsIn_member (holder property : Expression) (computed : Bool) (rest : List Expression) :
    readsIn (.member holder property computed :: rest) = readsIn rest + 1 := by
  have looked : isLookup (.member holder property computed) = false := rfl
  have read : isMember (.member holder property computed) = true := rfl
  simp only [readsIn, List.countP_cons, looked, read, Bool.false_eq_true, if_false, if_true]
  omega

theorem nodes_member (holder property : Expression) (computed : Bool) :
    nodes (.member holder property computed) = .member holder property computed :: (nodes holder ++
      match fixedName? property computed with
      | some _ => []
      | none => nodes property) := by
  cases property <;> cases computed <;> rfl

end Expression

/-- Code for `count` temporaries from `next` on, handed out in this order, and a result that
mentions no others. -/
structure Allocates {α : Type} (temps : α → List Nat) (next count : Nat)
    (generated : Generated α) : Prop where
  vars : generated.vars = List.range' next count
  count : generated.next = next + count
  operand : ∀ i ∈ temps generated.operand, next ≤ i ∧ i < generated.next
  fills : Fills next generated.next generated.body

namespace Allocates

variable {α β γ : Type} {temps : α → List Nat} {temps' : β → List Nat} {temps'' : γ → List Nat}
variable {next count count' : Nat} {one : Generated α} {other : Generated β} {result : γ}

theorem immediate (next : Nat) (none : temps'' result = []) :
    Allocates temps'' next 0 ⟨result, [], [], next⟩ :=
  ⟨rfl, rfl, by simp [none], .nil next⟩

theorem append (first : Allocates temps next count one)
    (second : Allocates temps' one.next count' other)
    (parts : temps'' result = temps one.operand ++ temps' other.operand) :
    Allocates temps'' next (count + count')
      ⟨result, one.vars ++ other.vars, one.body ++ other.body, other.next⟩ where
  vars := by rw [first.vars, second.vars, first.count, List.range'_append_1]
  count := by rw [second.count, first.count, Nat.add_assoc]
  operand := by
    have ordered := first.fills.ordered
    have ordered' := second.fills.ordered
    intro i mem
    rcases List.mem_append.1 (parts ▸ mem) with mem | mem
    · exact ⟨(first.operand i mem).1, Nat.lt_of_lt_of_le (first.operand i mem).2 ordered'⟩
    · exact ⟨Nat.le_trans ordered (second.operand i mem).1, (second.operand i mem).2⟩
  fills := first.fills.append second.fills

theorem fixed {holder : Generated Operand} (left : Allocates Operand.temps next count holder)
    (name : String) :
    Allocates Operand.temps next (count + 1) ⟨.temp holder.next, holder.vars ++ [holder.next],
      holder.body ++ [⟨.truthy holder.operand, holder.next, .member holder.operand name⟩],
      holder.next + 1⟩ where
  vars := by rw [left.vars, left.count, List.range'_1_concat]
  count := by rw [left.count, Nat.add_assoc]
  operand := by
    have ordered := left.fills.ordered
    simp only [Operand.temps, List.mem_singleton]
    omega
  fills := by
    have code := left.fills.assign (.nil (holder.next + 1)) (.fixed holder.operand name)
      fun statement mem i read => by
        obtain rfl := List.mem_singleton.1 mem
        have range := left.operand i ((List.mem_append.1 read).elim id id)
        omega
    rwa [List.append_nil] at code

theorem computed {holder key : Generated Operand} (left : Allocates Operand.temps next count holder)
    (inKey : Allocates Operand.temps (holder.next + 1) count' key) :
    Allocates Operand.temps next (count + count' + 1) ⟨.temp holder.next,
      holder.vars ++ holder.next :: key.vars,
      holder.body ++ key.body ++
        [⟨.truthy holder.operand, holder.next, .computed holder.operand key.operand⟩],
      key.next⟩ where
  vars := by
    rw [left.vars, inKey.vars, left.count, ← List.range'_succ, List.range'_append_1, Nat.add_assoc]
  count := by
    rw [inKey.count, left.count]
    omega
  operand := by
    have ordered := left.fills.ordered
    have ordered' := inKey.fills.ordered
    simp only [Operand.temps, List.mem_singleton]
    omega
  fills := by
    have ordered := left.fills.ordered
    have ordered' := inKey.fills.ordered
    refine left.fills.assign inKey.fills (.computed _ _) fun statement mem i read => ?_
    obtain rfl := List.mem_singleton.1 mem
    have range : next ≤ i ∧ i < holder.next ∨ holder.next + 1 ≤ i ∧ i < key.next := by
      rcases List.mem_append.1 read with test | read
      · exact .inl (left.operand i test)
      · exact (List.mem_append.1 read).imp (left.operand i) (inKey.operand i)
    show next ≤ i ∧ i < key.next ∧ i ≠ holder.next
    omega

end Allocates

namespace Expression

mutual

theorem allocates_generateFrom (next : Nat) (e : Expression) :
    Allocates Operand.temps next (readsIn e.nodes) (e.generateFrom next) := by
  cases e with
  | program body => exact allocates_generateFrom next body
  | literal value => exact .immediate next rfl
  | array elements =>
    have parts := allocates_generateElements next elements
    exact ⟨parts.vars, parts.count, parts.operand, parts.fills⟩
  | object properties =>
    have parts := allocates_generateProperties next properties
    exact ⟨parts.vars, parts.count, parts.operand, parts.fills⟩
  | identifier name =>
    have reads : ∀ statement ∈ lookupStatements next name, ∀ i ∈ statement.temps,
        next ≤ i ∧ i < next + 1 ∧ i ≠ next := by
      simp [lookupStatements, Statement.temps, Test.temps, Read.temps, Operand.temps]
    exact ⟨rfl, rfl, by simp [generateFrom, Operand.temps],
      .assign (.nil next) (.nil (next + 1)) (.name name) reads⟩
  | this => exact .immediate next rfl
  | locals => exact .immediate next rfl
  | member holder property computed =>
    have left := allocates_generateFrom next holder
    have key := allocates_generateFrom ((holder.generateFrom next).next + 1) property
    rw [nodes_member, readsIn_member, readsIn_append]
    simp only [generateFrom]
    cases fixedName? property computed with
    | some name => exact left.fixed name
    | none => exact left.computed key

theorem allocates_generateElements (next : Nat) (elements : List Expression) :
    Allocates Operand.elementTemps next (readsIn (elementNodes elements))
      (generateElements next elements) := by
  cases elements with
  | nil => exact .immediate next rfl
  | cons element rest =>
    rw [elementNodes, readsIn_append]
    exact (allocates_generateFrom next element).append (allocates_generateElements _ rest) rfl

theorem allocates_generateProperties (next : Nat) (properties : List (String × Expression)) :
    Allocates Operand.entryTemps next (readsIn (propertyNodes properties))
      (generateProperties next properties) := by
  cases properties with
  | nil => exact .immediate next rfl
  | cons property rest =>
    obtain ⟨key, value⟩ := property
    rw [propertyNodes, readsIn_append]
    exact (allocates_generateFrom next value).append (allocates_generateProperties _ rest) rfl

end

end Expression

namespace Program

/-- There is a slot for every temporary that is numbered. -/
theorem tempCount_ofExpression (e : Expression) :
    (ofExpression e).tempCount = (e.generateFrom 0).next := by
  have code := e.allocates_generateFrom 0
  have vars : (ofExpression e).vars = List.range' 0 _ := code.vars
  rw [tempCount, vars, List.length_range', code.count, Nat.zero_add]

/-- The code of an expression from its first statement on. -/
theorem assigns_ofExpression (e : Expression) : ∃ given, Assigns [] (ofExpression e).body given ∧
    ∀ i, i ∈ given ↔ i < e.lookups + e.memberReads := by
  have code := e.allocates_generateFrom 0
  obtain ⟨given, assigns, range⟩ := code.fills.assigns [] (by simp)
  refine ⟨given, assigns, fun i => ?_⟩
  rw [range, code.count, Nat.zero_add]
  exact and_iff_right (Nat.zero_le i)

theorem wellFormed_ofExpression (e : Expression) :
    (ofExpression e).WellFormed (e.lookups + e.memberReads) := by
  have code := e.allocates_generateFrom 0
  have count : (e.generateFrom 0).next = e.lookups + e.memberReads :=
    code.count.trans (Nat.zero_add _)
  have vars : (ofExpression e).vars = List.range (e.lookups + e.memberReads) :=
    code.vars.trans (List.range_eq_range' ..).symm
  obtain ⟨given, assigns, range⟩ := assigns_ofExpression e
  have reads : ∀ before statement after, (ofExpression e).body = before ++ statement :: after →
      ∀ id ∈ statement.temps, (∃ earlier ∈ before, earlier.target = id) ∧
        ∀ later ∈ statement :: after, later.target ≠ id := by
    intro before statement after split id mem
    obtain ⟨earlier, later⟩ := assigns.reads before statement after split id mem
    exact ⟨earlier.resolve_left List.not_mem_nil, later⟩
  have targets : ∀ statement ∈ (ofExpression e).body,
      statement.target < e.lookups + e.memberReads :=
    fun statement mem => (range _).1 (assigns.target_mem statement mem)
  have result : ∀ id ∈ (ofExpression e).result.temps, id < e.lookups + e.memberReads :=
    fun id mem => count ▸ (code.operand id mem).2
  refine ⟨vars, targets, ?_, result, reads, ?_, ?_⟩
  · intro statement mem id read
    obtain ⟨before, after, split⟩ := List.append_of_mem mem
    obtain ⟨⟨earlier, inside, rfl⟩, _⟩ := reads before statement after split id read
    exact targets earlier (by simp [split, inside])
  · intro id mem
    obtain ⟨before, own, after, split, assignment, _⟩ :=
      assigns.assigned id ((range id).2 (result id mem))
    obtain ⟨setter, inside⟩ := assignment.exists_mem
    exact ⟨setter, by simp [split, inside], assignment.target setter inside⟩
  · intro id inside
    obtain ⟨before, own, after, split, assignment, apart⟩ :=
      assigns.assigned id ((range id).2 inside)
    exact ⟨before, own, after, split, assignment, assignment.exclusive, apart⟩

end Program
end DataBinding
