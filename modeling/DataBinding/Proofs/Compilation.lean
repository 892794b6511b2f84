import DataBinding.Expression.Evaluation
import DataBinding.Proofs.Assignments
import DataBinding.Proofs.Copying
import DataBinding.Proofs.Programs

/-! Generated programs compute what expressions mean. The code of an expression writes its own
temporaries only, and its operand may be loaded long after its code has run, and more than
once: each time the value is the one of the direct evaluation, up to the containers that were
built for it. Values loaded at different times share no fresh container, so the pairings found
for the parts of an expression can be taken together. -/
namespace DataBinding

/-! Which temporaries code writes. -/

/-- Statements whose targets are the temporaries from `next` to below `last`. -/
structure Writes (next last : Nat) (body : List Statement) : Prop where
  ordered : next ≤ last
  targets : ∀ statement ∈ body, next ≤ statement.target ∧ statement.target < last

theorem Writes.nil (next : Nat) : Writes next next [] := ⟨Nat.le_refl _, by simp⟩

theorem Fills.writes {next last : Nat} {body : List Statement} (fills : Fills next last body) :
    Writes next last body where
  ordered := fills.ordered
  targets := by
    obtain ⟨given, assigns, range⟩ := fills.assigns [] (by simp)
    exact fun statement mem => (range _).1 (assigns.target_mem statement mem)

namespace Statement

variable (arguments : Arguments)

theorem length_run (statement : Statement) (temps : List Value) (heap : Heap) :
    (statement.run arguments temps heap).1.length = temps.length := by
  simp only [run]
  split <;> simp

theorem length_runAll (body : List Statement) (temps : List Value) (heap : Heap) :
    (runAll arguments body temps heap).1.length = temps.length := by
  induction body generalizing temps heap with
  | nil => rfl
  | cons statement rest ih =>
    simp only [runAll]
    rw [ih, length_run]

theorem runAll_append (xs ys : List Statement) (temps : List Value) (heap : Heap) :
    runAll arguments (xs ++ ys) temps heap =
      runAll arguments ys (runAll arguments xs temps heap).1 (runAll arguments xs temps heap).2 := by
  induction xs generalizing temps heap with
  | nil => rfl
  | cons statement rest ih =>
    simp only [List.cons_append, runAll]
    exact ih _ _

theorem getElem?_run (statement : Statement) (temps : List Value) (heap : Heap) {i : Nat}
    (apart : statement.target ≠ i) : (statement.run arguments temps heap).1[i]? = temps[i]? := by
  simp only [run]
  split
  · exact List.getElem?_set_ne apart
  · rfl

theorem getElem?_runAll {body : List Statement} {i : Nat}
    (apart : ∀ statement ∈ body, statement.target ≠ i) (temps : List Value) (heap : Heap) :
    (runAll arguments body temps heap).1[i]? = temps[i]? := by
  induction body generalizing temps heap with
  | nil => rfl
  | cons statement rest ih =>
    simp only [runAll]
    rw [ih fun other mem => apart other (List.mem_cons_of_mem _ mem),
      statement.getElem?_run arguments temps heap (apart statement List.mem_cons_self)]

end Statement

/-- Code leaves the temporaries alone that it does not write. -/
theorem Writes.getElem?_runAll {next last : Nat} {body : List Statement}
    (writes : Writes next last body) (arguments : Arguments) (temps : List Value) (heap : Heap)
    {i : Nat} (outside : i < next ∨ last ≤ i) :
    (Statement.runAll arguments body temps heap).1[i]? = temps[i]? := by
  apply Statement.getElem?_runAll
  intro statement mem
  have here := writes.targets statement mem
  omega

/-- What later code leaves is what earlier code wrote. -/
theorem Writes.left_behind {middle start last : Nat} {xs ys : List Statement}
    (writes : Writes start last ys) (ahead : middle ≤ start) {arguments : Arguments}
    {temps later : List Value} {heap : Heap} {next : Nat}
    (same : ∀ i, next ≤ i → i < last →
      later[i]? = (Statement.runAll arguments (xs ++ ys) temps heap).1[i]?) :
    ∀ i, next ≤ i → i < middle → later[i]? = (Statement.runAll arguments xs temps heap).1[i]? := by
  intro i above below
  have before : i < start := Nat.lt_of_lt_of_le below ahead
  rw [same i above (Nat.lt_of_lt_of_le before writes.ordered), Statement.runAll_append,
    writes.getElem?_runAll _ _ _ (.inl before)]

/-- Temporaries that are there and not yet written from `next` on. -/
structure Ready (next last : Nat) (temps : List Value) : Prop where
  room : last ≤ temps.length
  unset : ∀ i, next ≤ i → i < last → temps[i]? = some .undefined

namespace Ready

variable {next middle last : Nat} {temps : List Value}

/-- The slots of a call, before its program is run. -/
theorem start (e : Expression) : Ready 0 (e.generateFrom 0).next
    (List.replicate (Program.ofExpression e).tempCount .undefined) where
  room := Nat.le_of_eq (by rw [List.length_replicate, Program.tempCount_ofExpression])
  unset := by
    intro i _ below
    rw [List.getElem?_replicate, Program.tempCount_ofExpression, if_pos below]

theorem narrow {lower upper : Nat} (ready : Ready next last temps) (low : next ≤ lower)
    (high : upper ≤ last) : Ready lower upper temps where
  room := Nat.le_trans high ready.room
  unset := fun i above below =>
    ready.unset i (Nat.le_trans low above) (Nat.lt_of_lt_of_le below high)

theorem after {body : List Statement} (ready : Ready next last temps)
    (writes : Writes next middle body) (arguments : Arguments) (heap : Heap) :
    Ready middle last (Statement.runAll arguments body temps heap).1 where
  room := by
    rw [Statement.length_runAll]
    exact ready.room
  unset := by
    intro i above below
    rw [writes.getElem?_runAll arguments temps heap (.inr above)]
    exact ready.unset i (Nat.le_trans writes.ordered above) below

end Ready

/-! Pairings for parts that were computed apart. -/

/-- The containers that were built while one heap grew to another. -/
def Heap.Built (before after : Heap) (h : Handle) : Prop :=
  before.size ≤ h.index ∧ h.index < after.size

/-- Heaps that are alike under a pairing that adds to another one only containers of two given
sets. -/
structure Heap.Meets (base δ : Pairing) (left right : Handle → Prop) (l r : Heap) : Prop where
  alike : Heap.Alike δ l r
  larger : base ≤ δ
  fresh : ∀ {a b}, δ.pairs a b → base.pairs a b ∨ left a ∧ right b

namespace Heap.Meets

variable {base δ : Pairing} {heap l l' r r' : Heap} {left left' right right' : Handle → Prop}

theorem grow (meets : Heap.Meets base δ left right l r) (onLeft : l.Grows l') (onRight : r.Grows r') :
    Heap.Meets base δ left right l' r' :=
  ⟨meets.alike.grow onLeft onRight, meets.larger, meets.fresh⟩

theorem widen (meets : Heap.Meets base δ left right l r) (onLeft : ∀ h, left h → left' h)
    (onRight : ∀ h, right h → right' h) : Heap.Meets base δ left' right' l r :=
  ⟨meets.alike, meets.larger, fun pair =>
    (meets.fresh pair).imp_right fun both => ⟨onLeft _ both.1, onRight _ both.2⟩⟩

/-- Pairings that add different containers can be taken together. -/
theorem join {δ' : Pairing} (old : Heap.Alike base heap heap)
    (one : Heap.Meets base δ left right l r) (two : Heap.Meets base δ' left' right' l r)
    (late : ∀ h, left h ∨ left' h ∨ right h ∨ right' h → heap.size ≤ h.index)
    (apartLeft : ∀ h, left h → ¬ left' h) (apartRight : ∀ h, right h → ¬ right' h) :
    ∃ δ'', Heap.Meets base δ'' (fun h => left h ∨ left' h) (fun h => right h ∨ right' h) l r ∧
      δ ≤ δ'' ∧ δ' ≤ δ'' := by
  have functional : ∀ a b c, δ.pairs a b → δ'.pairs a c → b = c := by
    intro a b c first second
    rcases one.fresh first with base₁ | ⟨new₁, _⟩ <;>
      rcases two.fresh second with base₂ | ⟨new₂, _⟩
    · exact base.functional base₁ base₂
    · exact absurd (old.left base₁) (Nat.not_lt.2 (late _ (.inr (.inl new₂))))
    · exact absurd (old.left base₂) (Nat.not_lt.2 (late _ (.inl new₁)))
    · exact absurd new₂ (apartLeft _ new₁)
  have injective : ∀ a b c, δ.pairs a c → δ'.pairs b c → a = b := by
    intro a b c first second
    rcases one.fresh first with base₁ | ⟨_, new₁⟩ <;>
      rcases two.fresh second with base₂ | ⟨_, new₂⟩
    · exact base.injective base₁ base₂
    · exact absurd (old.right base₁) (Nat.not_lt.2 (late _ (.inr (.inr (.inr new₂)))))
    · exact absurd (old.right base₂) (Nat.not_lt.2 (late _ (.inr (.inr (.inl new₁)))))
    · exact absurd new₂ (apartRight _ new₁)
  have includes : δ ≤ δ.join δ' functional injective := fun _ _ pair => .inl pair
  have includes' : δ' ≤ δ.join δ' functional injective := fun _ _ pair => .inr pair
  refine ⟨δ.join δ' functional injective, ⟨⟨?_, ?_, ?_⟩,
    Pairing.le_trans one.larger includes, ?_⟩, includes, includes'⟩
  · intro a b pair
    exact pair.elim one.alike.left two.alike.left
  · intro a b pair
    exact pair.elim one.alike.right two.alike.right
  · rintro a b (pair | pair)
    · exact (one.alike.cells pair).mono includes
    · exact (two.alike.cells pair).mono includes'
  · rintro a b (pair | pair)
    · exact (one.fresh pair).imp_right fun both => ⟨.inl both.1, .inl both.2⟩
    · exact (two.fresh pair).imp_right fun both => ⟨.inr both.1, .inr both.2⟩

/-- Pairs that a step on both heaps adds. -/
theorem step {δ' : Pairing} (meets : Heap.Meets base δ left right l r)
    (lockstep : Heap.Lockstep δ δ' l l' r r') :
    Heap.Meets base δ' (fun h => left h ∨ l.Built l' h) (fun h => right h ∨ r.Built r' h) l' r' where
  alike := lockstep.alike
  larger := Pairing.le_trans meets.larger lockstep.larger
  fresh := by
    intro a b pair
    rcases lockstep.fresh pair with known | ⟨late, late'⟩
    · exact (meets.fresh known).imp_right fun both => ⟨.inl both.1, .inl both.2⟩
    · exact .inr ⟨.inr ⟨late, lockstep.alike.left pair⟩, .inr ⟨late', lockstep.alike.right pair⟩⟩

end Heap.Meets

/-- Running code and loading its result at some later time gives what an evaluation gives, up to
the containers that the two built. -/
structure Computes {α : Type} (arguments : Arguments) (heap : Heap) (base : Pairing)
    (S : Pairing → α → α → Prop) (next last : Nat) (body : List Statement)
    (load : List Value → Heap → α × Heap) (evaluate : Heap → α × Heap) : Prop where
  evaluated : ∀ l : Heap, l.Grows (evaluate l).2
  loaded : ∀ temps (r : Heap), r.Grows (load temps r).2
  agrees : ∀ {l r : Heap} {temps : List Value} (later : List Value) (r' : Heap),
    heap.Grows l → heap.Grows r → Ready next last temps →
    (∀ i, next ≤ i → i < last →
      later[i]? = (Statement.runAll arguments body temps r).1[i]?) →
    (Statement.runAll arguments body temps r).2.Grows r' →
    ∃ δ, Heap.Meets base δ (l.Built (evaluate l).2)
        (fun h => r.Built (Statement.runAll arguments body temps r).2 h ∨
          r'.Built (load later r').2 h) (evaluate l).2 (load later r').2 ∧
      S δ (evaluate l).1 (load later r').1

namespace Computes

variable {α β : Type} {arguments : Arguments} {heap : Heap} {base : Pairing}
  {S : Pairing → α → α → Prop} {T : Pairing → β → β → Prop}
  {next middle start last : Nat} {xs ys : List Statement}
  {load : List Value → Heap → α × Heap} {load' : List Value → Heap → β × Heap}
  {evaluate : Heap → α × Heap} {evaluate' : Heap → β × Heap}

/-- A result that is at hand. -/
theorem immediate (old : Heap.Alike base heap heap)
    (evaluated : ∀ l, (evaluate l).2 = l) (loaded : ∀ temps r, (load temps r).2 = r)
    (values : ∀ l r temps, heap.Grows l → heap.Grows r →
      S base (evaluate l).1 (load temps r).1) :
    Computes arguments heap base S next next [] load evaluate where
  evaluated := fun l => by rw [evaluated]; exact .refl _ _
  loaded := fun temps r => by rw [loaded]; exact .refl _ _
  agrees := by
    intro l r temps later r' onLeft onRight _ _ grows
    have onRight' : heap.Grows r' := onRight.trans grows
    refine ⟨base, ?_, values l r' later onLeft onRight'⟩
    rw [evaluated, loaded]
    exact ⟨old.grow onLeft onRight', base.le_refl, .inl⟩

/-- Code that writes other temporaries may follow. -/
theorem extend (computes : Computes arguments heap base S next middle xs load evaluate)
    (ahead : middle ≤ start) (writes : Writes start last ys) :
    Computes arguments heap base S next last (xs ++ ys) load evaluate where
  evaluated := computes.evaluated
  loaded := computes.loaded
  agrees := by
    intro l r temps later r' onLeft onRight ready same grows
    have early : Ready next middle temps :=
      ready.narrow (Nat.le_refl _) (Nat.le_trans ahead writes.ordered)
    have before := writes.left_behind ahead same
    rw [Statement.runAll_append] at grows ⊢
    have more := Statement.grows_runAll arguments ys (Statement.runAll arguments xs temps r).1
      (Statement.runAll arguments xs temps r).2
    obtain ⟨δ, meets, values⟩ :=
      computes.agrees later r' onLeft onRight early before (more.trans grows)
    refine ⟨δ, meets.widen (fun _ built => built) fun h built => built.imp_left ?_, values⟩
    intro built
    exact ⟨built.1, Nat.lt_of_lt_of_le built.2 more.size⟩

/-- What is done with the results alike keeps them alike. -/
theorem andThen (computes : Computes arguments heap base S next last xs load evaluate)
    (f : α → Heap → β × Heap) (grows : ∀ a (h : Heap), h.Grows (f a h).2)
    (alike : ∀ {δ l r a b}, Heap.Alike δ l r → S δ a b →
      ∃ δ', Heap.Lockstep δ δ' l (f a l).2 r (f b r).2 ∧ T δ' (f a l).1 (f b r).1) :
    Computes arguments heap base T next last xs
      (fun temps r => f (load temps r).1 (load temps r).2)
      (fun l => f (evaluate l).1 (evaluate l).2) where
  evaluated := fun l => (computes.evaluated l).trans (grows _ _)
  loaded := fun temps r => (computes.loaded temps r).trans (grows _ _)
  agrees := by
    intro l r temps later r' onLeft onRight ready same after
    obtain ⟨δ, meets, values⟩ := computes.agrees later r' onLeft onRight ready same after
    obtain ⟨δ', lockstep, values'⟩ := alike meets.alike values
    refine ⟨δ', (meets.step lockstep).widen (fun h built => ?_) (fun h built => ?_), values'⟩
    · rcases built with built | built
      · exact ⟨built.1, Nat.lt_of_lt_of_le built.2 lockstep.left.size⟩
      · exact ⟨Nat.le_trans (computes.evaluated l).size built.1, built.2⟩
    · rcases built with (built | built) | built
      · exact .inl built
      · exact .inr ⟨built.1, Nat.lt_of_lt_of_le built.2 lockstep.right.size⟩
      · exact .inr ⟨Nat.le_trans (computes.loaded later r').size built.1, built.2⟩

/-- The code of two parts, one after the other, and their results loaded one after the other. -/
theorem both (old : Heap.Alike base heap heap)
    (mono : ∀ {δ δ' a b}, δ ≤ δ' → S δ a b → S δ' a b)
    (mono' : ∀ {δ δ' a b}, δ ≤ δ' → T δ a b → T δ' a b)
    (first : Computes arguments heap base S next middle xs load evaluate)
    (writes : Writes next middle xs) (ahead : middle ≤ start)
    (second : Computes arguments heap base T start last ys load' evaluate')
    (writes' : Writes start last ys) :
    Computes arguments heap base (fun δ a b => S δ a.1 b.1 ∧ T δ a.2 b.2) next last
      (xs ++ ys)
      (fun temps r =>
        let (a, r) := load temps r
        let (b, r) := load' temps r
        ((a, b), r))
      (fun l =>
        let (a, l) := evaluate l
        let (b, l) := evaluate' l
        ((a, b), l)) where
  evaluated := fun l => (first.evaluated l).trans (second.evaluated _)
  loaded := fun temps r => (first.loaded temps r).trans (second.loaded temps _)
  agrees := by
    intro l r temps later r' onLeft onRight ready same grows
    have early : Ready next middle temps :=
      ready.narrow (Nat.le_refl _) (Nat.le_trans ahead writes'.ordered)
    have before := writes'.left_behind ahead same
    rw [Statement.runAll_append] at same grows ⊢
    have grown := Statement.grows_runAll arguments xs temps r
    have grown' := Statement.grows_runAll arguments ys (Statement.runAll arguments xs temps r).1
      (Statement.runAll arguments xs temps r).2
    have ready' := (ready.after writes arguments r).narrow ahead (Nat.le_refl _)
    obtain ⟨δ, meets, values⟩ :=
      first.agrees later r' onLeft onRight early before (grown'.trans grows)
    obtain ⟨δ', meets', values'⟩ := second.agrees later (load later r').2
      (onLeft.trans (first.evaluated l)) (onRight.trans grown) ready'
      (fun i above below => same i (Nat.le_trans writes.ordered (Nat.le_trans ahead above)) below)
      (grows.trans (first.loaded later r'))
    have grownLeft := first.evaluated l
    have grownLeft' := second.evaluated (evaluate l).2
    have grownLoad := first.loaded later r'
    have grownLoad' := second.loaded later (load later r').2
    -- the heaps in the order in which they grow
    have sizes := And.intro onLeft.size (And.intro grownLeft.size grownLeft'.size)
    have sizes' := And.intro onRight.size (And.intro grown.size (And.intro grown'.size
      (And.intro grows.size (And.intro grownLoad.size grownLoad'.size))))
    obtain ⟨δ'', joined, includes, includes'⟩ :=
      (meets.grow grownLeft' grownLoad').join old meets'
        (by simp only [Heap.Built]; omega) (by simp only [Heap.Built]; omega)
        (by simp only [Heap.Built]; omega)
    refine ⟨δ'', joined.widen ?_ ?_, mono includes values, mono' includes' values'⟩
    · simp only [Heap.Built]
      omega
    · simp only [Heap.Built]
      omega

/-- A guarded read into a temporary that the code before it leaves alone. The guard loads the
holder for itself, so what it builds is garbage. -/
theorem guarded {holder evaluate : Heap → Value × Heap} {operand : Operand} {read : Read} {id : Nat}
    (old : Heap.Alike base heap heap)
    (test : Computes arguments heap base Value.Alike next last xs
      (fun temps r => operand.load arguments temps r) holder)
    (value : Computes arguments heap base Value.Alike next last xs
      (fun temps r => read.value arguments temps r) evaluate)
    (own : next ≤ id ∧ id < last) (unwritten : ∀ statement ∈ xs, statement.target ≠ id) :
    Computes arguments heap base Value.Alike next last (xs ++ [⟨.truthy operand, id, read⟩])
      (fun temps r => (Operand.temp id).load arguments temps r)
      (fun l => if (holder l).1.isTruthy then evaluate l else (.undefined, (holder l).2)) where
  evaluated := by
    intro l
    split
    · exact value.evaluated l
    · exact test.evaluated l
  loaded := fun _ _ => .refl _ _
  agrees := by
    intro l r temps later r' onLeft onRight ready same grows
    rw [Statement.runAll_append] at same grows ⊢
    have grown := Statement.grows_runAll arguments xs temps r
    have unset := Statement.getElem?_runAll arguments unwritten temps r
    rw [ready.unset id own.1 own.2] at unset
    have length := Statement.length_runAll arguments xs temps r
    have agreeTest := test.agrees _ _ onLeft onRight ready (fun _ _ _ => rfl) (.refl _ _)
    have agreeValue := fun r₃ => value.agrees _ r₃ onLeft onRight ready (fun _ _ _ => rfl)
    generalize Statement.runAll arguments xs temps r = ran at *
    obtain ⟨slots, r₂⟩ := ran
    simp only at unset length grown agreeTest agreeValue
    obtain ⟨_, _, holders⟩ := agreeTest
    have tested := operand.grows_load arguments slots r₂
    have loaded : (Operand.temp id).load arguments later r' = ((later[id]?).getD .undefined, r') :=
      rfl
    rw [loaded, same id own.1 own.2]
    simp only [Statement.runAll, Statement.run, Test.holds, ← holders.isTruthy_eq] at same grows ⊢
    by_cases truthy : (holder l).1.isTruthy = true
    · simp only [truthy, if_true] at grows ⊢
      obtain ⟨δ, meets, values⟩ := agreeValue _ tested
      have here : id < slots.length := by
        have room := ready.room
        omega
      rw [List.getElem?_set_self here]
      have more := read.grows_value arguments slots (operand.load arguments slots r₂).2
      refine ⟨δ, (meets.grow (.refl _ _) grows).widen (fun _ built => built) fun h built => ?_,
        values⟩
      rcases built with built | built
      · exact .inl ⟨built.1, Nat.lt_of_lt_of_le built.2 (tested.trans more).size⟩
      · exact .inl ⟨Nat.le_trans (grown.trans tested).size built.1, built.2⟩
    · simp only [truthy, Bool.false_eq_true, if_false] at grows ⊢
      rw [unset]
      have onLeft' := onLeft.trans (test.evaluated l)
      have onRight' := (onRight.trans grown).trans (tested.trans grows)
      exact ⟨base, ⟨old.grow onLeft' onRight', base.le_refl, .inl⟩, .undefined⟩

end Computes

/-! The rules of the evaluation in the words of programs. -/
namespace Expression

/-- The tests of the two statements of a name choose what the name is read from. -/
theorem lookup_eq (arguments : Arguments) (heap : Heap) (name : String) :
    lookup arguments heap name =
      if arguments.localsHave heap name then heap.member (arguments.locals.getD .undefined) name
      else if arguments.contextPresent then heap.member (arguments.context.getD .undefined) name
      else .undefined := by
  have locals := Option.isSome_filter (o := arguments.locals)
    (p := fun locals => locals.isTruthy && heap.hasKey locals name)
  have context := Option.isSome_filter (o := arguments.context) (p := Value.isTruthy)
  rw [lookup, Arguments.localsHave, Arguments.contextPresent, ← locals, ← context]
  split
  · rename_i holder found
    rw [found, (Option.filter_eq_some_iff.1 found).1]
    rfl
  · rename_i absent
    rw [absent]
    split
    · rename_i holder found
      rw [found, (Option.filter_eq_some_iff.1 found).1]
      rfl
    · rename_i absent'
      rw [absent']
      rfl

/-- To insert entries one after another keeps each name in its first place with its last value. -/
theorem membersOf_eq (entries : List (String × Value)) :
    membersOf entries = Members.ofEntries entries := by
  have same := (Members.ofEntries entries).entries_eq_map_keys .undefined
  simp only [Members.keys_ofEntries, Members.get?_ofEntries] at same
  rw [Members.mk.injEq, same]
  rfl

variable (arguments : Arguments) (heap : Heap)

theorem evaluate_literal (value : Literal) :
    evaluate arguments heap (.literal value) = (value.value, heap) := by
  cases value <;> rfl

theorem evaluate_object (properties : List (String × Expression)) :
    evaluate arguments heap (.object properties) =
      (evaluateProperties arguments heap properties).2.newObject
        (evaluateProperties arguments heap properties).1 := by
  rw [Heap.newObject, ← membersOf_eq]
  rfl

end Expression

theorem Expression.lookup_alike {ρ : Pairing} {l r : Heap} {left right : Arguments}
    (heaps : Heap.Alike ρ l r) (arguments : left.Alike ρ right) (name : String) :
    (lookup left l name).Alike ρ (lookup right r name) := by
  rw [lookup_eq, lookup_eq, arguments.localsHave_eq heaps name, arguments.contextPresent_eq]
  split
  · exact heaps.member (.getD_of_rel arguments.locals) name
  · split
    · exact heaps.member (.getD_of_rel arguments.context) name
    · exact .undefined

/-- The two statements of a name read what the name means. -/
theorem runAll_lookupStatements (arguments : Arguments) (id : Nat) (name : String)
    (temps : List Value) (heap : Heap) (unset : temps[id]? = some .undefined) :
    (Statement.runAll arguments (lookupStatements id name) temps heap).2 = heap ∧
      (Statement.runAll arguments (lookupStatements id name) temps heap).1[id]? =
        some (Expression.lookup arguments heap name) := by
  obtain ⟨here, there⟩ := List.getElem?_eq_some_iff.1 unset
  rw [Expression.lookup_eq]
  simp only [lookupStatements, Statement.runAll, Statement.run, Test.holds, Read.value,
    Operand.load]
  by_cases found : arguments.localsHave heap name = true
  · simp [found, here]
  · by_cases present : arguments.contextPresent = true <;> simp [found, present, here, there]

namespace Expression

variable {arguments : Arguments} {heap : Heap} {base : Pairing}

theorem computes_identifier (old : Heap.Alike base heap heap)
    (given : arguments.Alike base arguments) (next : Nat) (name : String) :
    Computes arguments heap base Value.Alike next (next + 1) (lookupStatements next name)
      (fun temps r => (Operand.temp next).load arguments temps r)
      (fun l => (lookup arguments l name, l)) where
  evaluated := fun _ => .refl _ _
  loaded := fun _ _ => .refl _ _
  agrees := by
    intro l r temps later r' onLeft onRight ready same grows
    have unset := ready.unset next (Nat.le_refl _) (Nat.lt_succ_self _)
    obtain ⟨still, found⟩ := runAll_lookupStatements arguments next name temps r unset
    have here := same next (Nat.le_refl _) (Nat.lt_succ_self _)
    rw [found] at here
    rw [still] at grows
    have loaded : (Operand.temp next).load arguments later r' = (lookup arguments r name, r') := by
      simp only [Operand.load, here, Option.getD_some]
    rw [loaded]
    have heaps := old.grow onLeft onRight
    exact ⟨base, ⟨old.grow onLeft (onRight.trans grows), base.le_refl, .inl⟩,
      lookup_alike heaps given name⟩

theorem evaluate_member (l : Heap) (holder property : Expression) (computed : Bool) :
    evaluate arguments l (.member holder property computed) =
      if (evaluate arguments l holder).1.isTruthy then
        match fixedName? property computed with
        | some name => ((evaluate arguments l holder).2.member (evaluate arguments l holder).1 name,
            (evaluate arguments l holder).2)
        | none =>
          let (key, heap) := evaluate arguments (evaluate arguments l holder).2 property
          (heap.memberAt (evaluate arguments l holder).1 key, heap)
      else (.undefined, (evaluate arguments l holder).2) := by
  cases property <;> cases computed <;> rfl

mutual

/-- What is generated from an expression computes its value. -/
theorem computes_generateFrom (old : Heap.Alike base heap heap)
    (given : arguments.Alike base arguments) (next : Nat) (e : Expression) :
    Computes arguments heap base Value.Alike next (e.generateFrom next).next
      (e.generateFrom next).body
      (fun temps r => (e.generateFrom next).operand.load arguments temps r)
      (fun l => e.evaluate arguments l) := by
  cases e with
  | program body =>
    exact computes_generateFrom old given next body
  | literal value =>
    simp only [evaluate_literal]
    refine .immediate old (fun _ => rfl) (fun _ _ => rfl) fun _ _ _ _ _ => .leaf ?_
    cases value <;> rfl
  | array elements =>
    exact (computes_generateElements old given next elements).andThen
      (fun items h => h.newArray items) (fun _ _ => Heap.grows_alloc _ _)
      fun heaps items => heaps.newArray items
  | object properties =>
    simp only [evaluate_object]
    exact (computes_generateProperties old given next properties).andThen
      (fun entries h => h.newObject entries) (fun _ _ => Heap.grows_alloc _ _)
      fun heaps entries => heaps.newObject entries
  | identifier name =>
    exact computes_identifier old given next name
  | this =>
    exact .immediate old (fun _ => rfl) (fun _ _ => rfl) fun _ _ _ _ _ =>
      .getD_of_rel given.context
  | locals =>
    exact .immediate old (fun _ => rfl) (fun _ _ => rfl) fun _ _ _ _ _ =>
      .getD_of_rel given.locals
  | member holder property computed =>
    have left := computes_generateFrom old given next holder
    have key := computes_generateFrom old given ((holder.generateFrom next).next + 1) property
    have inLeft := (allocates_generateFrom next holder).fills.writes
    have inKey := (allocates_generateFrom ((holder.generateFrom next).next + 1) property).fills.writes
    simp only [evaluate_member, generateFrom]
    cases fixedName? property computed with
    | some name =>
      have ready := left.extend (Nat.le_succ _) (Writes.nil ((holder.generateFrom next).next + 1))
      have read := ready.andThen (T := Value.Alike) (fun v h => (h.member v name, h))
        (fun _ _ => .refl _ _) fun heaps values => ⟨_, .refl heaps, heaps.member values name⟩
      simp only [List.append_nil] at ready read
      refine Computes.guarded old ready read ⟨inLeft.ordered, Nat.lt_succ_self _⟩ ?_
      intro statement mem
      exact Nat.ne_of_lt (inLeft.targets statement mem).2
    | none =>
      have ready := left.extend (Nat.le_succ _) inKey
      have read := (Computes.both old .mono .mono left inLeft (Nat.le_succ _) key inKey).andThen
        (T := Value.Alike) (fun pair h => (h.memberAt pair.1 pair.2, h))
        (fun _ _ => .refl _ _) fun heaps pair => ⟨_, .refl heaps, heaps.memberAt pair.1 pair.2⟩
      refine Computes.guarded old ready read ⟨inLeft.ordered, inKey.ordered⟩ ?_
      intro statement mem
      rcases List.mem_append.1 mem with mem | mem
      · exact Nat.ne_of_lt (inLeft.targets statement mem).2
      · exact Nat.ne_of_gt (inKey.targets statement mem).1

theorem computes_generateElements (old : Heap.Alike base heap heap)
    (given : arguments.Alike base arguments) (next : Nat) (elements : List Expression) :
    Computes arguments heap base (fun δ => List.Forall₂ (Value.Alike δ)) next
      (generateElements next elements).next (generateElements next elements).body
      (fun temps r => Operand.loadElements arguments temps r (generateElements next elements).operand)
      (fun l => evaluateElements arguments l elements) := by
  cases elements with
  | nil => exact .immediate old (fun _ => rfl) (fun _ _ => rfl) fun _ _ _ _ _ => .nil
  | cons element rest =>
    have first := computes_generateFrom old given next element
    have others := computes_generateElements old given (element.generateFrom next).next rest
    exact (Computes.both (T := fun δ => List.Forall₂ (Value.Alike δ)) old .mono
      Value.Alike.all_mono first (allocates_generateFrom next element).fills.writes (Nat.le_refl _)
      others (allocates_generateElements _ rest).fills.writes).andThen
      (fun pair h => (pair.1 :: pair.2, h)) (fun _ _ => .refl _ _)
      fun heaps pair => ⟨_, .refl heaps, .cons pair.1 pair.2⟩

theorem computes_generateProperties (old : Heap.Alike base heap heap)
    (given : arguments.Alike base arguments) (next : Nat) (properties : List (String × Expression)) :
    Computes arguments heap base (fun δ => List.Forall₂ (EntryAlike δ)) next
      (generateProperties next properties).next (generateProperties next properties).body
      (fun temps r => Operand.loadEntries arguments temps r (generateProperties next properties).operand)
      (fun l => evaluateProperties arguments l properties) := by
  cases properties with
  | nil => exact .immediate old (fun _ => rfl) (fun _ _ => rfl) fun _ _ _ _ _ => .nil
  | cons property rest =>
    obtain ⟨name, value⟩ := property
    have first := computes_generateFrom old given next value
    have others := computes_generateProperties old given (value.generateFrom next).next rest
    exact (Computes.both (T := fun δ => List.Forall₂ (EntryAlike δ)) old .mono EntryAlike.all_mono
      first (allocates_generateFrom next value).fills.writes (Nat.le_refl _) others
      (allocates_generateProperties _ rest).fills.writes).andThen
      (fun pair h => ((name, pair.1) :: pair.2, h)) (fun _ _ => .refl _ _)
      fun heaps pair => ⟨_, .refl heaps, .cons ⟨rfl, pair.1⟩ pair.2⟩

end

end Expression

/-- The values that are given. -/
def Arguments.values (arguments : Arguments) : List Value :=
  arguments.context.toList ++ arguments.locals.toList

theorem Arguments.alike_identity {arguments : Arguments} {kept : Handle → Prop}
    (mem : ∀ v ∈ arguments.values, v.Within kept) : arguments.Alike (.identity kept) arguments := by
  obtain ⟨context, locals⟩ := arguments
  constructor
  · cases context with
    | none => exact .none
    | some v => exact .some (Value.alike_identity (mem v (by simp [values])))
  · cases locals with
    | none => exact .none
    | some v => exact .some (Value.alike_identity (mem v (by simp [values])))

/-- Calling the accessor generated from an expression gives what the expression means, up to the
identity of containers that the call or the evaluation built. Containers from the arguments are
the same on both sides, and neither side changes what was there. -/
theorem Accessor.run_ofExpression (arguments : Arguments) (heap : Heap)
    (holds : heap.Holds arguments.values) (e : Expression) (source : Option String) :
    ∃ ρ : Pairing,
      (e.evaluate arguments heap).1.Alike ρ
        ((Accessor.mk source (.ofExpression e)).run arguments heap).1 ∧
      Heap.Alike ρ (e.evaluate arguments heap).2
        ((Accessor.mk source (.ofExpression e)).run arguments heap).2 ∧
      (∀ h ∈ heap.reached arguments.values, ρ.pairs h h) ∧
      (∀ a b, ρ.pairs a b → a = b ∧ a ∈ heap.reached arguments.values ∨
        heap.size ≤ a.index ∧ heap.size ≤ b.index) ∧
      heap.Grows (e.evaluate arguments heap).2 ∧
      heap.Grows ((Accessor.mk source (.ofExpression e)).run arguments heap).2 := by
  have given : arguments.Alike (.identity (· ∈ heap.reached arguments.values)) arguments :=
    Arguments.alike_identity fun v mem => Heap.reached_roots mem
  have computes := Expression.computes_generateFrom holds.alike given 0 e
  have ready := Ready.start e
  have grown := Statement.grows_runAll arguments (e.generateFrom 0).body
    (List.replicate (Program.ofExpression e).tempCount Value.undefined) heap
  obtain ⟨ρ, meets, values⟩ := computes.agrees _ _ (.refl _ heap) (.refl _ heap) ready
    (fun _ _ _ => rfl) (.refl _ _)
  refine ⟨ρ, values, meets.alike, fun h mem => meets.larger _ _ ⟨rfl, mem⟩, fun a b pair => ?_,
    computes.evaluated heap, Program.grows_run _ arguments heap⟩
  refine (meets.fresh pair).imp (fun same => same) fun built => ⟨built.1.1, ?_⟩
  exact built.2.elim And.left fun late => Nat.le_trans grown.size late.1

/-- A context that holds itself, and locals that shadow two of its names, one of them with
undefined. The call builds `[this]` twice, for the guard and for the read, so the two results are
different containers; the key that is written twice keeps its first place. -/
theorem Accessor.run_ofExpression_shadowed :
    let heap : Heap := ⟨#[
      .object (.ofEntries [("a", .container ⟨0⟩), ("b", .string "outer"), ("c", .string "outer")]),
      .object (.ofEntries [("b", .string "inner"), ("c", .undefined)])]⟩
    let arguments : Arguments := ⟨some (.container ⟨0⟩), some (.container ⟨1⟩)⟩
    let e : Expression := .object [("k", .literal .null), ("a", .identifier "a"),
      ("b", .identifier "b"), ("c", .identifier "c"),
      ("d", .member (.identifier "a") (.literal (.string "b")) true),
      ("e", .member (.literal (.string "")) (.identifier "length") false),
      ("k", .array [.member (.array [.this]) (.identifier "length") false])]
    let compiled := (Accessor.mk none (.ofExpression e)).run arguments heap
    heap.Holds arguments.values ∧ (e.evaluate arguments heap).1 = .container ⟨4⟩ ∧
      compiled.1 = .container ⟨5⟩ ∧
      (compiled.2.members? ⟨5⟩).map Members.entries = some [("k", .container ⟨4⟩),
        ("a", .container ⟨0⟩), ("b", .string "inner"), ("c", .undefined), ("d", .string "outer"),
        ("e", .undefined)] ∧
      compiled.2.items? ⟨4⟩ = some [.number (.ofNat 1)] ∧
      ∃ ρ : Pairing, ρ.pairs ⟨4⟩ ⟨5⟩ ∧ ρ.pairs ⟨0⟩ ⟨0⟩ ∧
        Heap.Alike ρ (e.evaluate arguments heap).2 compiled.2 := by
  intro heap arguments e compiled
  have holds : heap.Holds arguments.values := by
    refine Heap.holds_of_closed ?_ ?_
    · rintro v mem h rfl
      have either : h = ⟨0⟩ ∨ h = ⟨1⟩ := by simpa [arguments, Arguments.values] using mem
      rcases either with rfl | rfl <;> decide
    · rintro ⟨index⟩ inside child mem c rfl
      obtain rfl | rfl : index = 0 ∨ index = 1 := by
        have : index < 2 := inside
        omega
      · have root : c = ⟨0⟩ := by
          simpa [heap, Heap.children, Heap.cell, Cell.children, Members.values, Members.ofEntries,
            Members.insert, Members.put, Members.empty] using mem
        rw [root]
        decide
      · simp [heap, Heap.children, Heap.cell, Cell.children, Members.values, Members.ofEntries,
          Members.insert, Members.put, Members.empty] at mem
  have direct : (e.evaluate arguments heap).1 = .container ⟨4⟩ := rfl
  have called : compiled.1 = .container ⟨5⟩ := rfl
  refine ⟨holds, direct, called, rfl, rfl, ?_⟩
  obtain ⟨ρ, values, heaps, shared, _⟩ := Accessor.run_ofExpression arguments heap holds e none
  rw [direct, show _ = _ from called] at values
  have root : (⟨0⟩ : Handle) ∈ heap.reached arguments.values :=
    Heap.reached_roots List.mem_cons_self _ rfl
  cases values with
  | container pair => exact ⟨ρ, pair, shared _ root, heaps⟩

end DataBinding
