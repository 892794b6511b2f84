import DataBinding.Proofs.Compilation
import DataBinding.Proofs.Places

/-! Calls change nothing and share nothing that they make. The containers in a result are given
ones or made for literals of the expression, and one that is made stands at one place only: what
is made for different parts lies in different stretches of the heap, and of a value that is made a
read keeps one child. All this is shown of the direct evaluation and carried over to the compiled
program by the pairing of the two results. -/
namespace DataBinding

namespace Members

/-- The names of members and their order are decided by the names inserted. -/
theorem keys_ofEntries_congr {α β : Type} {es : List (String × α)} {fs : List (String × β)}
    (same : es.map Prod.fst = fs.map Prod.fst) : (ofEntries es).keys = (ofEntries fs).keys := by
  rw [keys_ofEntries, keys_ofEntries, same]

end Members

theorem EntryAlike.names_eq {ρ : Pairing} {es fs : List (String × Value)}
    (alike : List.Forall₂ (EntryAlike ρ) es fs) : es.map Prod.fst = fs.map Prod.fst := by
  induction alike with
  | nil => rfl
  | cons entry _ ih => rw [List.map_cons, List.map_cons, entry.1, ih]

namespace Heap

variable {heap l l' : Heap} {given : Handle → Prop} {spelled : Cell → Prop}
variable {first middle last : Nat} {v w : Value} {vs ws : List Value} {h : Handle}

/-- The containers in a value are given, or made in a stretch of the heap as it is spelled, each
at one place. -/
structure Fresh (heap : Heap) (given : Handle → Prop) (spelled : Cell → Prop)
    (first last : Nat) (v : Value) : Prop where
  made : ∀ {place h}, heap.valueAt? v place = some (.container h) → ¬ given h →
    first ≤ h.index ∧ h.index < last ∧ spelled (heap.cell h)
  once : ∀ {place place' h}, heap.valueAt? v place = some (.container h) → ¬ given h →
    heap.valueAt? v place' = some (.container h) → place = place'

/-- All that two values share is given. -/
def Apart (heap : Heap) (given : Handle → Prop) (v w : Value) : Prop :=
  ∀ place place' h, heap.valueAt? v place = some (.container h) →
    heap.valueAt? w place' = some (.container h) → given h

structure AllFresh (heap : Heap) (given : Handle → Prop) (spelled : Cell → Prop)
    (first last : Nat) (vs : List Value) : Prop where
  each : ∀ v ∈ vs, heap.Fresh given spelled first last v
  apart : vs.Pairwise (heap.Apart given)

theorem Apart.symm (apart : heap.Apart given v w) : heap.Apart given w v :=
  fun place place' h found found' => apart place' place h found' found

namespace Fresh

theorem of_within (zone : heap.Zone given) (within : v.Within given) :
    heap.Fresh given spelled first last v where
  made := fun found new => absurd (zone.valueAt? within found) new
  once := fun found new => absurd (zone.valueAt? within found) new

theorem widen {first' last' : Nat} (fresh : heap.Fresh given spelled first last v)
    (low : first' ≤ first) (high : last ≤ last') : heap.Fresh given spelled first' last' v where
  made := by
    intro place h found new
    obtain ⟨from', below, shape⟩ := fresh.made found new
    exact ⟨Nat.le_trans low from', Nat.lt_of_lt_of_le below high, shape⟩
  once := fresh.once

theorem inside (fresh : heap.Fresh given spelled first last v) (zone : heap.Zone given)
    (bound : last ≤ heap.size) (place : List Nat) (h : Handle)
    (found : heap.valueAt? v place = some (.container h)) : h.index < heap.size := by
  by_cases old : given h
  · exact zone.inside h old
  · exact Nat.lt_of_lt_of_le (fresh.made found old).2.1 bound

theorem grow (fresh : l.Fresh given spelled first last v) (zone : l.Zone given)
    (bound : last ≤ l.size) (grows : l.Grows l') : l'.Fresh given spelled first last v := by
  have inside := fresh.inside zone bound
  have same := grows.valueAt? inside
  constructor
  · intro place h found new
    rw [same] at found
    rw [grows.cell (inside place h found) trivial]
    exact fresh.made found new
  · intro place place' h found new found'
    rw [same] at found found'
    exact fresh.once found new found'

theorem child (fresh : heap.Fresh given spelled first last (.container h))
    (mem : w ∈ heap.children h) : heap.Fresh given spelled first last w := by
  obtain ⟨i, here⟩ := List.mem_iff_getElem?.mp mem
  have below (place : List Nat) :
      heap.valueAt? w place = heap.valueAt? (.container h) (i :: place) := (valueAt?_child here).symm
  constructor
  · intro place c found new
    rw [below] at found
    exact fresh.made found new
  · intro place place' c found new found'
    rw [below] at found found'
    exact (List.cons.inj (fresh.once found new found')).2

theorem yielded (fresh : heap.Fresh given spelled first last v) (zone : heap.Zone given)
    (yields : heap.Yields v w) : heap.Fresh given spelled first last w := by
  rcases yields with plain | ⟨h, rfl, child⟩
  · refine .of_within zone ?_
    rintro h rfl
    cases plain
  · exact fresh.child child

/-- What is made in different stretches is different. -/
theorem apart {first' last' : Nat} (fresh : heap.Fresh given spelled first last v)
    (fresh' : heap.Fresh given spelled first' last' w) (ahead : last ≤ first') :
    heap.Apart given v w := by
  intro place place' h found found'
  by_contra new
  have before := (fresh.made found new).2.1
  have behind := (fresh'.made found' new).1
  omega

end Fresh

namespace AllFresh

theorem nil : heap.AllFresh given spelled first last [] := ⟨by simp, .nil⟩

theorem cons (fresh : heap.Fresh given spelled first middle v)
    (others : heap.AllFresh given spelled middle last vs) (low : first ≤ middle)
    (high : middle ≤ last) : heap.AllFresh given spelled first last (v :: vs) where
  each := by
    intro w mem
    rcases List.mem_cons.mp mem with rfl | mem
    · exact fresh.widen (Nat.le_refl _) high
    · exact (others.each w mem).widen low (Nat.le_refl _)
  apart := .cons (fun w mem => fresh.apart (others.each w mem) (Nat.le_refl _)) others.apart

theorem fewer (all : heap.AllFresh given spelled first last vs) (some : ws.Subperm vs) :
    heap.AllFresh given spelled first last ws where
  each := fun v mem => all.each v (some.subset mem)
  apart := by
    obtain ⟨us, perm, sublist⟩ := some
    exact (all.apart.sublist sublist).perm perm Apart.symm

theorem grow (all : l.AllFresh given spelled first last vs) (zone : l.Zone given)
    (bound : last ≤ l.size) (grows : l.Grows l') : l'.AllFresh given spelled first last vs where
  each := fun v mem => (all.each v mem).grow zone bound grows
  apart := by
    refine all.apart.imp_of_mem fun {v w} memV memW apart place place' h found found' => ?_
    rw [grows.valueAt? ((all.each v memV).inside zone bound)] at found
    rw [grows.valueAt? ((all.each w memW).inside zone bound)] at found'
    exact apart place place' h found found'

/-- Where children are apart, what they share at different positions is given. -/
theorem position (all : heap.AllFresh given spelled first last vs) {i j : Nat}
    (here : vs[i]? = some v) (there : vs[j]? = some w) {place place' : List Nat}
    (found : heap.valueAt? v place = some (.container h)) (new : ¬ given h)
    (found' : heap.valueAt? w place' = some (.container h)) : i = j := by
  obtain ⟨below, rfl⟩ := List.getElem?_eq_some_iff.mp here
  obtain ⟨below', rfl⟩ := List.getElem?_eq_some_iff.mp there
  have apart := List.pairwise_iff_getElem.mp all.apart
  rcases Nat.lt_trichotomy i j with ahead | same | behind
  · exact absurd (apart i j below below' ahead place place' h found found') new
  · exact same
  · exact absurd (apart j i below' below behind place' place h found' found) new

/-- A new container with children that are fresh and apart. -/
theorem alloc {cell : Cell} (all : heap.AllFresh given spelled first heap.size cell.children)
    (zone : heap.Zone given) (low : first ≤ heap.size) (shape : spelled cell) :
    (heap.alloc cell).2.Fresh given spelled first (heap.alloc cell).2.size
      (.container (heap.alloc cell).1) := by
  have more := all.grow zone (Nat.le_refl _) (grows_alloc heap cell)
  have cells : (heap.alloc cell).2.cell (heap.alloc cell).1 = cell := cell_alloc_self heap cell
  have children : (heap.alloc cell).2.children (heap.alloc cell).1 = cell.children :=
    congrArg Cell.children cells
  have size : (heap.alloc cell).2.size = heap.size + 1 := size_alloc heap cell
  have index : (heap.alloc cell).1.index = heap.size := rfl
  generalize (heap.alloc cell).2 = after at *
  generalize (heap.alloc cell).1 = root at *
  -- what stands below the root is older than the root
  have below {i : Nat} {place : List Nat} {h : Handle}
      (found : after.valueAt? (.container root) (i :: place) = some (.container h)) :
      ∃ child, cell.children[i]? = some child ∧ after.valueAt? child place = some (.container h) := by
    obtain ⟨_, child, ⟨⟩, here, found⟩ := valueAt?_cons_eq_some found
    exact ⟨child, children ▸ here, found⟩
  have older {i : Nat} {place : List Nat} {h : Handle} (new : ¬ given h)
      (found : after.valueAt? (.container root) (i :: place) = some (.container h)) :
      h ≠ root := by
    obtain ⟨child, here, found⟩ := below found
    have bound := ((more.each child (List.mem_of_getElem? here)).made found new).2.1
    rintro rfl
    omega
  have isRoot {h : Handle} (found : after.valueAt? (.container root) [] = some (.container h)) :
      h = root := by
    rw [valueAt?_nil] at found
    exact (Value.container.inj (Option.some.inj found)).symm
  constructor
  · intro place h found new
    cases place with
    | nil =>
      rw [isRoot found, cells, index, size]
      exact ⟨low, Nat.lt_succ_self _, shape⟩
    | cons i place =>
      obtain ⟨child, here, found⟩ := below found
      have larger : heap.size ≤ after.size := by omega
      have fresh := more.each child (List.mem_of_getElem? here)
      exact (fresh.widen (Nat.le_refl _) larger).made found new
  · intro place place' h found new found'
    cases place with
    | nil =>
      cases place' with
      | nil => rfl
      | cons j place' => exact absurd (isRoot found) (older new found')
    | cons i place =>
      cases place' with
      | nil => exact absurd (isRoot found') (older new found)
      | cons j place' =>
        obtain ⟨child, here, found⟩ := below found
        obtain ⟨child', there, found'⟩ := below found'
        obtain rfl := more.position here there found new found'
        obtain rfl := Option.some.inj (here.symm.trans there)
        rw [(more.each child (List.mem_of_getElem? here)).once found new found']

end AllFresh

/-- A heap grown by what a value took to make, and the value fresh in it. -/
structure Makes (given : Handle → Prop) (spelled : Cell → Prop) (before : Heap)
    (made : Value × Heap) : Prop where
  grows : before.Grows made.2
  fresh : made.2.Fresh given spelled before.size made.2.size made.1

structure MakesAll (given : Handle → Prop) (spelled : Cell → Prop) (before : Heap)
    (vs : List Value) (after : Heap) : Prop where
  grows : before.Grows after
  fresh : after.AllFresh given spelled before.size after.size vs

theorem Makes.of_within (zone : heap.Zone given) (within : v.Within given) :
    heap.Makes given spelled (v, heap) :=
  ⟨.refl _ _, .of_within zone within⟩

theorem Grows.zone (grows : l.Grows l') (zone : l.Zone given) : l'.Zone given :=
  zone.keeps grows.keeps

/-- A first value and then others. -/
theorem Makes.cons {made : Value × Heap} {after : Heap} (zone : heap.Zone given)
    (makes : heap.Makes given spelled made) (others : made.2.MakesAll given spelled vs after) :
    heap.MakesAll given spelled (made.1 :: vs) after where
  grows := makes.grows.trans others.grows
  fresh := by
    have still := makes.fresh.grow (makes.grows.zone zone) (Nat.le_refl _) others.grows
    exact .cons still others.fresh makes.grows.size others.grows.size

theorem MakesAll.alloc {cell : Cell} {after : Heap} (zone : heap.Zone given)
    (makes : heap.MakesAll given spelled cell.children after) (shape : spelled cell) :
    heap.Makes given spelled (.container (after.alloc cell).1, (after.alloc cell).2) where
  grows := makes.grows.trans (grows_alloc after cell)
  fresh := makes.fresh.alloc (makes.grows.zone zone) makes.grows.size shape

theorem MakesAll.newArray {after : Heap} (zone : heap.Zone given)
    (makes : heap.MakesAll given spelled vs after) (shape : spelled (.array vs)) :
    heap.Makes given spelled (after.newArray vs) := by
  have children : heap.MakesAll given spelled (Cell.array vs).children after := makes
  exact children.alloc zone shape

theorem MakesAll.newObject {after : Heap} {entries : List (String × Value)}
    (zone : heap.Zone given) (makes : heap.MakesAll given spelled (entries.map Prod.snd) after)
    (shape : spelled (.object (Members.ofEntries entries))) :
    heap.Makes given spelled (after.newObject entries) := by
  have children : heap.MakesAll given spelled (Cell.object (.ofEntries entries)).children after :=
    ⟨makes.grows, makes.fresh.fewer (Members.values_ofEntries_subperm entries)⟩
  exact children.alloc zone shape

/-- A read of what was made, possibly after more was made. -/
theorem Makes.read {made : Value × Heap} {after : Heap} (zone : heap.Zone given)
    (makes : heap.Makes given spelled made) (grows : made.2.Grows after)
    (yields : after.Yields made.1 w) : heap.Makes given spelled (w, after) where
  grows := makes.grows.trans grows
  fresh := by
    have zone' := makes.grows.zone zone
    have still := makes.fresh.grow zone' (Nat.le_refl _) grows
    exact (still.yielded (grows.zone zone') yields).widen (Nat.le_refl _) grows.size

end Heap

namespace Expression

/-- The second expression is a part of the first, or all of it. -/
inductive Contains : Expression → Expression → Prop
  | whole {e} : Contains e e
  | body {e part} : Contains e part → Contains (.program e) part
  | element {elements e part} : e ∈ elements → Contains e part → Contains (.array elements) part
  | value {properties key e part} : (key, e) ∈ properties → Contains e part →
      Contains (.object properties) part
  | holder {e property computed part} : Contains e part → Contains (.member e property computed) part
  | key {e property computed part} : Contains property part →
      Contains (.member e property computed) part

/-- The literal is written for such a container: as many elements, or the same names. -/
inductive Spells : Expression → Cell → Prop
  | array {elements items} : elements.length = items.length → Spells (.array elements) (.array items)
  | object {properties} {members : Members Value} :
      (Members.ofEntries properties).keys = members.keys →
        Spells (.object properties) (.object members)

theorem length_evaluateElements (arguments : Arguments) (heap : Heap) (elements : List Expression) :
    (evaluateElements arguments heap elements).1.length = elements.length := by
  induction elements generalizing heap with
  | nil => rfl
  | cons element rest ih => exact congrArg (· + 1) (ih _)

theorem names_evaluateProperties (arguments : Arguments) (heap : Heap)
    (properties : List (String × Expression)) :
    (evaluateProperties arguments heap properties).1.map Prod.fst = properties.map Prod.fst := by
  induction properties generalizing heap with
  | nil => rfl
  | cons property rest ih =>
    obtain ⟨key, value⟩ := property
    exact congrArg (key :: ·) (ih _)

section Evaluation

variable {arguments : Arguments} {heap : Heap} {given : Handle → Prop} {spelled : Cell → Prop}

theorem context_within (within : ∀ v ∈ arguments.values, v.Within given) :
    (arguments.context.getD .undefined).Within given := by
  cases context : arguments.context with
  | none => rintro h ⟨⟩
  | some v => exact within v (by simp [Arguments.values, context])

theorem locals_within (within : ∀ v ∈ arguments.values, v.Within given) :
    (arguments.locals.getD .undefined).Within given := by
  cases locals : arguments.locals with
  | none => rintro h ⟨⟩
  | some v => exact within v (by simp [Arguments.values, locals])

theorem lookup_within (zone : heap.Zone given) (within : ∀ v ∈ arguments.values, v.Within given)
    (name : String) : (lookup arguments heap name).Within given := by
  rw [lookup_eq]
  split
  · exact (Heap.yields_member heap _ name).within zone (locals_within within)
  split
  · exact (Heap.yields_member heap _ name).within zone (context_within within)
  · rintro h ⟨⟩

mutual

theorem makes_evaluate (heap : Heap) (zone : heap.Zone given)
    (within : ∀ v ∈ arguments.values, v.Within given) (e : Expression)
    (shapes : ∀ literal, e.Contains literal → ∀ cell, literal.Spells cell → spelled cell) :
    heap.Makes given spelled (e.evaluate arguments heap) := by
  cases e with
  | program body =>
    exact makes_evaluate heap zone within body fun literal part => shapes literal (.body part)
  | literal value =>
    rw [evaluate_literal]
    refine .of_within zone ?_
    cases value <;> rintro h ⟨⟩
  | array elements =>
    have parts := makes_evaluateElements heap zone within elements fun e mem literal part =>
      shapes literal (.element mem part)
    refine parts.newArray zone (shapes _ .whole _ (.array ?_))
    exact (length_evaluateElements arguments heap elements).symm
  | object properties =>
    have parts := makes_evaluateProperties heap zone within properties fun key e mem literal part =>
      shapes literal (.value mem part)
    rw [evaluate_object]
    refine parts.newObject zone (shapes _ .whole _ (.object ?_))
    exact Members.keys_ofEntries_congr (names_evaluateProperties arguments heap properties).symm
  | identifier name => exact .of_within zone (lookup_within zone within name)
  | this => exact .of_within zone (context_within within)
  | locals => exact .of_within zone (locals_within within)
  | member holder property computed =>
    have left := makes_evaluate heap zone within holder fun literal part =>
      shapes literal (.holder part)
    have key := makes_evaluate (holder.evaluate arguments heap).2 (left.grows.zone zone) within
      property fun literal part => shapes literal (.key part)
    rw [evaluate_member]
    split
    · split
      · exact left.read zone (.refl _ _) (Heap.yields_member _ _ _)
      · exact left.read zone key.grows (Heap.yields_memberAt _ _ _)
    · exact ⟨left.grows, .of_within (left.grows.zone zone) (by rintro h ⟨⟩)⟩

theorem makes_evaluateElements (heap : Heap) (zone : heap.Zone given)
    (within : ∀ v ∈ arguments.values, v.Within given) (elements : List Expression)
    (shapes : ∀ e ∈ elements, ∀ literal, e.Contains literal →
      ∀ cell, literal.Spells cell → spelled cell) :
    heap.MakesAll given spelled (evaluateElements arguments heap elements).1
      (evaluateElements arguments heap elements).2 := by
  cases elements with
  | nil => exact ⟨.refl _ _, .nil⟩
  | cons element rest =>
    have first := makes_evaluate heap zone within element (shapes element List.mem_cons_self)
    have others := makes_evaluateElements _ (first.grows.zone zone) within rest fun e mem =>
      shapes e (List.mem_cons_of_mem _ mem)
    exact first.cons zone others

theorem makes_evaluateProperties (heap : Heap) (zone : heap.Zone given)
    (within : ∀ v ∈ arguments.values, v.Within given) (properties : List (String × Expression))
    (shapes : ∀ key e, (key, e) ∈ properties → ∀ literal, e.Contains literal →
      ∀ cell, literal.Spells cell → spelled cell) :
    heap.MakesAll given spelled ((evaluateProperties arguments heap properties).1.map Prod.snd)
      (evaluateProperties arguments heap properties).2 := by
  cases properties with
  | nil => exact ⟨.refl _ _, .nil⟩
  | cons property rest =>
    obtain ⟨key, value⟩ := property
    have first := makes_evaluate heap zone within value (shapes key value List.mem_cons_self)
    have others := makes_evaluateProperties _ (first.grows.zone zone) within rest
      fun key e mem => shapes key e (List.mem_cons_of_mem _ mem)
    exact first.cons zone others

end

end Evaluation

theorem Spells.alike {ρ : Pairing} {literal : Expression} {c d : Cell} (spells : literal.Spells c)
    (cells : c.Alike ρ d) : literal.Spells d := by
  cases cells with
  | array items =>
    cases spells with
    | array length => exact .array (length.trans items.length_eq)
  | @object m n members =>
    cases spells with
    | object names =>
      exact .object (names.trans (EntryAlike.names_eq members))

end Expression

/-- The containers that the arguments reach. -/
def Arguments.Reach (arguments : Arguments) (heap : Heap) (h : Handle) : Prop :=
  ∃ v ∈ arguments.values, heap.Reaches v h

theorem Arguments.zone_reach {arguments : Arguments} {heap : Heap}
    (holds : heap.Holds arguments.values) : heap.Zone (arguments.Reach heap) where
  inside := by
    rintro h ⟨v, mem, reaches⟩
    refine holds h (reaches.least (Heap.reached_roots mem) fun c reached child here => ?_)
    exact Heap.reached_children reached here
  closed := by
    rintro h ⟨v, mem, reaches⟩ child here c same
    exact ⟨v, mem, reaches.within_of_mem here c same⟩

/-- The result of a call and the direct evaluation are paired, old containers with themselves
and those built by the one with those built by the other. -/
theorem Accessor.run_meets {arguments : Arguments} {heap : Heap} {given : Handle → Prop}
    (zone : heap.Zone given) (within : ∀ v ∈ arguments.values, v.Within given) (e : Expression)
    (source : Option String) :
    ∃ ρ, Heap.Meets (.identity given) ρ (heap.Built (e.evaluate arguments heap).2)
        (heap.Built ((Accessor.mk source (.ofExpression e)).run arguments heap).2)
        (e.evaluate arguments heap).2 ((Accessor.mk source (.ofExpression e)).run arguments heap).2 ∧
      (e.evaluate arguments heap).1.Alike ρ
        ((Accessor.mk source (.ofExpression e)).run arguments heap).1 := by
  have computes := Expression.computes_generateFrom zone.alike
    (Arguments.alike_identity within) 0 e
  have ready := Ready.start e
  have ran := Statement.grows_runAll arguments (e.generateFrom 0).body
    (List.replicate (Program.ofExpression e).tempCount Value.undefined) heap
  have loaded := computes.loaded (Statement.runAll arguments (e.generateFrom 0).body
    (List.replicate (Program.ofExpression e).tempCount Value.undefined) heap).1
    (Statement.runAll arguments (e.generateFrom 0).body
      (List.replicate (Program.ofExpression e).tempCount Value.undefined) heap).2
  obtain ⟨ρ, meets, values⟩ := computes.agrees _ _ (.refl _ heap) (.refl _ heap) ready
    (fun _ _ _ => rfl) (.refl _ _)
  refine ⟨ρ, meets.widen (fun h built => built) fun h built => ?_, values⟩
  rcases built with early | late
  · exact ⟨early.1, Nat.lt_of_lt_of_le early.2 loaded.size⟩
  · exact ⟨Nat.le_trans ran.size late.1, late.2⟩

/-- What the result reaches was reached from the arguments, or was built by the call for a literal of
the expression and stands at one place. -/
theorem Accessor.run_reaches {arguments : Arguments} {heap : Heap}
    (holds : heap.Holds arguments.values) (source : Option String) (e : Expression) {h : Handle}
    (reaches : ((Accessor.mk source (.ofExpression e)).run arguments heap).2.Reaches
      ((Accessor.mk source (.ofExpression e)).run arguments heap).1 h) :
    arguments.Reach heap h ∨
      heap.Built ((Accessor.mk source (.ofExpression e)).run arguments heap).2 h ∧
        (∃ literal, e.Contains literal ∧ literal.Spells
          (((Accessor.mk source (.ofExpression e)).run arguments heap).2.cell h)) ∧
        ∃! place, ((Accessor.mk source (.ofExpression e)).run arguments heap).2.valueAt?
          ((Accessor.mk source (.ofExpression e)).run arguments heap).1 place =
            some (.container h) := by
  have zone := Arguments.zone_reach holds
  have within : ∀ v ∈ arguments.values, v.Within (arguments.Reach heap) := by
    rintro v mem c rfl
    exact ⟨_, mem, .root rfl⟩
  obtain ⟨ρ, meets, values⟩ := run_meets zone within e source
  have makes : heap.Makes (arguments.Reach heap)
      (fun cell => ∃ literal, e.Contains literal ∧ literal.Spells cell)
      (e.evaluate arguments heap) :=
    Expression.makes_evaluate heap zone within e
      fun literal part cell spells => ⟨literal, part, spells⟩
  obtain ⟨place, found⟩ := Heap.reaches_iff_valueAt?.mp reaches
  obtain ⟨a, pair, here⟩ := meets.alike.container_at values found
  rcases meets.fresh pair with ⟨rfl, known⟩ | ⟨builtHere, built⟩
  · exact .inl known
  · have new : ¬ arguments.Reach heap a := fun known =>
      absurd (zone.inside a known) (Nat.not_lt.mpr builtHere.1)
    obtain ⟨-, -, literal, part, spells⟩ := makes.fresh.made here new
    refine .inr ⟨built, ⟨literal, part, spells.alike (meets.alike.cells pair)⟩, place, found, ?_⟩
    intro place' found'
    obtain ⟨a', pair', here'⟩ := meets.alike.container_at values found'
    obtain rfl := ρ.injective pair pair'
    exact (makes.fresh.once here new here').symm

/-- Calls are pure and what they make is their own. A call leaves every container there was as it
is. What its result reaches was reached from the arguments, or was built by the call for an array
or object of the expression and stands at exactly one place in the result. No container is built
by two calls, whatever was done between them. -/
theorem Accessor.run_pure_fresh (source : Option String) (e : Expression) (arguments : Arguments)
    (heap : Heap) (holds : heap.Holds arguments.values) :
    let call := (Accessor.mk source (.ofExpression e)).run arguments heap
    (∀ h : Handle, h.index < heap.size → call.2.cell h = heap.cell h) ∧
      (∀ h, call.2.Reaches call.1 h →
        (∃ v ∈ arguments.values, heap.Reaches v h) ∨
          heap.Built call.2 h ∧
            (∃ literal, e.Contains literal ∧ literal.Spells (call.2.cell h)) ∧
            ∃! place, call.2.valueAt? call.1 place = some (.container h)) ∧
      ∀ (other : Accessor) (arguments' : Arguments) (later : Heap), call.2.size ≤ later.size →
        ∀ h, heap.Built call.2 h → ¬ later.Built (other.run arguments' later).2 h := by
  intro call
  have grows : heap.Grows call.2 := Program.grows_run _ arguments heap
  refine ⟨fun h inside => grows.cell inside trivial, fun h => run_reaches holds source e, ?_⟩
  intro other arguments' later larger h built built'
  have before := built.2
  have behind := built'.1
  omega

/-- An array that holds itself, called with `{x: [this, this[0]], y: [[]][0]}`. The array is
shared by the result, and the empty array in it, which the guard built once more, is its own. -/
theorem Accessor.run_pure_fresh_knot :
    let heap : Heap := ⟨#[.array [.container ⟨0⟩]]⟩
    let arguments : Arguments := ⟨some (.container ⟨0⟩), none⟩
    let first : Expression := .literal (.number (.ofNat 0))
    let e : Expression := .object [("x", .array [.this, .member .this first true]),
      ("y", .member (.array [.array []]) first true)]
    let call := (Accessor.mk none (.ofExpression e)).run arguments heap
    heap.Holds arguments.values ∧ call.1 = .container ⟨6⟩ ∧ call.2.cell ⟨0⟩ = heap.cell ⟨0⟩ ∧
      heap.Built call.2 ⟨3⟩ ∧ (∃! place, call.2.valueAt? call.1 place = some (.container ⟨3⟩)) ∧
      ¬ call.2.Built ((Accessor.mk none (.ofExpression e)).run arguments call.2).2 ⟨3⟩ := by
  intro heap arguments first e call
  have holds : heap.Holds arguments.values := by
    refine Heap.holds_of_closed ?_ ?_
    · rintro v mem h rfl
      have same : h = ⟨0⟩ := by simpa [arguments, Arguments.values] using mem
      rw [same]
      exact Nat.one_pos
    · rintro ⟨index⟩ inside child mem c same
      obtain rfl : index = 0 := Nat.lt_one_iff.mp inside
      obtain rfl : child = .container ⟨0⟩ := List.mem_singleton.mp mem
      rw [← Value.container.inj same]
      exact Nat.one_pos
  obtain ⟨unchanged, shared, apart⟩ := Accessor.run_pure_fresh none e arguments heap holds
  have reached : call.2.Reaches call.1 ⟨3⟩ := Heap.reaches_iff_valueAt?.mpr ⟨[1], rfl⟩
  have outside : ¬ ∃ v ∈ arguments.values, heap.Reaches v ⟨3⟩ := by
    rintro ⟨v, mem, reaches⟩
    exact absurd ((Arguments.zone_reach holds).inside ⟨3⟩ ⟨v, mem, reaches⟩) (by decide)
  have made := (shared ⟨3⟩ reached).resolve_left outside
  exact ⟨holds, rfl, unchanged ⟨0⟩ Nat.one_pos, made.1, made.2.2,
    apart _ _ _ (Nat.le_refl _) ⟨3⟩ made.1⟩

end DataBinding
