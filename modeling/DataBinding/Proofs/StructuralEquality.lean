import DataBinding.Proofs.Reachability

/-! Structural equality is bisimilarity. The comparison ends on every heap and holds exactly of
the values that some bisimulation relates, so it is an equivalence, and it cannot tell a graph
from one in which members have another order or in which more or fewer containers are shared. -/
namespace DataBinding

/-- What a bisimulation asks of two values that it relates. -/
inductive Heap.Matches (heap : Heap) (R : Value → Value → Prop) : Value → Value → Prop where
  /-- Arrays of one length with related elements. -/
  | arrays {a b : Handle} {xs ys : List Value} :
    heap.cell a = .array xs → heap.cell b = .array ys → List.Forall₂ R xs ys →
      heap.Matches R (.container a) (.container b)
  /-- Objects with the same names and related members. -/
  | objects {a b : Handle} {m n : Members Value} :
    heap.cell a = .object m → heap.cell b = .object n → (∀ key, key ∈ m.keys ↔ key ∈ n.keys) →
      (∀ key v w, m.get? key = some v → n.get? key = some w → R v w) →
      heap.Matches R (.container a) (.container b)
  /-- One and the same container. -/
  | same (h : Handle) : heap.Matches R (.container h) (.container h)
  /-- Equal primitives, NaN equal to NaN and 0 to -0. -/
  | primitives {v w : Value} :
    v.isContainer = false → w.isContainer = false → v.identical w = true → heap.Matches R v w

/-- A relation that asks no more than it gives. -/
def Heap.IsBisimulation (heap : Heap) (R : Value → Value → Prop) : Prop :=
  ∀ v w, R v w → heap.Matches R v w

/-- The same contents, members of objects in any order. -/
inductive Cell.Reorders : Cell → Cell → Prop where
  | array (items : List Value) : Reorders (.array items) (.array items)
  | object {m n : Members Value} : m.entries.Perm n.entries → Reorders (.object m) (.object n)

/-- Another heap holds the containers that a value reaches under the handles that `f` gives,
with members in any order. `f` may give one handle to many containers. -/
def Heap.Folds (heap other : Heap) (f : Handle → Handle) (v : Value) : Prop :=
  ∀ h, heap.Reaches v h → ((heap.cell h).map (Value.rename f)).Reorders (other.cell (f h))

theorem Members.relates_iff {R : Value → Value → Prop} {m n : Members Value} :
    (∀ key, Option.Rel R (m.get? key) (n.get? key)) ↔
      (∀ key, key ∈ m.keys ↔ key ∈ n.keys) ∧
        ∀ key v w, m.get? key = some v → n.get? key = some w → R v w := by
  constructor
  · intro members
    refine ⟨fun key => ?_, fun key v w left right => ?_⟩
    · rw [m.mem_keys_iff, n.mem_keys_iff, ← Option.isSome_iff_exists, ← Option.isSome_iff_exists,
        (members key).isSome_eq]
    · have related := members key
      rw [left, right] at related
      cases related with
      | some pair => exact pair
  · rintro ⟨names, related⟩ key
    have both := names key
    rw [m.mem_keys_iff, n.mem_keys_iff] at both
    cases left : m.get? key with
    | some v =>
      obtain ⟨w, right⟩ := both.1 ⟨v, left⟩
      rw [right]
      exact .some (related key v w left right)
    | none =>
      cases right : n.get? key with
      | none => exact .none
      | some w =>
        obtain ⟨v, found⟩ := both.2 ⟨w, right⟩
        rw [left] at found
        cases found

theorem Members.get?_map {α β : Type} (f : α → β) (m : Members α) (key : String) :
    (m.map f).get? key = (m.get? key).map f :=
  List.lookup_map_snd f m.entries key

theorem Members.get?_eq_of_perm {m n : Members Value} (same : m.entries.Perm n.entries)
    (key : String) : m.get? key = n.get? key := by
  apply Option.ext
  intro v
  rw [Members.get?_eq_some_iff, Members.get?_eq_some_iff]
  exact same.mem_iff

namespace Heap

variable {heap : Heap}

/-- A bisimulation on containers is one on values. -/
theorem Bisimulation.isBisimulation {S : Handle → Handle → Prop}
    (bisimulation : heap.Bisimulation heap S) : heap.IsBisimulation (Value.Agree S) := by
  intro v w agree
  cases agree with
  | leaf plain same =>
    exact .primitives plain (Value.isContainer_of_identical same ▸ plain) same
  | @container a b related =>
    have similar := bisimulation a b related
    generalize left : heap.cell a = c at similar
    generalize right : heap.cell b = d at similar
    cases similar with
    | array items => exact .arrays left right items
    | object members =>
      obtain ⟨names, related⟩ := Members.relates_iff.1 members
      exact .objects left right names related

/-- The containers that a bisimulation on values relates, and each with itself. -/
theorem IsBisimulation.bisimulation {R : Value → Value → Prop}
    (isBisimulation : heap.IsBisimulation R) :
    heap.Bisimulation heap (fun a b => R (.container a) (.container b) ∨ a = b) ∧
      ∀ v w, R v w → v.Agree (fun a b => R (.container a) (.container b) ∨ a = b) w := by
  have agree : ∀ v w, R v w →
      v.Agree (fun a b => R (.container a) (.container b) ∨ a = b) w := by
    intro v w related
    cases isBisimulation v w related with
    | arrays => exact .container (.inl related)
    | objects => exact .container (.inl related)
    | same => exact .container (.inl related)
    | primitives plain _ same => exact .leaf plain same
  have reflexive : ∀ a, (heap.cell a).Similar
      (Value.Agree fun a b => R (.container a) (.container b) ∨ a = b) (heap.cell a) :=
    fun a => (bisimulation_eq heap a a rfl).imp fun _ _ => .imp fun _ _ => .inr
  refine ⟨?_, agree⟩
  rintro a b (related | rfl)
  · cases isBisimulation _ _ related with
    | arrays left right items =>
      rw [left, right]
      exact .array (items.imp agree)
    | objects left right names related =>
      rw [left, right]
      exact .object (Members.relates_iff.2
        ⟨names, fun key v w one two => agree _ _ (related key v w one two)⟩)
    | same => exact reflexive a
    | primitives plain => cases plain
  · exact reflexive a

theorem similar_iff_bisimilar (v w : Value) :
    heap.Similar v heap w ↔ ∃ R, heap.IsBisimulation R ∧ R v w := by
  constructor
  · rintro ⟨S, bisimulation, agree⟩
    exact ⟨Value.Agree S, bisimulation.isBisimulation, agree⟩
  · rintro ⟨R, isBisimulation, related⟩
    obtain ⟨bisimulation, agree⟩ := isBisimulation.bisimulation
    exact ⟨_, bisimulation, agree v w related⟩

end Heap

theorem Value.agree_rename {S : Handle → Handle → Prop} {f : Handle → Handle} {v : Value}
    (kept : v.Within fun h => S h (f h)) : v.Agree S (v.rename f) := by
  cases v with
  | container h => exact .container (kept h rfl)
  | _ => exact .leaf rfl (Value.identical_refl _)

/-- Contents are similar to the same contents with other containers and in another order. -/
theorem Cell.similar_of_reorders {S : Handle → Handle → Prop} {f : Handle → Handle} {c d : Cell}
    (kept : ∀ v ∈ c.children, v.Within fun h => S h (f h))
    (reorders : (c.map (Value.rename f)).Reorders d) : c.Similar (Value.Agree S) d := by
  cases c with
  | array items =>
    cases reorders with
    | array =>
      apply Cell.Similar.array
      rw [List.forall₂_map_right_iff]
      exact List.forall₂_same.2 fun v mem => Value.agree_rename (kept v mem)
  | object m =>
    cases reorders with
    | @object _ n permuted =>
      apply Cell.Similar.object
      intro key
      rw [← Members.get?_eq_of_perm permuted key, Members.get?_map]
      cases found : m.get? key with
      | none => exact .none
      | some v =>
        have mem := (Members.get?_eq_some_iff m key v).1 found
        exact .some (Value.agree_rename (kept v (List.mem_map_of_mem mem)))

namespace Heap

variable {heap : Heap}

/-- A value is similar to itself with members in another order and containers shared. -/
theorem Folds.similar {other : Heap} {f : Handle → Handle} {v : Value}
    (folds : heap.Folds other f v) : heap.Similar v other (v.rename f) := by
  refine ⟨fun a b => heap.Reaches v a ∧ b = f a, ?_,
    Value.agree_rename fun h same => ⟨.root same, rfl⟩⟩
  rintro a _ ⟨reaches, rfl⟩
  apply Cell.similar_of_reorders _ (folds a reaches)
  intro w mem h same
  exact ⟨reaches.within_of_mem mem h same, rfl⟩

/-- Structural equality is bisimilarity: it holds exactly of the values that a bisimulation
relates. Therefore it is an equivalence, and it depends neither on the order of members nor on
how much of the graphs is shared. -/
theorem deepEqual_bisimilarity (heap : Heap) :
    (∀ v w, heap.deepEqual v w = true ↔ ∃ R, heap.IsBisimulation R ∧ R v w) ∧
      Equivalence (fun v w => heap.deepEqual v w = true) ∧
      ∀ (other : Heap) (f g : Handle → Handle) (v w : Value),
        heap.Folds other f v → heap.Folds other g w →
          other.deepEqual (v.rename f) (w.rename g) = heap.deepEqual v w := by
  refine ⟨fun v w => ?_, ⟨fun v => ?_, fun {v w} equal => ?_, fun {u v w} first second => ?_⟩, ?_⟩
  · rw [← similar_iff_deepEqual, similar_iff_bisimilar]
  · exact (similar_iff_deepEqual v v).1 (.refl heap v)
  · exact (similar_iff_deepEqual w v).1 ((similar_iff_deepEqual v w).2 equal).symm
  · exact (similar_iff_deepEqual u w).1
      (((similar_iff_deepEqual u v).2 first).trans ((similar_iff_deepEqual v w).2 second))
  · intro other f g v w left right
    rw [Bool.eq_iff_iff, ← similar_iff_deepEqual, ← similar_iff_deepEqual]
    constructor
    · intro same
      exact (left.similar.trans same).trans right.similar.symm
    · intro same
      exact (left.similar.symm.trans same).trans right.similar

/-- An array of two equal objects that both lead back to it and hold NaN. -/
def twins : Heap :=
  ⟨#[.array [.container ⟨1⟩, .container ⟨2⟩],
    .object (.ofEntries [("up", .container ⟨0⟩), ("n", .number .nan)]),
    .object (.ofEntries [("n", .number .nan), ("up", .container ⟨0⟩)])]⟩

/-- The same array with one object in both places. -/
def merged : Heap :=
  ⟨#[.array [.container ⟨1⟩, .container ⟨1⟩],
    .object (.ofEntries [("n", .number .nan), ("up", .container ⟨0⟩)])]⟩

def merge (h : Handle) : Handle := if h.index = 2 then ⟨1⟩ else h

theorem twins_folds (v : Value) : twins.Folds merged merge v := by
  rintro ⟨index⟩ _
  match index with
  | 0 => exact .array _
  | 1 => exact .object (.swap _ _ _)
  | 2 => exact .object (.refl _)
  | index + 3 =>
    have elsewhere : merge ⟨index + 3⟩ = ⟨index + 3⟩ := if_neg (by simp)
    rw [elsewhere, cell_outside (by simp [twins, size]), cell_outside (by simp [merged, size])]
    exact .array _

/-- Two objects with their members in different orders are equal, since one object can stand for
both of them. -/
theorem deepEqual_bisimilarity_twins :
    twins.Folds merged merge (.container ⟨1⟩) ∧ twins.Folds merged merge (.container ⟨2⟩) ∧
      twins.deepEqual (.container ⟨1⟩) (.container ⟨2⟩) = true := by
  obtain ⟨_, _, folding⟩ := deepEqual_bisimilarity twins
  obtain ⟨_, equivalence, _⟩ := deepEqual_bisimilarity merged
  refine ⟨twins_folds _, twins_folds _, ?_⟩
  rw [← folding merged merge merge _ _ (twins_folds _) (twins_folds _)]
  exact equivalence.refl _

end Heap
end DataBinding
