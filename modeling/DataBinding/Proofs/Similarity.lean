import DataBinding.Proofs.Pairing
import DataBinding.Value.Equality
import Mathlib.Data.List.Induction
import Mathlib.Data.List.Perm.Subperm

/-! Structural equality of values, of one heap or of two. Two values are similar if some
relation between containers holds of them and every two related containers have similar
contents: arrays of one length with related elements, or objects with the same names and
related members. The walk that decides equality within a heap is right about it: a pair of
containers that it takes to agree because it is inside the pair is a pair of the relation
that it builds. -/

theorem List.lookup_map_snd {α β : Type} (f : α → β) (entries : List (String × α)) (key : String) :
    (entries.map fun entry => (entry.1, f entry.2)).lookup key = (entries.lookup key).map f := by
  induction entries with
  | nil => rfl
  | cons entry rest ih =>
    rw [List.map_cons, List.lookup_cons, List.lookup_cons]
    cases key == entry.1 with
    | true => rfl
    | false => exact ih

namespace DataBinding

namespace Members

variable {α β : Type}

theorem get?_eq_some_iff (m : Members α) (key : String) (v : α) :
    m.get? key = some v ↔ (key, v) ∈ m.entries := by
  obtain ⟨entries, distinct⟩ := m
  simp only [get?]
  induction entries with
  | nil => simp
  | cons entry rest ih =>
    obtain ⟨name, w⟩ := entry
    simp only [List.map_cons, List.nodup_cons] at distinct
    simp only [List.lookup_cons, List.mem_cons, Prod.mk.injEq]
    by_cases here : key = name
    · subst here
      have absent : (key, v) ∉ rest := fun mem => distinct.1 (List.mem_map_of_mem mem)
      simp only [BEq.rfl, true_and, absent, or_false, Option.some.injEq]
      exact eq_comm
    · have other : (key == name) = false := beq_eq_false_iff_ne.2 here
      simp only [other, here, false_and, false_or]
      exact ih distinct.2

theorem mem_keys_iff (m : Members α) (key : String) : key ∈ m.keys ↔ ∃ v, m.get? key = some v := by
  simp only [keys, List.mem_map, get?_eq_some_iff]
  constructor
  · rintro ⟨entry, mem, rfl⟩
    exact ⟨entry.2, mem⟩
  · rintro ⟨v, mem⟩
    exact ⟨(key, v), mem, rfl⟩

theorem size_le_of_keys_subset {m : Members α} {n : Members β} (inside : m.keys ⊆ n.keys) :
    m.size ≤ n.size := by
  have shorter := (List.subperm_of_subset m.distinct inside).length_le
  simpa only [keys, size, List.length_map] using shorter

/-- As many names that are all there are all the names. -/
theorem keys_subset_of_size {m : Members α} {n : Members β} (asMany : m.size = n.size)
    (inside : m.keys ⊆ n.keys) : n.keys ⊆ m.keys := by
  have longer : n.keys.length ≤ m.keys.length := by
    simpa only [keys, size, List.length_map] using Nat.le_of_eq asMany.symm
  exact ((List.subperm_of_subset m.distinct inside).perm_of_length_le longer).symm.subset

/-- Members are their names, in order, and what is found under each. -/
theorem entries_eq_map_keys (m : Members α) (absent : α) :
    m.entries = m.keys.map fun key => (key, (m.get? key).getD absent) := by
  have found : ∀ entry ∈ m.entries, id entry = (entry.1, (m.get? entry.1).getD absent) := by
    intro entry mem
    rw [(m.get?_eq_some_iff entry.1 entry.2).2 mem, Option.getD_some]
    rfl
  rw [keys, List.map_map]
  exact (List.map_id _).symm.trans (List.map_congr_left found)

theorem ofEntries_concat (entries : List (String × α)) (entry : String × α) :
    ofEntries (entries ++ [entry]) = (ofEntries entries).insert entry.1 entry.2 :=
  List.foldl_concat ..

/-- A name stands where its first entry does. -/
theorem keys_ofEntries (entries : List (String × α)) :
    (ofEntries entries).keys = (entries.map Prod.fst).eraseDups := by
  induction entries using List.reverseRecOn with
  | nil => rfl
  | append_singleton entries entry ih =>
    rw [ofEntries_concat, keys_insert, ih, List.map_append, List.eraseDups_append]
    by_cases known : entry.1 ∈ entries.map Prod.fst <;>
      simp [List.removeAll, known, List.eraseDups_cons]

/-- A name has the value of its last entry. -/
theorem get?_ofEntries (entries : List (String × α)) (key : String) :
    (ofEntries entries).get? key = entries.reverse.lookup key := by
  induction entries using List.reverseRecOn with
  | nil => rfl
  | append_singleton entries entry ih =>
    rw [ofEntries_concat, get?_insert, ih, List.reverse_concat, List.lookup_cons]
    by_cases same : key = entry.1
    · simp [same]
    · have apart : (key == entry.1) = false := beq_eq_false_iff_ne.2 same
      simp [same, apart]

/-- Inserting entries keeps some of their values, each in one place. -/
theorem values_put_subperm {α : Type} (key : String) (value : α) (entries : List (String × α)) :
    ((put key value entries).map Prod.snd).Subperm (entries.map Prod.snd ++ [value]) := by
  induction entries with
  | nil => exact .refl _
  | cons entry entries ih =>
    obtain ⟨k, v⟩ := entry
    simp only [put]
    split
    · have moved : List.Perm (entries.map Prod.snd ++ [value]) (value :: entries.map Prod.snd) :=
        List.perm_append_singleton value _
      exact ⟨_, moved, List.sublist_cons_self v _⟩
    · exact List.subperm_cons v |>.mpr ih

theorem values_ofEntries_subperm {α : Type} (entries : List (String × α)) :
    (ofEntries entries).values.Subperm (entries.map Prod.snd) := by
  induction entries using List.reverseRecOn with
  | nil => exact .refl _
  | append_singleton entries entry ih =>
    have here : ((ofEntries entries).insert entry.1 entry.2).values.Subperm
        ((ofEntries entries).values ++ [entry.2]) :=
      values_put_subperm entry.1 entry.2 (ofEntries entries).entries
    rw [ofEntries_concat, List.map_append]
    exact here.trans ((List.subperm_append_right _).mpr ih)

/-- Every entry of the one has a related entry in the other. -/
def Within (R : α → β → Prop) (m : Members α) (n : Members β) : Prop :=
  ∀ entry ∈ m.entries, ∃ w, n.get? entry.1 = some w ∧ R entry.2 w

theorem Within.keys_subset {R : α → β → Prop} {m : Members α} {n : Members β}
    (within : Within R m n) : m.keys ⊆ n.keys := by
  intro key mem
  obtain ⟨entry, inside, rfl⟩ := List.mem_map.1 mem
  obtain ⟨w, found, _⟩ := within entry inside
  exact (n.mem_keys_iff _).2 ⟨w, found⟩

theorem within_and_size_iff {R : α → β → Prop} {m : Members α} {n : Members β} :
    m.size = n.size ∧ Within R m n ↔ ∀ key, Option.Rel R (m.get? key) (n.get? key) := by
  constructor
  · rintro ⟨asMany, within⟩ key
    cases left : m.get? key with
    | some v =>
      obtain ⟨w, found, related⟩ := within _ ((m.get?_eq_some_iff key v).1 left)
      rw [found]
      exact .some related
    | none =>
      cases right : n.get? key with
      | none => exact .none
      | some w =>
        have there := keys_subset_of_size asMany within.keys_subset
          ((n.mem_keys_iff key).2 ⟨w, right⟩)
        obtain ⟨v, found⟩ := (m.mem_keys_iff key).1 there
        rw [left] at found
        cases found
  · intro members
    have within : Within R m n := by
      intro entry inside
      have related := members entry.1
      rw [(m.get?_eq_some_iff entry.1 entry.2).2 inside] at related
      exact related.some_of
    refine ⟨Nat.le_antisymm (size_le_of_keys_subset within.keys_subset)
      (size_le_of_keys_subset fun key there => ?_), within⟩
    obtain ⟨w, right⟩ := (n.mem_keys_iff key).1 there
    have related := members key
    rw [right] at related
    obtain ⟨v, left, _⟩ := related.of_some
    exact (m.mem_keys_iff key).2 ⟨v, left⟩

/-- The members of the one, each with the member of the other of the same name. -/
theorem forall_pairs_iff {R : α → β → Prop} {n : Members β} {entries : List (String × α)}
    {pairs : List (α × β)}
    (found : (entries.mapM fun entry => (n.get? entry.1).map fun other => (entry.2, other)) =
      some pairs) :
    (∀ p ∈ pairs, R p.1 p.2) ↔
      ∀ entry ∈ entries, ∃ w, n.get? entry.1 = some w ∧ R entry.2 w := by
  induction entries generalizing pairs with
  | nil =>
    cases found
    simp
  | cons entry rest ih =>
    simp only [List.mapM_cons, Option.bind_eq_bind, Option.bind_eq_some_iff, Option.map_eq_some_iff,
      Option.pure_def, Option.some.injEq] at found
    obtain ⟨_, ⟨w, there, rfl⟩, others, later, rfl⟩ := found
    simp only [List.forall_mem_cons, ih later, there, Option.some.injEq, exists_eq_left']

theorem pairs_isSome {R : α → β → Prop} {n : Members β} {entries : List (String × α)}
    (within : ∀ entry ∈ entries, ∃ w, n.get? entry.1 = some w ∧ R entry.2 w) :
    ∃ pairs, (entries.mapM fun entry => (n.get? entry.1).map fun other => (entry.2, other)) =
      some pairs := by
  induction entries with
  | nil => exact ⟨[], rfl⟩
  | cons entry rest ih =>
    obtain ⟨⟨w, there, _⟩, later⟩ := List.forall_mem_cons.1 within
    obtain ⟨pairs, found⟩ := ih later
    exact ⟨(entry.2, w) :: pairs, by simp [List.mapM_cons, there, found]⟩

end Members

/-- Contents that agree if their elements or members are related. -/
inductive Cell.Similar (R : Value → Value → Prop) : Cell → Cell → Prop where
  | array {xs ys : List Value} : List.Forall₂ R xs ys → Similar R (.array xs) (.array ys)
  | object {m n : Members Value} :
    (∀ key, Option.Rel R (m.get? key) (n.get? key)) → Similar R (.object m) (.object n)

/-- Equal primitives, NaN equal to NaN, or related containers. -/
inductive Value.Agree (S : Handle → Handle → Prop) : Value → Value → Prop where
  | container {a b : Handle} : S a b → Agree S (.container a) (.container b)
  | leaf {v w : Value} : v.isContainer = false → v.identical w = true → Agree S v w

/-- Related containers have similar contents. -/
def Heap.Bisimulation (l r : Heap) (S : Handle → Handle → Prop) : Prop :=
  ∀ a b, S a b → (l.cell a).Similar (Value.Agree S) (r.cell b)

/-- Structural equality of a value of one heap and a value of another. -/
def Heap.Similar (l : Heap) (v : Value) (r : Heap) (w : Value) : Prop :=
  ∃ S, l.Bisimulation r S ∧ v.Agree S w

namespace Number

/-- The same number with one zero. -/
def canonical : Number → Number
  | .nan => .nan
  | .ranked negative rank => .ranked (negative && rank.val != 0) rank

theorem equals_or_nan_iff (m n : Number) :
    (m.equals n || (m.isNaN && n.isNaN)) = true ↔ m.canonical = n.canonical := by
  cases m with
  | nan => cases n <;> simp [canonical, equals, isNaN]
  | ranked negative rank =>
    cases n with
    | nan => simp [canonical, equals, isNaN]
    | ranked negative' rank' =>
      simp only [canonical, equals, isNaN, Bool.and_false, Bool.or_false, Bool.and_eq_true,
        Bool.or_eq_true, beq_iff_eq, ranked.injEq]
      constructor
      · rintro ⟨rfl, same | zero⟩
        · simp [same]
        · simp [zero]
      · rintro ⟨same, rfl⟩
        refine ⟨rfl, ?_⟩
        by_cases zero : rank.val = 0
        · exact .inr zero
        · have nonzero : (rank.val != 0) = true := bne_iff_ne.2 zero
          exact .inl (by simpa only [nonzero, Bool.and_true] using same)

end Number

namespace Value

def canonical : Value → Value
  | .number n => .number n.canonical
  | v => v

theorem identical_iff (v w : Value) : v.identical w = true ↔ v.canonical = w.canonical := by
  cases v with
  | number m =>
    cases w with
    | number n =>
      simp only [identical, canonical, number.injEq]
      exact m.equals_or_nan_iff n
    | _ => simp [identical, canonical]
  | _ => cases w <;> simp [identical, canonical]

theorem identical_refl (v : Value) : v.identical v = true := (identical_iff v v).2 rfl

theorem identical_symm {v w : Value} (same : v.identical w = true) : w.identical v = true :=
  (identical_iff w v).2 ((identical_iff v w).1 same).symm

theorem identical_trans {u v w : Value} (first : u.identical v = true)
    (second : v.identical w = true) : u.identical w = true :=
  (identical_iff u w).2 (((identical_iff u v).1 first).trans ((identical_iff v w).1 second))

theorem isContainer_of_identical {v w : Value} (same : v.identical w = true) :
    v.isContainer = w.isContainer := by
  cases v <;> cases w <;> first | rfl | cases same

namespace Agree

variable {S T : Handle → Handle → Prop} {v w : Value}

theorem imp (weaker : ∀ a b, S a b → T a b) (agree : v.Agree S w) : v.Agree T w := by
  cases agree with
  | container related => exact .container (weaker _ _ related)
  | leaf plain same => exact .leaf plain same

theorem symm (agree : v.Agree S w) : w.Agree (fun b a => S a b) v := by
  cases agree with
  | container related => exact .container related
  | leaf plain same => exact .leaf (isContainer_of_identical same ▸ plain) (identical_symm same)

/-- Agreement through a value in the middle. -/
theorem comp {u : Value} (first : v.Agree S w) (second : w.Agree T u) :
    v.Agree (fun a c => ∃ b, S a b ∧ T b c) u := by
  cases first with
  | container related =>
    cases second with
    | container related' => exact .container ⟨_, related, related'⟩
    | leaf plain => cases plain
  | leaf plain same =>
    cases second with
    | container => cases (isContainer_of_identical same).symm.trans plain
    | leaf _ same' => exact .leaf plain (identical_trans same same')

theorem refl (reflexive : ∀ a, S a a) (v : Value) : v.Agree S v := by
  cases v with
  | container a => exact .container (reflexive a)
  | _ => exact .leaf rfl (identical_refl _)

end Agree

theorem Alike.agree {ρ : Pairing} {v w : Value} (alike : v.Alike ρ w) : v.Agree ρ.pairs w := by
  cases alike with
  | container pair => exact .container pair
  | leaf plain => exact .leaf plain (identical_refl _)

theorem Alike.identical_eq {ρ : Pairing} {v v' w w' : Value} (values : v.Alike ρ w)
    (values' : v'.Alike ρ w') : v.identical v' = w.identical w' := by
  cases values with
  | @container a b pair =>
    cases values' with
    | @container a' b' pair' =>
      rw [Bool.eq_iff_iff]
      simp only [identical, beq_iff_eq]
      constructor
      · rintro rfl
        exact ρ.functional pair pair'
      · rintro rfl
        exact ρ.injective pair pair'
    | leaf plain => cases v' <;> first | rfl | cases plain
  | leaf plain =>
    cases values' with
    | container => cases v <;> first | rfl | cases plain
    | leaf => rfl

end Value

namespace Cell

variable {R T : Value → Value → Prop} {c d : Cell}

theorem Similar.imp (weaker : ∀ v w, R v w → T v w) (similar : c.Similar R d) : c.Similar T d := by
  cases similar with
  | array items => exact .array (items.imp weaker)
  | object members => exact .object fun key => (members key).imp weaker

theorem Similar.symm (similar : c.Similar R d) : d.Similar (fun w v => R v w) c := by
  cases similar with
  | array items => exact .array items.flip
  | object members => exact .object fun key => (members key).swap

theorem Similar.comp {e : Cell} (first : c.Similar R d) (second : d.Similar T e) :
    c.Similar (fun v u => ∃ w, R v w ∧ T w u) e := by
  cases first with
  | array items =>
    cases second with
    | array items' => exact .array (List.forall₂_comp items items')
  | object members =>
    cases second with
    | object members' => exact .object fun key => (members key).comp (members' key)

theorem Alike.similar {ρ : Pairing} (alike : c.Alike ρ d) : c.Similar (Value.Agree ρ.pairs) d := by
  cases alike with
  | array items => exact .array (items.imp fun _ _ values => values.agree)
  | object members =>
    exact .object fun key => (Members.Alike.lookup members key).imp fun _ _ values => values.agree

/-- Two cells are similar if there are pairs of children to compare and these are related. -/
theorem similar_iff_childPairs? :
    c.Similar R d ↔ ∃ pairs, c.childPairs? d = some pairs ∧ ∀ p ∈ pairs, R p.1 p.2 := by
  constructor
  · intro similar
    cases similar with
    | @array xs ys items =>
      refine ⟨xs.zip ys, if_pos items.length_eq, fun p mem => ?_⟩
      exact List.forall₂_zip items mem
    | @object m n members =>
      obtain ⟨asMany, within⟩ := Members.within_and_size_iff.2 members
      obtain ⟨pairs, found⟩ := Members.pairs_isSome within
      exact ⟨pairs, (if_pos asMany).trans found, (Members.forall_pairs_iff found).2 within⟩
  · rintro ⟨pairs, found, related⟩
    cases c with
    | array xs =>
      cases d with
      | object n => cases found
      | array ys =>
        simp only [childPairs?] at found
        split at found
        · rename_i same
          cases found
          exact .array (List.forall₂_iff_zip.2 ⟨same, fun {a b} mem => related (a, b) mem⟩)
        · cases found
    | object m =>
      cases d with
      | array ys => cases found
      | object n =>
        simp only [childPairs?] at found
        split at found
        · rename_i asMany
          have within := (Members.forall_pairs_iff found).1 related
          exact .object (Members.within_and_size_iff.1 ⟨asMany, within⟩)
        · cases found

end Cell

namespace Heap

variable {heap : Heap}

/-- The relation that a comparison builds: the pairs it has entered, and each container with
itself. -/
def Vouched (entered : List (Handle × Handle)) (a b : Handle) : Prop := a = b ∨ (a, b) ∈ entered

theorem Vouched.mono {some more : List (Handle × Handle)} (fewer : some ⊆ more) (a b : Handle)
    (vouched : Vouched some a b) : Vouched more a b :=
  vouched.imp_right fun mem => fewer mem

/-- The pairs that a comparison enters, whether it is still inside them or not, vouch for one
another. -/
theorem agree_sound (entered : List (Handle × Handle)) (todo : List (Value × Value))
    (equal : heap.agree entered todo = true) :
    ∃ all, entered ⊆ all ∧ (∀ p ∈ todo, p.1.Agree (Vouched all) p.2) ∧
      ∀ q ∈ all, q ∉ entered →
        (heap.cell q.1).Similar (Value.Agree (Vouched all)) (heap.cell q.2) := by
  fun_induction agree heap entered todo with
  | case1 entered => exact ⟨entered, List.Subset.refl _, by simp, fun q old new => absurd old new⟩
  | case2 entered todo x y known ih =>
    obtain ⟨all, more, pending, step⟩ := ih equal
    refine ⟨all, more, List.forall_mem_cons.2 ⟨.container ?_, pending⟩, step⟩
    exact known.imp_right fun mem => more mem
  | case3 entered todo x y known apart => cases equal
  | case4 entered todo x y known pairs found inside later =>
    simp only [Bool.and_eq_true] at equal
    obtain ⟨inner, moreInner, children, stepInner⟩ := inside equal.1
    obtain ⟨outer, moreOuter, pending, stepOuter⟩ := later equal.2
    -- What was entered inside the pair is forgotten by the walk, but not by the relation.
    have weakenInner : ∀ v w : Value, v.Agree (Vouched inner) w → v.Agree (Vouched (inner ++ outer)) w :=
      fun _ _ => .imp (Vouched.mono (List.subset_append_left inner outer))
    have weakenOuter : ∀ v w : Value, v.Agree (Vouched outer) w → v.Agree (Vouched (inner ++ outer)) w :=
      fun _ _ => .imp (Vouched.mono (List.subset_append_right inner outer))
    have here : (x, y) ∈ inner := moreInner List.mem_cons_self
    refine ⟨inner ++ outer, fun q mem => List.mem_append_right _ (moreOuter mem),
      List.forall_mem_cons.2 ⟨.container (.inr (List.mem_append_left _ here)),
        fun p mem => weakenOuter _ _ (pending p mem)⟩, fun q mem fresh => ?_⟩
    rcases List.mem_append.1 mem with mem | mem
    · by_cases last : q = (x, y)
      · subst last
        exact Cell.similar_iff_childPairs?.2
          ⟨pairs, found, fun p mem => weakenInner _ _ (children p mem)⟩
      · exact (stepInner q mem fun old => (List.mem_cons.1 old).elim last fresh).imp weakenInner
    · exact (stepOuter q mem fresh).imp weakenOuter
  | case5 entered todo a b notBoth ih =>
    simp only [Bool.and_eq_true] at equal
    obtain ⟨all, more, pending, step⟩ := ih equal.2
    refine ⟨all, more, List.forall_mem_cons.2 ⟨.leaf ?_ equal.1, pending⟩, step⟩
    have kind := Value.isContainer_of_identical equal.1
    cases a with
    | container x =>
      cases b with
      | container y => exact (notBoth x y rfl rfl).elim
      | _ => cases kind
    | _ => rfl

theorem agree_complete (entered : List (Handle × Handle)) (todo : List (Value × Value))
    (similar : ∀ p ∈ todo, heap.Similar p.1 heap p.2) : heap.agree entered todo = true := by
  fun_induction agree heap entered todo with
  | case1 => rfl
  | case2 entered todo x y known ih => exact ih (List.forall_mem_cons.1 similar).2
  | case3 entered todo x y known apart =>
    obtain ⟨S, bisimulation, agree⟩ := (List.forall_mem_cons.1 similar).1
    cases agree with
    | leaf plain => cases plain
    | container related =>
      obtain ⟨pairs, found, _⟩ := Cell.similar_iff_childPairs?.1 (bisimulation x y related)
      rw [apart] at found
      cases found
  | case4 entered todo x y known pairs found inside later =>
    obtain ⟨⟨S, bisimulation, agree⟩, rest⟩ := List.forall_mem_cons.1 similar
    rw [Bool.and_eq_true]
    refine ⟨inside fun p mem => ?_, later rest⟩
    cases agree with
    | leaf plain => cases plain
    | container related =>
      obtain ⟨pairs', found', children⟩ := Cell.similar_iff_childPairs?.1 (bisimulation x y related)
      cases found.symm.trans found'
      exact ⟨S, bisimulation, children p mem⟩
  | case5 entered todo a b notBoth ih =>
    obtain ⟨⟨S, _, agree⟩, rest⟩ := List.forall_mem_cons.1 similar
    simp only [Bool.and_eq_true]
    constructor
    · cases agree with
      | leaf _ same => exact same
      | container => exact (notBoth _ _ rfl rfl).elim
    · exact ih rest

theorem bisimulation_eq (heap : Heap) : heap.Bisimulation heap Eq := by
  rintro a _ rfl
  cases heap.cell a with
  | array items => exact .array (List.forall₂_same.2 fun v _ => .refl (fun _ => rfl) v)
  | object members =>
    apply Cell.Similar.object
    intro key
    cases members.get? key with
    | some v => exact .some (.refl (fun _ => rfl) v)
    | none => exact .none

theorem Similar.refl (heap : Heap) (v : Value) : heap.Similar v heap v :=
  ⟨Eq, bisimulation_eq heap, .refl (fun _ => rfl) v⟩

theorem Similar.symm {l r : Heap} {v w : Value} (similar : l.Similar v r w) : r.Similar w l v := by
  obtain ⟨S, bisimulation, agree⟩ := similar
  refine ⟨fun b a => S a b, fun b a related => ?_, agree.symm⟩
  exact (bisimulation a b related).symm.imp fun _ _ => .symm

theorem Similar.trans {l m r : Heap} {u v w : Value} (first : l.Similar u m v)
    (second : m.Similar v r w) : l.Similar u r w := by
  obtain ⟨S, bisimulation, agree⟩ := first
  obtain ⟨T, bisimulation', agree'⟩ := second
  refine ⟨fun a c => ∃ b, S a b ∧ T b c, ?_, agree.comp agree'⟩
  rintro a c ⟨b, related, related'⟩
  refine ((bisimulation a b related).comp (bisimulation' b c related')).imp ?_
  rintro v w ⟨u, one, two⟩
  exact one.comp two

theorem Alike.similar {ρ : Pairing} {l r : Heap} {v w : Value} (alike : Heap.Alike ρ l r)
    (values : v.Alike ρ w) : l.Similar v r w :=
  ⟨ρ.pairs, fun _ _ pair => (alike.cells pair).similar, values.agree⟩

/-- Structural equality in a heap is decided by the walk, for cyclic values too. -/
theorem similar_iff_deepEqual (v w : Value) :
    heap.Similar v heap w ↔ heap.deepEqual v w = true := by
  constructor
  · intro similar
    exact agree_complete [] [(v, w)] (List.forall_mem_singleton.2 similar)
  · intro equal
    obtain ⟨all, _, pending, step⟩ := agree_sound [] [(v, w)] equal
    refine ⟨Vouched all, ?_, pending (v, w) List.mem_cons_self⟩
    rintro a b (rfl | mem)
    · exact (bisimulation_eq heap a a rfl).imp fun _ _ => .imp fun _ _ => .inl
    · exact step (a, b) mem List.not_mem_nil

end Heap

end DataBinding
