import DataBinding.Value.Copy
import Mathlib.Data.List.Basic

/-! How copies are filled. While a copy is made, some of its containers are complete, some are
registered and only partly filled, and some are not met yet. What is still to be put into a
container, applied to what it holds already, is the same at every step, and in the end nothing
is left: each container holds what its original holds, renumbered. -/
namespace DataBinding

/-! Filling an empty container with the contents of another gives these contents. -/

namespace Members

variable {α β : Type}

theorem put_of_not_mem {key : String} {entries : List (String × α)}
    (fresh : key ∉ entries.map Prod.fst) (value : α) :
    put key value entries = entries ++ [(key, value)] := by
  induction entries with
  | nil => rfl
  | cons entry rest ih =>
    simp only [List.map_cons, List.mem_cons, not_or] at fresh
    rw [put, if_neg fun same => fresh.1 same.symm, ih fresh.2]
    rfl

theorem entries_foldl_insert (f : α → β) (m : Members β) {entries : List (String × α)}
    (distinct : (m.keys ++ entries.map Prod.fst).Nodup) :
    (entries.foldl (fun n entry => n.insert entry.1 (f entry.2)) m).entries =
      m.entries ++ entries.map fun entry => (entry.1, f entry.2) := by
  induction entries generalizing m with
  | nil => simp
  | cons entry rest ih =>
    obtain ⟨key, value⟩ := entry
    have fresh : key ∉ m.keys := fun mem =>
      (List.nodup_append.1 distinct).2.2 key mem key List.mem_cons_self rfl
    have inserted : (m.insert key (f value)).entries = m.entries ++ [(key, f value)] :=
      put_of_not_mem fresh _
    have still : ((m.insert key (f value)).keys ++ rest.map Prod.fst).Nodup := by
      rw [keys_insert, if_neg fresh, List.append_assoc]
      exact distinct
    rw [List.foldl_cons, ih _ still, inserted, List.append_assoc]
    rfl

end Members

namespace Cell

/-- Contents with one more element or member. -/
def put (c : Cell) (slot : Slot) (v : Value) : Cell :=
  match slot, c with
  | .element, .array items => .array (items ++ [v])
  | .member key, .object members => .object (members.insert key v)
  | _, c => c

theorem foldl_put_array (f : Value → Value) (items rest : List Value) :
    ((Cell.array rest).slots).foldl (fun (c : Cell) entry => c.put entry.1 (f entry.2))
        (.array items) = .array (items ++ rest.map f) := by
  rw [slots, List.foldl_map]
  induction rest generalizing items with
  | nil => simp
  | cons v rest ih =>
    rw [List.foldl_cons, put, ih, List.append_assoc]
    rfl

theorem foldl_put_object (f : Value → Value) (m n : Members Value) :
    ((Cell.object n).slots).foldl (fun (c : Cell) entry => c.put entry.1 (f entry.2))
        (.object m) = .object (n.entries.foldl (fun m entry => m.insert entry.1 (f entry.2)) m) := by
  rw [slots, List.foldl_map]
  generalize n.entries = entries
  induction entries generalizing m with
  | nil => rfl
  | cons entry rest ih => rw [List.foldl_cons, put, ih, List.foldl_cons]

theorem foldl_put_emptied (f : Value → Value) (c : Cell) :
    c.slots.foldl (fun d entry => d.put entry.1 (f entry.2)) c.emptied = c.map f := by
  cases c with
  | array items => exact foldl_put_array f [] items
  | object m =>
    rw [emptied, foldl_put_object, Cell.map]
    have same := Members.entries_foldl_insert f .empty m.distinct
    congr 1
    generalize m.entries.foldl _ _ = n at same
    cases n
    cases same
    rfl

end Cell

namespace Heap

theorem size_modifyItems (heap : Heap) (h : Handle) (f : List Value → List Value) :
    (heap.modifyItems h f).size = heap.size := by
  unfold modifyItems
  split
  · exact size_replace heap h _
  · rfl

theorem size_modifyMembers (heap : Heap) (h : Handle) (f : Members Value → Members Value) :
    (heap.modifyMembers h f).size = heap.size := by
  unfold modifyMembers
  split
  · exact size_replace heap h _
  · rfl

theorem size_put (heap : Heap) (target : Handle) (slot : Slot) (v : Value) :
    (heap.put target slot v).size = heap.size := by
  cases slot with
  | element => exact size_modifyItems heap target _
  | member key => exact size_modifyMembers heap target _

theorem cell_put {heap : Heap} {target : Handle} (inside : target.index < heap.size) (slot : Slot)
    (v : Value) (h : Handle) :
    (heap.put target slot v).cell h =
      if h = target then (heap.cell target).put slot v else heap.cell h := by
  have kept : heap.cell h = if h = target then heap.cell target else heap.cell h := by
    split
    · rename_i same
      rw [same]
    · rfl
  cases slot with
  | element =>
    unfold put push modifyItems items?
    cases found : heap.cell target with
    | array items => exact cell_replace heap target h _ inside
    | object members => rwa [found] at kept
  | member key =>
    unfold put insert modifyMembers members?
    cases found : heap.cell target with
    | array items => rwa [found] at kept
    | object members => exact cell_replace heap target h _ inside

/-! The order in which containers are met. -/

theorem prefix_walk (heap : Heap) (found : List Handle) (todo : List Value) :
    found <+: heap.walk found todo := by
  fun_induction walk heap found todo with
  | case1 => exact List.prefix_refl _
  | case2 _ _ _ _ ih => exact ih
  | case3 _ _ _ _ ih => exact (List.prefix_append _ _).trans ih
  | case4 _ _ _ _ ih => exact ih

end Heap

/-- The copies of the containers found so far have consecutive handles. -/
def Registers (copies : List (Handle × Handle)) (found : List Handle) (start : Nat) : Prop :=
  ∀ h, copies.lookup h = if h ∈ found then some ⟨start + found.idxOf h⟩ else none

namespace Registers

variable {copies : List (Handle × Handle)} {found : List Handle} {start : Nat} {h : Handle}

theorem known (registers : Registers copies found start) {copy : Handle}
    (lookup : copies.lookup h = some copy) : h ∈ found ∧ copy = ⟨start + found.idxOf h⟩ := by
  rw [registers h] at lookup
  split at lookup
  · exact ⟨‹_›, (Option.some.inj lookup).symm⟩
  · cases lookup

theorem unknown (registers : Registers copies found start) (lookup : copies.lookup h = none) :
    h ∉ found := by
  rw [registers h] at lookup
  split at lookup
  · cases lookup
  · assumption

theorem cons (registers : Registers copies found start) (fresh : h ∉ found) :
    Registers ((h, ⟨start + found.length⟩) :: copies) (found ++ [h]) start := by
  intro other
  by_cases same : other = h
  · subst same
    simp [List.idxOf_append_of_notMem fresh]
  · have apart : (other == h) = false := beq_eq_false_iff_ne.2 same
    have last : other ∉ [h] := fun mem => same (List.mem_singleton.1 mem)
    rw [List.lookup_cons, apart, registers other]
    simp only [List.mem_append, last, or_false]
    split
    · rw [List.idxOf_append_of_mem ‹_›]
    · rfl

theorem single (h : Handle) (start : Nat) : Registers [(h, ⟨start⟩)] [h] start := by
  have none : Registers [] [] start := fun _ => rfl
  exact none.cons List.not_mem_nil

end Registers

theorem Value.renumber_found {found order : List Handle} (early : found <+: order) {h : Handle}
    (mem : h ∈ found) (start : Nat) :
    (Value.container h).renumber order start = .container ⟨start + found.idxOf h⟩ := by
  obtain ⟨more, rfl⟩ := early
  rw [Value.renumber, List.idxOf_append_of_mem mem]

/-- What a container holds once everything pending for it is put into it. -/
def Filling.settle (f : Value → Value) (todo : List Filling) (h : Handle) (c : Cell) : Cell :=
  todo.foldl
    (fun c filling => if filling.target = h then c.put filling.slot (f filling.value) else c) c

namespace Filling

variable {f : Value → Value} {todo : List Filling} {h : Handle} {c : Cell}

theorem settle_cons (f : Value → Value) (filling : Filling) (todo : List Filling) (h : Handle)
    (c : Cell) : settle f (filling :: todo) h c =
      settle f todo h (if filling.target = h then c.put filling.slot (f filling.value) else c) := rfl

theorem settle_append (f : Value → Value) (todo more : List Filling) (h : Handle) (c : Cell) :
    settle f (todo ++ more) h c = settle f more h (settle f todo h c) := List.foldl_append

theorem settle_of_not_target (elsewhere : ∀ filling ∈ todo, filling.target ≠ h) :
    settle f todo h c = c := by
  induction todo with
  | nil => rfl
  | cons filling todo ih =>
    obtain ⟨here, later⟩ := List.forall_mem_cons.1 elsewhere
    rw [settle_cons, if_neg here, ih later]

end Filling

namespace Heap

theorem target_of_mem_fillings {source : Heap} {h copy : Handle} {filling : Filling}
    (mem : filling ∈ source.fillings h copy) : filling.target = copy := by
  obtain ⟨_, _, rfl⟩ := List.mem_map.1 mem
  rfl

theorem values_fillings (source : Heap) (h copy : Handle) :
    (source.fillings h copy).map Filling.value = source.children h := by
  rw [fillings, children, List.map_map]
  cases source.cell h with
  | array items => simp [Cell.slots, Cell.children, Function.comp_def]
  | object members => simp [Cell.slots, Cell.children, Members.values, Function.comp_def]

/-- A container with everything pending for it is the copy of its original. -/
theorem settle_fillings (source : Heap) (f : Value → Value) (h copy : Handle) :
    Filling.settle f (source.fillings h copy) copy (source.cell h).emptied =
      (source.cell h).map f := by
  rw [Filling.settle, fillings, List.foldl_map]
  simp only [if_true]
  exact Cell.foldl_put_emptied f _

/-- What filling leads to: the containers there were get what is pending for them, and the
containers met on the way are complete. -/
structure Filled (source : Heap) (order : List Handle) (start : Nat) (todo : List Filling)
    (before after : Heap) : Prop where
  size : after.size = start + order.length
  settled : ∀ h : Handle, h.index < before.size →
    after.cell h = Filling.settle (Value.renumber order start) todo h (before.cell h)
  complete : ∀ i (small : i < order.length), before.size ≤ start + i →
    after.cell ⟨start + i⟩ = (source.cell order[i]).map (Value.renumber order start)

theorem Filled.of_put {source : Heap} {order : List Handle} {start : Nat} {todo : List Filling}
    {before after : Heap} {target : Handle} {slot : Slot} {v w : Value}
    (inside : target.index < before.size) (renumbered : v.renumber order start = w)
    (filled : Filled source order start todo (before.put target slot w) after) :
    Filled source order start (⟨target, slot, v⟩ :: todo) before after where
  size := filled.size
  settled := by
    intro h old
    rw [filled.settled h (by rwa [size_put]), cell_put inside, Filling.settle_cons]
    simp only [renumbered, eq_comm (a := target)]
    split
    · rename_i same
      rw [same]
    · rfl
  complete := fun i small late => filled.complete i small (by rwa [size_put])

/-- A container met for the first time gets the next handle for its copy, and all that is ever
put into the copy is what is pending for it when it is registered. -/
theorem Filled.of_alloc {source : Heap} {order found : List Handle} {start : Nat}
    {todo : List Filling} {before after : Heap} {h : Handle} (first : List Filling)
    (size : before.size = start + found.length) (early : found ++ [h] <+: order)
    (targets : ∀ filling ∈ first ++ todo, filling.target.index < before.size)
    (filled : Filled source order start (first ++ (source.fillings h ⟨before.size⟩ ++ todo))
      (before.alloc (source.cell h).emptied).2 after) :
    Filled source order start (first ++ todo) before after := by
  have grown := size_alloc before (source.cell h).emptied
  refine ⟨filled.size, fun other old => ?_, fun i small late => ?_⟩
  · have apart : ∀ filling ∈ source.fillings h ⟨before.size⟩, filling.target ≠ other := by
      rintro filling mem rfl
      rw [target_of_mem_fillings mem] at old
      exact Nat.lt_irrefl _ old
    rw [filled.settled other (by omega), Filling.settle_append, Filling.settle_append,
      Filling.settle_of_not_target apart, cell_alloc, if_neg (Nat.ne_of_lt old),
      Filling.settle_append]
  · rcases Nat.eq_or_lt_of_le late with this | later
    · have place : i = found.length := by omega
      have here : order[i] = h := by
        obtain ⟨more, rfl⟩ := early
        simp [place]
      have apart : ∀ filling ∈ first ++ todo, filling.target ≠ ⟨before.size⟩ := by
        intro filling mem same
        have inside := targets filling mem
        rw [same] at inside
        exact Nat.lt_irrefl _ inside
      obtain ⟨firstApart, laterApart⟩ := List.forall_mem_append.1 apart
      rw [← this, filled.settled ⟨before.size⟩ (by simp only; omega), Filling.settle_append,
        Filling.settle_of_not_target firstApart, Filling.settle_append, cell_alloc, if_pos rfl,
        settle_fillings, Filling.settle_of_not_target laterApart, here]
    · exact filled.complete i small (by omega)

/-- Filling completes the containers in the order in which the walk finds them. -/
theorem fill_filled {source : Heap} {copies : List (Handle × Handle)} {heap : Heap}
    {todo : List Filling} {found : List Handle} {start : Nat}
    (registers : Registers copies found start) (size : heap.size = start + found.length)
    (targets : ∀ filling ∈ todo, filling.target.index < heap.size) :
    Filled source (source.walk found (todo.map Filling.value)) start todo heap
      (source.fill copies heap todo) := by
  fun_induction fill source copies heap todo generalizing found with
  | case1 copies heap =>
    rw [List.map_nil, walk]
    exact ⟨size, fun _ _ => rfl, fun i small late => by omega⟩
  | case2 copies heap target slot h todo copy lookup ih =>
    obtain ⟨known, rfl⟩ := registers.known lookup
    obtain ⟨here, later⟩ := List.forall_mem_cons.1 targets
    rw [List.map_cons, walk, dif_pos known]
    refine .of_put here (Value.renumber_found (prefix_walk _ _ _) known start) (ih registers ?_ ?_)
    · rwa [size_put]
    · simpa only [size_put] using later
  | case3 copies heap target slot h todo lookup copy grown allocated ih =>
    have fresh := registers.unknown lookup
    obtain ⟨here, later⟩ := List.forall_mem_cons.1 targets
    obtain rfl : ⟨heap.size⟩ = copy := congrArg Prod.fst allocated
    obtain rfl : (heap.alloc (source.cell h).emptied).2 = grown := congrArg Prod.snd allocated
    have grown := size_alloc heap (source.cell h).emptied
    have inside : ∀ filling ∈ source.fillings h ⟨heap.size⟩ ++ todo,
        filling.target.index < heap.size + 1 := by
      intro filling mem
      rcases List.mem_append.1 mem with mem | mem
      · rw [target_of_mem_fillings mem]
        exact Nat.lt_succ_self _
      · exact Nat.lt_succ_of_lt (later filling mem)
    have registered : Registers ((h, ⟨heap.size⟩) :: copies) (found ++ [h]) start :=
      size ▸ registers.cons fresh
    have inner := ih registered (by rw [size_put, grown, size, List.length_append]; rfl)
      (by rwa [size_put, grown])
    have early := prefix_walk source (found ++ [h]) (source.children h ++ todo.map Filling.value)
    have renumbered : (Value.container h).renumber (source.walk (found ++ [h])
        (source.children h ++ todo.map Filling.value)) start = .container ⟨heap.size⟩ := by
      rw [Value.renumber_found early (by simp), List.idxOf_append_of_notMem fresh, size]
      simp
    rw [List.map_append, values_fillings] at inner
    rw [List.map_cons, walk, dif_neg fresh]
    have put := inner.of_put (by rw [grown]; exact Nat.lt_succ_of_lt here) renumbered
    exact .of_alloc [⟨target, slot, .container h⟩] size early targets put
  | case4 copies heap target slot v todo plain ih =>
    obtain ⟨here, later⟩ := List.forall_mem_cons.1 targets
    have leaf : ∀ order, v.renumber order start = v := by
      intro order
      cases v with
      | container h => exact (plain h rfl).elim
      | _ => rfl
    rw [List.map_cons, walk]
    · refine .of_put here (leaf _) (ih registers ?_ ?_)
      · rwa [size_put]
      · simpa only [size_put] using later
    · exact plain

/-- A deep copy of a container completes the copies of all that the walk finds. -/
theorem deepCopy_filled (heap : Heap) (h : Handle) :
    Filled heap (heap.walk [h] (heap.children h)) heap.size [] heap
      (heap.deepCopy (.container h)).2 := by
  have grown := size_alloc heap (heap.cell h).emptied
  have inside : ∀ filling ∈ heap.fillings h ⟨heap.size⟩,
      filling.target.index < (heap.alloc (heap.cell h).emptied).2.size := by
    intro filling mem
    rw [target_of_mem_fillings mem, grown]
    exact Nat.lt_succ_self _
  have filled : Filled heap _ _ _ _ _ := fill_filled (Registers.single h heap.size) grown inside
  rw [values_fillings] at filled
  have early : [] ++ [h] <+: heap.walk [h] (heap.children h) := prefix_walk heap [h] _
  refine .of_alloc [] rfl early (by simp) ?_
  rw [List.nil_append, List.append_nil]
  exact filled

end Heap
end DataBinding
