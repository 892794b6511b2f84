import DataBinding.Proofs.Planting
import DataBinding.Proofs.StructuralEquality

/-! Values that are converted to JSON and back. What comes back of a value without cycles is
its normal form: members that hold undefined are gone, and every other undefined and every
number that is not finite is null. -/
namespace DataBinding

namespace Value

/-- Null in place of undefined, NaN and the infinities. -/
def normal : Value → Value
  | .undefined => .null
  | .number n => if n.isFinite then .number n else .null
  | v => v

theorem isContainer_normal (v : Value) : v.normal.isContainer = v.isContainer := by
  cases v with
  | number n =>
    rw [normal]
    split <;> rfl
  | _ => rfl

theorem isContainer_canonical (v : Value) : v.canonical.isContainer = v.isContainer := by
  cases v <;> rfl

theorem canonical_canonical (v : Value) : v.canonical.canonical = v.canonical := by
  cases v with
  | number n => exact congrArg number n.canonical_canonical
  | _ => rfl

end Value

namespace Members

/-- The entries that do not hold undefined. -/
def defined (members : Members Value) : List (String × Value) :=
  members.entries.filter fun entry => entry.2 != .undefined

theorem nodup_defined (members : Members Value) : (members.defined.map Prod.fst).Nodup :=
  (List.filter_sublist.map Prod.fst).nodup members.distinct

/-- Normal members, without those that hold undefined. -/
def normal (members : Members Value) : Members Value :=
  ⟨members.defined.map fun entry => (entry.1, entry.2.normal), by
    rw [List.map_map]
    exact members.nodup_defined⟩

theorem get?_normal (members : Members Value) (key : String) :
    members.normal.get? key = (members.defined.lookup key).map Value.normal :=
  List.lookup_map_snd Value.normal members.defined key

end Members

def Cell.normal : Cell → Cell
  | .array items => .array (items.map Value.normal)
  | .object members => .object members.normal

/-- The heap in which every container has normal contents. -/
def Heap.normal (heap : Heap) : Heap := ⟨heap.cells.map Cell.normal⟩

theorem Heap.cell_normal (heap : Heap) (h : Handle) : heap.normal.cell h = (heap.cell h).normal := by
  rw [cell, cell, normal, Array.getElem?_map]
  cases heap.cells[h.index]? <;> rfl

namespace Heap

variable {l r : Heap} {a b h : Handle} {v w : Value}

/-- The contents of a container that does not contain itself do not reach it. -/
theorem apart_of_not_cyclic (acyclic : ¬ r.Cyclic (.container h)) :
    ∀ v ∈ r.children h, ¬ r.Reaches v h := fun v mem reaches =>
  acyclic ⟨h, .root rfl, contains_trans_iff.mpr ⟨v, mem, reaches⟩⟩

/-- A value has the tree of the sorted document of another value. -/
def Returns (l : Heap) (v : Value) (r : Heap) (w : Value) : Prop :=
  ∃ json, (r.unfold w).json? = some json ∧ l.unfold v = json.sorted.tree

theorem Returns.not_cyclic (returns : l.Returns v r w) : ¬ l.Cyclic v ∧ ¬ r.Cyclic w := by
  obtain ⟨json, found, same⟩ := returns
  rw [← json?_unfold_eq_none, ← json?_unfold_eq_none, found, same,
    (Json.isWritten_of_json? found).sorted]
  simp

/-- A plain value is known by its tree. -/
theorem eq_of_unfold_eq (plain : w.isContainer = false) (same : l.unfold v = r.unfold w) :
    v = w := by
  cases v with
  | container h =>
    cases cell : l.cell h with
    | array items =>
      rw [unfold, unfoldWithin_array cell, if_neg List.not_mem_nil] at same
      cases w <;> simp_all [unfold, unfoldWithin, Value.isContainer]
    | object members =>
      rw [unfold, unfoldWithin_object cell, if_neg List.not_mem_nil] at same
      cases w <;> simp_all [unfold, unfoldWithin, Value.isContainer]
  | _ => cases w <;> simp_all [unfold, unfoldWithin, Value.isContainer]

theorem exists_array_of_unfold {trees : List Tree} (same : l.unfold v = .array trees) :
    ∃ h items, v = .container h ∧ l.cell h = .array items := by
  cases v with
  | container h =>
    cases cell : l.cell h with
    | array items => exact ⟨h, items, rfl, cell⟩
    | object members => simp [unfold, unfoldWithin_object cell] at same
  | _ => simp [unfold, unfoldWithin] at same

theorem exists_object_of_unfold {trees : List (String × Tree)} (same : l.unfold v = .object trees) :
    ∃ h members, v = .container h ∧ l.cell h = .object members := by
  cases v with
  | container h =>
    cases cell : l.cell h with
    | array items => simp [unfold, unfoldWithin_array cell] at same
    | object members => exact ⟨h, members, rfl, cell⟩
  | _ => simp [unfold, unfoldWithin] at same

/-- What comes back of an array has the elements that come back of the elements. -/
theorem Returns.array {ys : List Value} (returns : l.Returns v r (.container b))
    (cell : r.cell b = .array ys) :
    ∃ a xs, v = .container a ∧ l.cell a = .array xs ∧
      List.Forall₂ (fun x y => l.Returns x r y) xs ys := by
  obtain ⟨acyclic, acyclic'⟩ := returns.not_cyclic
  obtain ⟨json, found, same⟩ := returns
  rw [unfold_array cell (apart_of_not_cyclic acyclic')] at found
  obtain ⟨jsons, inside, rfl⟩ := Option.map_eq_some_iff.mp found
  have documents := List.forall₂_map_left_iff.mp (Tree.itemsJson?_eq_some.mp inside)
  rw [Json.sorted, Json.tree, Json.itemTrees_eq, Json.sortedItems_eq, List.map_map] at same
  obtain ⟨a, xs, rfl, contents⟩ := exists_array_of_unfold same
  rw [unfold_array contents (apart_of_not_cyclic acyclic), Tree.array.injEq,
    ← List.forall₂_eq_eq_eq, List.forall₂_map_left_iff, List.forall₂_map_right_iff] at same
  refine ⟨a, xs, rfl, contents, (List.forall₂_comp same documents.flip).imp ?_⟩
  rintro x y ⟨item, tree, document⟩
  exact ⟨item, document, tree⟩

/-- What comes back of an object has what comes back of each member that is not undefined. -/
theorem Returns.object {m : Members Value} (returns : l.Returns v r (.container b))
    (cell : r.cell b = .object m) :
    ∃ a n, v = .container a ∧ l.cell a = .object n ∧ ∀ key,
      Option.Rel (fun x y => l.Returns x r y) (n.get? key)
        (m.defined.lookup key) := by
  obtain ⟨acyclic, acyclic'⟩ := returns.not_cyclic
  obtain ⟨json, found, same⟩ := returns
  rw [unfold_object cell (apart_of_not_cyclic acyclic')] at found
  obtain ⟨jsons, inside, rfl⟩ := Option.map_eq_some_iff.mp found
  have kept : (m.entries.filter ((fun member : String × Tree => !member.2.isUndefined) ∘
      fun entry => (entry.1, r.unfold entry.2))) =
        m.defined := by
    refine List.filter_congr fun entry _ => ?_
    simp only [Function.comp, unfold, isUndefined_unfoldWithin, bne]
  have documents : List.Forall₂ (fun entry document => entry.1 = document.1 ∧
      (r.unfold entry.2).json? = some document.2)
        m.defined jsons := by
    have entries := Tree.membersJson?_eq_some.mp inside
    rwa [List.filter_map, List.forall₂_map_left_iff, kept] at entries
  have names : (jsons.map Prod.fst).Nodup := by
    have same : m.defined.map Prod.fst = jsons.map Prod.fst := by
      rw [← List.forall₂_eq_eq_eq, List.forall₂_map_left_iff, List.forall₂_map_right_iff]
      exact documents.imp fun _ _ both => both.1
    rw [← same]
    exact m.nodup_defined
  rw [Json.sorted, Json.tree, Json.memberTrees_eq, Json.sortedMembers_eq] at same
  obtain ⟨a, n, rfl, contents⟩ := exists_object_of_unfold same
  rw [unfold_object contents (apart_of_not_cyclic acyclic), Tree.object.injEq] at same
  refine ⟨a, n, rfl, contents, fun key => ?_⟩
  have tree : (n.get? key).map l.unfold =
      ((jsons.lookup key).map Json.sorted).map Json.tree := by
    have both := congrArg (List.lookup key) same
    rwa [List.lookup_map_snd, List.lookup_map_snd, Json.lookup_sortMembers
      (by rw [List.map_map]; exact names), List.lookup_map_snd] at both
  have document := List.rel_lookup (R := fun w json => (r.unfold w).json? = some json) documents key
  generalize m.defined.lookup key = entry at document ⊢
  generalize jsons.lookup key = json at tree document
  cases document with
  | none =>
    rw [Option.map_eq_none_iff.mp tree]
    exact .none
  | some document =>
    obtain ⟨x, here, unfolds⟩ := Option.map_eq_some_iff.mp tree
    rw [here]
    exact .some ⟨_, document, unfolds⟩

/-- What comes back of a plain value is its normal form, with one zero. -/
theorem tree_of_plain {json : Json} (plain : w.isContainer = false)
    (found : (r.unfold w).json? = some json) :
    json.sorted.tree = r.unfold w.normal.canonical := by
  cases w with
  | container => cases plain
  | number n =>
    simp only [unfold, unfoldWithin, Tree.json?, Option.some.injEq] at found
    subst found
    rw [Number.sorted_toJson, Number.tree_toJson, Value.normal]
    cases n.isFinite <;> simp [unfold, unfoldWithin, Value.canonical]
  | _ =>
    simp only [unfold, unfoldWithin, Tree.json?, Option.some.injEq] at found
    subst found
    simp [unfold, unfoldWithin, Value.normal, Value.canonical, Json.sorted, Json.tree]

theorem Returns.agree (returns : l.Returns v r w) :
    v.Agree (fun a b => l.Returns (.container a) r (.container b)) w.normal := by
  cases kind : w.isContainer with
  | true =>
    obtain ⟨b, rfl⟩ : ∃ b, w = .container b := by cases w <;> simp_all [Value.isContainer]
    cases cell : r.cell b with
    | array items =>
      obtain ⟨a, _, rfl, _⟩ := returns.array cell
      exact .container returns
    | object members =>
      obtain ⟨a, _, rfl, _⟩ := returns.object cell
      exact .container returns
  | false =>
    obtain ⟨json, found, same⟩ := returns
    have plain : w.normal.canonical.isContainer = false := by
      rw [Value.isContainer_canonical, Value.isContainer_normal, kind]
    obtain rfl := eq_of_unfold_eq plain (same.trans (tree_of_plain kind found))
    exact .leaf plain ((Value.identical_iff _ _).mpr (Value.canonical_canonical _))

theorem bisimulation_returns :
    l.Bisimulation r.normal fun a b => l.Returns (.container a) r (.container b) := by
  intro a b returns
  rw [cell_normal]
  cases cell : r.cell b with
  | array ys =>
    obtain ⟨_, xs, same, contents, items⟩ := returns.array cell
    cases same
    rw [contents, Cell.normal]
    exact .array (List.forall₂_map_right_iff.mpr (items.imp fun _ _ => Returns.agree))
  | object m =>
    obtain ⟨_, n, same, contents, members⟩ := returns.object cell
    cases same
    rw [contents, Cell.normal]
    refine .object fun key => ?_
    have both := members key
    rw [m.get?_normal]
    generalize m.defined.lookup key = entry at both
    generalize n.get? key = found at both
    cases both with
    | none => exact .none
    | some returns => exact .some returns.agree

/-- What comes back of a value is its normal form. -/
theorem Returns.similar (returns : l.Returns v r w) : l.Similar v r.normal w.normal :=
  ⟨_, bisimulation_returns, returns.agree⟩

theorem toJson?_of_json? {heap : Heap} {v : Value} {json : Json}
    (found : (heap.unfold v).json? = some json) : heap.toJson? v = some json.sorted := by
  rw [toJson?, Walk.answer?, tryToJson_of_json? found]

/-- A value that a heap has is similar to itself in a larger heap. -/
theorem Grows.similar {base after : Heap} {n : Value} (grows : base.Grows after)
    (held : base.Holds [n]) : base.Similar n after n :=
  ((Holds.alike held).grow (.refl _ base) grows).similar
    (Value.alike_identity (reached_roots List.mem_cons_self))

theorem toJson_of_json? {heap : Heap} {v : Value} {json : Json}
    (found : (heap.unfold v).json? = some json) : heap.toJson v = json.sorted := by
  rw [toJson, toJson?_of_json? found, Option.getD_some]

/-- A normal value is no other container. -/
theorem eq_of_normal_eq_container (same : v.normal = .container h) : v = .container h := by
  cases v with
  | number n =>
    rw [Value.normal] at same
    split at same <;> cases same
  | container => exact same
  | _ => cases same

theorem contains_of_normal {heap : Heap} (inside : heap.normal.Contains a b) : heap.Contains a b := by
  rw [Contains, children, cell_normal] at inside
  rw [Contains, children]
  cases cell : heap.cell a with
  | array items =>
    rw [cell] at inside
    obtain ⟨w, mem, same⟩ := List.mem_map.mp inside
    exact eq_of_normal_eq_container same ▸ mem
  | object members =>
    rw [cell] at inside
    obtain ⟨_, mem, same⟩ := List.mem_map.mp inside
    obtain ⟨entry, kept, rfl⟩ := List.mem_map.mp mem
    exact eq_of_normal_eq_container same ▸ List.mem_map_of_mem (List.mem_of_mem_filter kept)

/-- Every value of a heap has a normal form. -/
theorem Holds.normal {heap : Heap} (held : heap.Holds [v]) : heap.normal.Holds [v.normal] := by
  refine holds_iff.mpr fun h reaches => ?_
  have before : heap.Reaches v h := by
    induction reaches with
    | root same => exact .root (eq_of_normal_eq_container same)
    | child _ inside ih => exact .child ih (contains_of_normal inside)
  rw [size, Heap.normal, Array.size_map]
  exact holds_iff.mp held h before

theorem toJson_number (heap : Heap) (n : Number) : heap.toJson (.number n) = n.toJson := by
  have document : (heap.unfold (.number n)).json? = some n.toJson := by
    rw [unfold, unfoldWithin]
    rfl
  rw [toJson_of_json? document, Number.sorted_toJson]

theorem ofJson_number {n : Number} (finite : n.isFinite = true) (base : Heap) :
    base.ofJson n.toJson = (.number n.canonical, base) := by
  rw [ofJson, Number.sorted_toJson]
  rcases Number.toJson_of_finite finite with ⟨-, k, written, reads⟩ | ⟨-, written, same⟩
  · rw [written, build, reads]
  · rw [written, build, same]

/-- A value without cycles has a JSON form. On every heap the value that is made of it has the
same JSON form, and is structurally equal to every value there that is the normal form of the
first value, however much of that is shared. A finite number comes back as it was, with one
zero; it is written as an integer when it is a whole number below 2^53. -/
theorem json_round_trip {heap : Heap} {v : Value} (acyclic : ¬ heap.Cyclic v) :
    heap.toJson? v = some (heap.toJson v) ∧
    (∀ base : Heap, ∃ back after, base.ofJson (heap.toJson v) = (back, after) ∧
      after.toJson? back = some (heap.toJson v) ∧
      ∀ n, base.Holds [n] → base.Similar n heap.normal v.normal → after.deepEqual back n = true) ∧
    ∀ n : Number, n.isFinite = true →
      (∀ base : Heap, base.ofJson (heap.toJson (.number n)) = (.number n.canonical, base)) ∧
      ((∃ k, heap.toJson (.number n) = .integer k) ↔ n.isIntegral = true ∧ n.wholePart < 2 ^ 53) ∧
      (heap.toJson (.number n) = .number n ↔ ¬ (n.isIntegral = true ∧ n.wholePart < 2 ^ 53)) := by
  obtain ⟨json, found⟩ := exists_json_of_not_cyclic acyclic
  rw [toJson_of_json? found]
  refine ⟨toJson?_of_json? found, fun base => ?_, fun n finite => ?_⟩
  · have plants := plants_build json.isSorted_sorted base
    rw [ofJson, json.sorted_sorted]
    generalize base.build json.sorted = made at plants
    obtain ⟨back, after⟩ := made
    have returns : after.Returns back heap v := ⟨json, found, plants.unfold_eq⟩
    have written : (after.unfold back).json? = some json.sorted := by
      rw [plants.unfold_eq]
      exact (Json.isWritten_of_json? found).sorted
    refine ⟨back, after, rfl, by rw [toJson?_of_json? written, json.sorted_sorted],
      fun n held normal => ?_⟩
    exact (similar_iff_deepEqual back n).mp
      ((returns.similar.trans normal.symm).trans (plants.grows.similar held))
  · rw [toJson_number]
    exact ⟨fun base => ofJson_number finite base, Number.toJson_eq_integer_iff finite,
      Number.toJson_eq_number_iff finite⟩

/-- An object with one array under two names and undefined under a third. The array holds minus
zero, NaN and undefined. -/
def receipts : Heap :=
  ⟨#[.array [.number (.zero true), .number .nan, .undefined],
    .object (.ofEntries [("old", .container ⟨0⟩), ("gone", .undefined), ("new", .container ⟨0⟩)])]⟩

theorem json_round_trip_receipts :
    ¬ receipts.Cyclic (.container ⟨1⟩) ∧ ∃ back after,
      receipts.normal.ofJson (receipts.toJson (.container ⟨1⟩)) = (back, after) ∧
        after.toJson? back = some (receipts.toJson (.container ⟨1⟩)) ∧
        after.deepEqual back (.container ⟨1⟩) = true := by
  have inner : receipts.cell ⟨0⟩ = .array [.number (.zero true), .number .nan, .undefined] := rfl
  have outer : receipts.cell ⟨1⟩ = .object
    (.ofEntries [("old", .container ⟨0⟩), ("gone", .undefined), ("new", .container ⟨0⟩)]) := rfl
  have acyclic : ¬ receipts.Cyclic (.container ⟨1⟩) := by
    rw [← json?_unfold_eq_none, unfold, unfoldWithin_object outer]
    simp [Members.ofEntries, Members.insert, Members.put, Members.empty, unfoldWithin_array inner,
      Tree.json?, Tree.membersJson?, Tree.itemsJson?, Tree.isUndefined, unfoldWithin]
  have held : receipts.Holds [.container ⟨1⟩] := by
    refine holds_of_closed ?_ ?_
    · rintro v mem h rfl
      cases List.mem_singleton.mp mem
      exact Nat.one_lt_two
    · rintro ⟨index⟩ inside child mem c rfl
      obtain rfl | rfl : index = 0 ∨ index = 1 := by
        have : index < 2 := inside
        omega
      · simp [children, inner, Cell.children] at mem
      · have first : c = ⟨0⟩ := by
          simpa [children, outer, Cell.children, Members.values, Members.ofEntries, Members.insert,
            Members.put, Members.empty] using mem
        rw [first]
        exact Nat.two_pos
  obtain ⟨-, returns, -⟩ := json_round_trip acyclic
  obtain ⟨back, after, made, again, equal⟩ := returns receipts.normal
  exact ⟨acyclic, back, after, made, again, equal (.container ⟨1⟩) held.normal (.refl _ _)⟩

end Heap
end DataBinding
