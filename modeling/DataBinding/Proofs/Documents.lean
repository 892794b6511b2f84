import DataBinding.Proofs.Filling
import DataBinding.Proofs.Similarity
import DataBinding.Proofs.WholeNumbers
import DataBinding.Value.Json

/-! Documents. Sorting the members of objects is done after one time and keeps what is found
under each name. A document has a tree, and the document of a tree has a tree that gives the
same document again. -/
namespace DataBinding

namespace Members

variable {α : Type}

/-- Entries with distinct names are the members. -/
theorem entries_ofEntries {entries : List (String × α)}
    (distinct : (entries.map Prod.fst).Nodup) : (ofEntries entries).entries = entries :=
  (entries_foldl_insert id empty distinct).trans (List.map_id entries)

end Members

namespace Json

/-- Documents are made of items and members. -/
@[elab_as_elim]
theorem induction {motive : Json → Prop} (null : motive .null) (bool : ∀ b, motive (.bool b))
    (integer : ∀ n, motive (.integer n)) (number : ∀ n, motive (.number n))
    (string : ∀ s, motive (.string s))
    (array : ∀ items, (∀ item ∈ items, motive item) → motive (.array items))
    (object : ∀ members, (∀ member ∈ members, motive member.2) → motive (.object members))
    (json : Json) : motive json := by
  refine @Json.rec motive (fun items => ∀ item ∈ items, motive item)
    (fun members => ∀ member ∈ members, motive member.2) (fun member => motive member.2)
    null bool integer number string array object (by simp) ?_ (by simp) ?_ (fun _ _ here => here) json
  · intro item rest here later
    exact List.forall_mem_cons.mpr ⟨here, later⟩
  · intro member rest here later
    exact List.forall_mem_cons.mpr ⟨here, later⟩

section Sorting

variable {α : Type} {members : List (String × α)}

theorem nodup_sortMembers : ((sortMembers members).map Prod.fst).Nodup :=
  (((List.mergeSort_perm _ _).map Prod.fst).nodup_iff).mpr (Members.ofEntries members).distinct

theorem perm_sortMembers (distinct : (members.map Prod.fst).Nodup) :
    (sortMembers members).Perm members := by
  rw [sortMembers, Members.entries_ofEntries distinct]
  exact List.mergeSort_perm _ _

theorem sortMembers_sortMembers : sortMembers (sortMembers members) = sortMembers members := by
  have ordered : (sortMembers members).Pairwise fun a b => decide (a.1 ≤ b.1) = true := by
    refine List.pairwise_mergeSort (fun a b c one two => ?_) (fun a b => ?_) _
    · exact decide_eq_true (String.le_trans (of_decide_eq_true one) (of_decide_eq_true two))
    · simpa only [Bool.or_eq_true, decide_eq_true_eq] using String.le_total a.1 b.1
  conv_lhs => rw [sortMembers, Members.entries_ofEntries nodup_sortMembers]
  exact List.mergeSort_of_pairwise ordered

/-- Sorting keeps what is found under each name. -/
theorem lookup_sortMembers (distinct : (members.map Prod.fst).Nodup) (key : String) :
    (sortMembers members).lookup key = members.lookup key := by
  let before : Members α := ⟨members, distinct⟩
  let after : Members α := ⟨sortMembers members, nodup_sortMembers⟩
  have same (v : α) : after.get? key = some v ↔ before.get? key = some v := by
    rw [after.get?_eq_some_iff, before.get?_eq_some_iff]
    exact (perm_sortMembers distinct).mem_iff
  exact Option.ext same

theorem mem_values_of_mem_sortMembers {entry : String × α} (mem : entry ∈ sortMembers members) :
    entry.2 ∈ members.map Prod.snd :=
  (Members.values_ofEntries_subperm members).subset
    (List.mem_map_of_mem ((List.mergeSort_perm _ _).mem_iff.mp mem))

end Sorting

theorem sortedItems_eq (items : List Json) : sortedItems items = items.map sorted := by
  induction items with
  | nil => rfl
  | cons item rest ih => rw [sortedItems, ih, List.map_cons]

theorem sortedMembers_eq (members : List (String × Json)) :
    sortedMembers members = members.map fun member => (member.1, member.2.sorted) := by
  induction members with
  | nil => rfl
  | cons member rest ih => rw [sortedMembers, ih, List.map_cons]

/-- The members of every object are in order. -/
inductive IsSorted : Json → Prop where
  | null : IsSorted .null
  | bool (b : Bool) : IsSorted (.bool b)
  | integer (n : Int) : IsSorted (.integer n)
  | number (n : Number) : IsSorted (.number n)
  | string (s : String) : IsSorted (.string s)
  | array {items : List Json} : (∀ item ∈ items, IsSorted item) → IsSorted (.array items)
  | object {members : List (String × Json)} : (members.map Prod.fst).Nodup →
    sortMembers members = members → (∀ member ∈ members, IsSorted member.2) →
      IsSorted (.object members)

theorem isSorted_sorted (json : Json) : json.sorted.IsSorted := by
  induction json using Json.induction with
  | null => exact .null
  | bool b => exact .bool b
  | integer n => exact .integer n
  | number n => exact .number n
  | string s => exact .string s
  | array items ih =>
    rw [sorted, sortedItems_eq]
    exact .array (List.forall_mem_map.mpr ih)
  | object members ih =>
    rw [sorted, sortedMembers_eq]
    refine .object nodup_sortMembers sortMembers_sortMembers fun member mem => ?_
    obtain ⟨_, inside, same⟩ := List.mem_map.mp (mem_values_of_mem_sortMembers mem)
    obtain ⟨old, oldMem, rfl⟩ := List.mem_map.mp inside
    rw [← same]
    exact ih old oldMem

theorem IsSorted.sorted_eq {json : Json} (isSorted : json.IsSorted) : json.sorted = json := by
  induction isSorted with
  | array _ ih => rw [sorted, sortedItems_eq, List.map_congr_left ih, List.map_id']
  | object _ ordered _ ih =>
    rw [sorted, sortedMembers_eq, List.map_congr_left fun member mem => by rw [ih member mem],
      List.map_id', ordered]
  | _ => rfl

/-- Sorting is done after one time. -/
theorem sorted_sorted (json : Json) : json.sorted.sorted = json.sorted :=
  json.isSorted_sorted.sorted_eq

mutual

/-- The tree of a document. -/
def tree : Json → Tree
  | .null => .null
  | .bool b => .bool b
  | .integer n => .number (.ofInt n)
  | .number n => .number n
  | .string s => .string s
  | .array items => .array (itemTrees items)
  | .object members => .object (memberTrees members)

def itemTrees : List Json → List Tree
  | [] => []
  | item :: rest => tree item :: itemTrees rest

def memberTrees : List (String × Json) → List (String × Tree)
  | [] => []
  | (key, item) :: rest => (key, tree item) :: memberTrees rest

end

theorem itemTrees_eq (items : List Json) : itemTrees items = items.map tree := by
  induction items with
  | nil => rfl
  | cons item rest ih => rw [itemTrees, ih, List.map_cons]

theorem memberTrees_eq (members : List (String × Json)) :
    memberTrees members = members.map fun member => (member.1, member.2.tree) := by
  induction members with
  | nil => rfl
  | cons member rest ih => rw [memberTrees, ih, List.map_cons]

theorem isUndefined_tree (json : Json) : json.tree.isUndefined = false := by cases json <;> rfl

end Json

namespace Tree

/-- Trees are made of items and members. -/
@[elab_as_elim]
theorem induction {motive : Tree → Prop} (undefined : motive .undefined) (null : motive .null)
    (bool : ∀ b, motive (.bool b)) (number : ∀ n, motive (.number n))
    (string : ∀ s, motive (.string s))
    (array : ∀ items, (∀ item ∈ items, motive item) → motive (.array items))
    (object : ∀ members, (∀ member ∈ members, motive member.2) → motive (.object members))
    (arrayAbove : ∀ levels, motive (.arrayAbove levels))
    (objectAbove : ∀ levels, motive (.objectAbove levels)) (tree : Tree) : motive tree := by
  refine @Tree.rec motive (fun items => ∀ item ∈ items, motive item)
    (fun members => ∀ member ∈ members, motive member.2) (fun member => motive member.2)
    undefined null bool number string array object arrayAbove objectAbove
    (by simp) ?_ (by simp) ?_ (fun _ _ here => here) tree
  · intro item rest here later
    exact List.forall_mem_cons.mpr ⟨here, later⟩
  · intro member rest here later
    exact List.forall_mem_cons.mpr ⟨here, later⟩

theorem itemsJson?_eq_some {items : List Tree} {jsons : List Json} :
    itemsJson? items = some jsons ↔
      List.Forall₂ (fun item json => item.json? = some json) items jsons := by
  induction items generalizing jsons with
  | nil => simp [itemsJson?, eq_comm]
  | cons item rest ih =>
    rw [itemsJson?, List.forall₂_cons_left_iff]
    simp only [← ih]
    cases item.json? <;> cases itemsJson? rest <;> simp [eq_comm]

theorem membersJson?_eq_some {members : List (String × Tree)} {jsons : List (String × Json)} :
    membersJson? members = some jsons ↔
      List.Forall₂ (fun member json => member.1 = json.1 ∧ member.2.json? = some json.2)
        (members.filter fun member => !member.2.isUndefined) jsons := by
  induction members generalizing jsons with
  | nil => simp [membersJson?, eq_comm]
  | cons member rest ih =>
    obtain ⟨key, item⟩ := member
    rw [membersJson?]
    split
    · rename_i undefined
      rw [ih, List.filter_cons_of_neg (by simp [undefined])]
    · rename_i defined
      rw [List.filter_cons_of_pos (by simp [defined]), List.forall₂_cons_left_iff]
      simp only [← ih, Prod.exists]
      cases item.json? <;> cases membersJson? rest <;> simp [eq_comm]

end Tree

namespace Number

variable {n : Number}

theorem canonical_canonical : n.canonical.canonical = n.canonical := by
  cases n with
  | nan => rfl
  | ranked negative rank => simp only [canonical, Bool.and_assoc, Bool.and_self]

theorem canonical_of_isZero_eq_false (nonzero : n.isZero = false) : n.canonical = n := by
  cases n with
  | nan => rfl
  | ranked negative rank =>
    rw [isZero] at nonzero
    rw [canonical, bne, nonzero, Bool.not_false, Bool.and_true]

theorem whole_of_isZero (zero : n.isZero = true) : n.isIntegral = true ∧ n.wholePart = 0 := by
  cases n with
  | nan => cases zero
  | ranked negative rank =>
    have first : rank.val = 0 := of_decide_eq_true zero
    have none : (ranked negative rank).units = 0 := by
      rw [units, first]
      rfl
    refine ⟨?_, by rw [wholePart, none, Nat.zero_div]⟩
    rw [isIntegral, none, Nat.zero_mod, isFinite, first]
    rfl

/-- Whole numbers below 2^53 are written as integers. -/
theorem toJson_whole (integral : n.isIntegral = true) (small : n.wholePart < 2 ^ 53) :
    n.toJson = .integer (if n.isNegative then -(n.wholePart : Int) else n.wholePart) := by
  have small : n.wholePart < 0x20000000000000 := small
  rw [toJson, integral, decide_eq_true small]
  rfl

theorem toJson_of_not_finite (infinite : n.isFinite = false) : n.toJson = .null := by
  rw [toJson, isIntegral, infinite]
  rfl

theorem ofInt_whole (integral : n.isIntegral = true) :
    ofInt (if n.isNegative then -(n.wholePart : Int) else n.wholePart) = n.canonical := by
  cases n with
  | nan => cases integral
  | ranked negative rank =>
    have exact := ofRatio_wholePart integral
    have zero := wholePart_eq_zero_iff integral
    generalize (ranked negative rank).wholePart = whole at exact zero
    have size : (if negative then -(whole : Int) else whole).natAbs = whole := by
      cases negative <;> simp
    have sign : decide ((if negative then -(whole : Int) else whole) < 0) =
        (negative && rank.val != 0) := by
      rw [Bool.eq_iff_iff, decide_eq_true_iff, Bool.and_eq_true, bne_iff_ne, Ne, ← zero]
      cases negative with
      | false => simp
      | true => simp; omega
    rw [isNegative, ofInt, size, sign, exact, canonical]

/-- A finite number is written as an integer that reads as it, or as it is. -/
theorem toJson_of_finite (finite : n.isFinite = true) :
    (n.isIntegral = true ∧ n.wholePart < 2 ^ 53) ∧
        (∃ k, n.toJson = .integer k ∧ ofInt k = n.canonical) ∨
      ¬ (n.isIntegral = true ∧ n.wholePart < 2 ^ 53) ∧ n.toJson = .number n ∧ n.canonical = n := by
  by_cases whole : n.isIntegral = true ∧ n.wholePart < 2 ^ 53
  · exact .inl ⟨whole, _, toJson_whole whole.1 whole.2, ofInt_whole whole.1⟩
  · have nonzero : n.isZero = false := by
      refine Bool.eq_false_iff.mpr fun zero => whole ?_
      obtain ⟨integral, none⟩ := whole_of_isZero zero
      exact ⟨integral, by rw [none]; decide⟩
    have other : ¬ (n.isIntegral && decide (n.wholePart < 0x20000000000000)) = true := by
      rw [Bool.and_eq_true, decide_eq_true_iff]
      exact whole
    refine .inr ⟨whole, ?_, canonical_of_isZero_eq_false nonzero⟩
    rw [toJson, if_neg other, if_pos finite]

theorem toJson_eq_integer_iff (finite : n.isFinite = true) :
    (∃ k, n.toJson = .integer k) ↔ n.isIntegral = true ∧ n.wholePart < 2 ^ 53 := by
  rcases toJson_of_finite finite with ⟨whole, k, written, -⟩ | ⟨other, written, -⟩
  · exact ⟨fun _ => whole, fun _ => ⟨k, written⟩⟩
  · refine ⟨?_, fun whole => absurd whole other⟩
    rintro ⟨k, integer⟩
    cases written.symm.trans integer

theorem toJson_eq_number_iff (finite : n.isFinite = true) :
    n.toJson = .number n ↔ ¬ (n.isIntegral = true ∧ n.wholePart < 2 ^ 53) := by
  rcases toJson_of_finite finite with ⟨whole, k, written, -⟩ | ⟨other, written, -⟩
  · refine ⟨fun number => ?_, fun other => absurd whole other⟩
    cases written.symm.trans number
  · exact ⟨fun _ => other, fun _ => written⟩

theorem sorted_toJson (n : Number) : n.toJson.sorted = n.toJson := by
  unfold toJson
  split
  · rfl
  · split <;> rfl

/-- A number comes back with one zero, or as null. -/
theorem tree_toJson (n : Number) :
    n.toJson.tree = if n.isFinite then .number n.canonical else .null := by
  cases finite : n.isFinite with
  | false => rw [toJson_of_not_finite finite]; rfl
  | true =>
    rcases toJson_of_finite finite with ⟨-, k, written, reads⟩ | ⟨-, written, same⟩
    · rw [written, Json.tree, reads]
      rfl
    · rw [written, Json.tree, same]
      rfl

theorem toJson_of_isZero (zero : n.isZero = true) : n.toJson = .integer 0 := by
  obtain ⟨integral, none⟩ := whole_of_isZero zero
  rw [toJson_whole integral (by rw [none]; decide), none]
  cases n.isNegative <;> rfl

theorem toJson_canonical (n : Number) : n.canonical.toJson = n.toJson := by
  cases zero : n.isZero with
  | false => rw [canonical_of_isZero_eq_false zero]
  | true =>
    have also : n.canonical.isZero = true := by
      cases n with
      | nan => cases zero
      | ranked => exact zero
    rw [toJson_of_isZero zero, toJson_of_isZero also]

end Number

namespace Json

/-- Its tree gives the document again. -/
def IsWritten (json : Json) : Prop := json.tree.json? = some json

theorem isWritten_number (n : Number) : n.toJson.IsWritten := by
  rw [IsWritten, Number.tree_toJson]
  cases finite : n.isFinite with
  | false => rw [Number.toJson_of_not_finite finite]; rfl
  | true => exact congrArg some n.toJson_canonical

theorem isWritten_array {items : List Json} :
    (Json.array items).IsWritten ↔ ∀ item ∈ items, item.IsWritten := by
  rw [IsWritten, tree, itemTrees_eq, Tree.json?, Option.map_eq_some_iff]
  simp only [Json.array.injEq, exists_eq_right, Tree.itemsJson?_eq_some]
  rw [List.forall₂_map_left_iff, List.forall₂_same]
  exact Iff.rfl

theorem isWritten_object {members : List (String × Json)} :
    (Json.object members).IsWritten ↔ ∀ member ∈ members, member.2.IsWritten := by
  have kept : (members.map fun member => (member.1, member.2.tree)).filter
      (fun member => !member.2.isUndefined) = members.map fun member => (member.1, member.2.tree) := by
    refine List.filter_eq_self.mpr (List.forall_mem_map.mpr fun member _ => ?_)
    rw [isUndefined_tree]
    rfl
  rw [IsWritten, tree, memberTrees_eq, Tree.json?, Option.map_eq_some_iff]
  simp only [Json.object.injEq, exists_eq_right, Tree.membersJson?_eq_some, kept]
  rw [List.forall₂_map_left_iff, List.forall₂_same]
  simp only [true_and, IsWritten]

theorem IsWritten.sorted {json : Json} (written : json.IsWritten) : json.sorted.IsWritten := by
  induction json using Json.induction with
  | array items ih =>
    rw [isWritten_array] at written
    rw [Json.sorted, sortedItems_eq, isWritten_array]
    exact List.forall_mem_map.mpr fun item mem => ih item mem (written item mem)
  | object members ih =>
    rw [isWritten_object] at written
    rw [Json.sorted, sortedMembers_eq, isWritten_object]
    intro member mem
    obtain ⟨_, inside, same⟩ := List.mem_map.mp (mem_values_of_mem_sortMembers mem)
    obtain ⟨old, oldMem, rfl⟩ := List.mem_map.mp inside
    rw [← same]
    exact ih old oldMem (written old oldMem)
  | _ => exact written

/-- What is written for a tree is written for its own tree. -/
theorem isWritten_of_json? {tree : Tree} {json : Json} (found : tree.json? = some json) :
    json.IsWritten := by
  induction tree using Tree.induction generalizing json with
  | array items ih =>
    obtain ⟨jsons, inside, rfl⟩ := Option.map_eq_some_iff.mp found
    rw [isWritten_array]
    intro json mem
    obtain ⟨item, itemMem, same⟩ := List.exists_of_mem_right (Tree.itemsJson?_eq_some.mp inside) mem
    exact ih item itemMem same
  | object members ih =>
    obtain ⟨jsons, inside, rfl⟩ := Option.map_eq_some_iff.mp found
    rw [isWritten_object]
    intro json mem
    obtain ⟨member, memberMem, _, same⟩ :=
      List.exists_of_mem_right (Tree.membersJson?_eq_some.mp inside) mem
    exact ih member (List.mem_of_mem_filter memberMem) same
  | number n =>
    cases found
    exact isWritten_number n
  | arrayAbove => cases found
  | objectAbove => cases found
  | _ =>
    cases found
    rfl

end Json
end DataBinding
