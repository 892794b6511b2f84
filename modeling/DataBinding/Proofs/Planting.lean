import DataBinding.Proofs.Cycles
import DataBinding.Proofs.Documents

/-! The tree of a value that is built for a document is the tree of the document. A container
that its contents do not reach unfolds to their trees, and a heap that grows leaves the trees
of its values as they are. -/
namespace DataBinding

namespace Heap

variable {heap l l' : Heap} {v : Value} {h : Handle} {enclosing others : List Handle}

theorem holds_iff : heap.Holds [v] ↔ ∀ h, heap.Reaches v h → h.index < heap.size :=
  forall_congr' fun h => imp_congr_left (mem_reached_iff h)

theorem Grows.reaches_iff (grows : l.Grows l') (held : l.Holds [v]) :
    l'.Reaches v h ↔ l.Reaches v h := by
  have inside (place : List Nat) (c : Handle) (found : l.valueAt? v place = some (.container c)) :
      c.index < l.size :=
    holds_iff.mp held c (reaches_iff_valueAt?.mpr ⟨place, found⟩)
  rw [reaches_iff_valueAt?, reaches_iff_valueAt?]
  simp only [grows.valueAt? inside]

theorem Grows.holds (grows : l.Grows l') (held : l.Holds [v]) : l'.Holds [v] :=
  holds_iff.mpr fun _ reaches => Nat.lt_of_lt_of_le
    (holds_iff.mp held _ ((grows.reaches_iff held).mp reaches)) grows.size

theorem Grows.unfold_eq (grows : l.Grows l') (held : l.Holds [v]) : l'.unfold v = l.unfold v :=
  ((Holds.alike held).grow (.refl _ l) grows).unfold_eq
    (Value.alike_identity (reached_roots List.mem_cons_self)) |>.symm

/-- Enclosing containers that are not reached make no difference. -/
theorem unfoldWithin_append (apart : ∀ h ∈ others, ¬ heap.Reaches v h) :
    heap.unfoldWithin (enclosing ++ others) v = heap.unfoldWithin enclosing v := by
  induction enclosing, v using enclosing_induction heap with
  | plain enclosing v plain =>
    cases v with
    | container => cases plain
    | _ => rw [unfoldWithin, unfoldWithin]
  | known enclosing h inside =>
    have also := List.mem_append_left others inside
    have place : (enclosing ++ others).idxOf h = enclosing.idxOf h :=
      List.idxOf_append_of_mem inside
    cases cell : heap.cell h with
    | array items =>
      rw [unfoldWithin_array cell, unfoldWithin_array cell, if_pos also, if_pos inside, place]
    | object members =>
      rw [unfoldWithin_object cell, unfoldWithin_object cell, if_pos also, if_pos inside, place]
  | fresh enclosing h outside ih =>
    have still : h ∉ enclosing ++ others := by
      rw [List.mem_append, not_or]
      exact ⟨outside, fun mem => apart h mem (.root rfl)⟩
    have below (w : Value) (mem : w ∈ heap.children h) :
        heap.unfoldWithin (h :: (enclosing ++ others)) w = heap.unfoldWithin (h :: enclosing) w :=
      ih w mem fun c other reaches => apart c other (reaches.of_child mem)
    cases cell : heap.cell h with
    | array items =>
      rw [unfoldWithin_array cell, unfoldWithin_array cell, if_neg still, if_neg outside]
      exact congrArg Tree.array (List.map_congr_left fun w mem => below w (item_mem_children cell mem))
    | object members =>
      rw [unfoldWithin_object cell, unfoldWithin_object cell, if_neg still, if_neg outside]
      exact congrArg Tree.object (List.map_congr_left fun entry mem =>
        congrArg (entry.1, ·) (below entry.2 (member_mem_children cell mem)))

theorem unfoldWithin_singleton (apart : ¬ heap.Reaches v h) :
    heap.unfoldWithin [h] v = heap.unfold v := by
  have alone : ∀ c ∈ [h], ¬ heap.Reaches v c := List.forall_mem_singleton.mpr apart
  rw [← List.nil_append [h], unfoldWithin_append alone, unfold]

theorem unfold_array {items : List Value} (cell : heap.cell h = .array items)
    (apart : ∀ v ∈ heap.children h, ¬ heap.Reaches v h) :
    heap.unfold (.container h) = .array (items.map heap.unfold) := by
  rw [unfold, unfoldWithin_array cell, if_neg List.not_mem_nil]
  exact congrArg Tree.array (List.map_congr_left fun w mem =>
    unfoldWithin_singleton (apart w (item_mem_children cell mem)))

theorem unfold_object {members : Members Value} (cell : heap.cell h = .object members)
    (apart : ∀ v ∈ heap.children h, ¬ heap.Reaches v h) :
    heap.unfold (.container h) =
      .object (members.entries.map fun entry => (entry.1, heap.unfold entry.2)) := by
  rw [unfold, unfoldWithin_object cell, if_neg List.not_mem_nil]
  exact congrArg Tree.object (List.map_congr_left fun entry mem =>
    congrArg (entry.1, ·) (unfoldWithin_singleton (apart entry.2 (member_mem_children cell mem))))

/-- A value of a larger heap that has everything that it reaches there, and its tree. -/
structure Plants (heap : Heap) (made : Value × Heap) (tree : Tree) : Prop where
  grows : heap.Grows made.2
  holds : made.2.Holds [made.1]
  unfold_eq : made.2.unfold made.1 = tree

/-- A fresh container is in the heap with its contents, which do not reach it. -/
theorem alloc_spec {cell : Cell} (held : ∀ v ∈ cell.children, heap.Holds [v]) :
    (heap.alloc cell).2.Holds [.container (heap.alloc cell).1] ∧
      ∀ v ∈ (heap.alloc cell).2.children (heap.alloc cell).1,
        ¬ (heap.alloc cell).2.Reaches v (heap.alloc cell).1 := by
  have grows := grows_alloc heap cell
  have contents : (heap.alloc cell).2.children (heap.alloc cell).1 = cell.children :=
    congrArg Cell.children (cell_alloc_self heap cell)
  have old (v : Value) (mem : v ∈ cell.children) (c : Handle)
      (reaches : (heap.alloc cell).2.Reaches v c) : c.index < heap.size :=
    holds_iff.mp (held v mem) c ((grows.reaches_iff (held v mem)).mp reaches)
  rw [contents]
  constructor
  · refine holds_iff.mpr fun c reaches => ?_
    rw [size_alloc]
    rcases reaches_container_iff.mp reaches with rfl | ⟨v, mem, below⟩
    · exact Nat.lt_succ_self _
    · rw [contents] at mem
      exact Nat.lt_succ_of_lt (old v mem c below)
  · exact fun v mem reaches => Nat.lt_irrefl _ (old v mem _ reaches)

theorem plants_newArray {items : List Value} (held : ∀ v ∈ items, heap.Holds [v]) :
    heap.Plants (heap.newArray items) (.array (items.map heap.unfold)) := by
  have children : ∀ v ∈ (Cell.array items).children, heap.Holds [v] := held
  obtain ⟨holds, apart⟩ := alloc_spec children
  refine ⟨grows_alloc heap _, holds, ?_⟩
  have same (v : Value) (mem : v ∈ items) :
      (heap.alloc (.array items)).2.unfold v = heap.unfold v :=
    (grows_alloc heap _).unfold_eq (held v mem)
  exact (unfold_array (cell_alloc_self heap _) apart).trans
    (congrArg Tree.array (List.map_congr_left same))

theorem plants_newObject {entries : List (String × Value)}
    (distinct : (entries.map Prod.fst).Nodup) (held : ∀ entry ∈ entries, heap.Holds [entry.2]) :
    heap.Plants (heap.newObject entries)
      (.object (entries.map fun entry => (entry.1, heap.unfold entry.2))) := by
  have all := Members.entries_ofEntries distinct
  have children : ∀ v ∈ (Cell.object (.ofEntries entries)).children, heap.Holds [v] := by
    rw [Cell.children, Members.values, all]
    exact List.forall_mem_map.mpr held
  obtain ⟨holds, apart⟩ := alloc_spec children
  refine ⟨grows_alloc heap _, holds, ?_⟩
  have same (entry : String × Value) (mem : entry ∈ entries) :
      (heap.alloc (.object (.ofEntries entries))).2.unfold entry.2 = heap.unfold entry.2 :=
    (grows_alloc heap _).unfold_eq (held entry mem)
  refine (unfold_object (cell_alloc_self heap _) apart).trans ?_
  rw [all]
  exact congrArg Tree.object
    (List.map_congr_left fun entry mem => congrArg (entry.1, ·) (same entry mem))

theorem Plants.of_plain (plain : v.isContainer = false) {tree : Tree}
    (same : heap.unfold v = tree) : heap.Plants (v, heap) tree where
  grows := .refl _ heap
  holds := holds_iff.mpr fun _ reaches => by
    obtain ⟨_, rfl⟩ := reaches.of_container
    cases plain
  unfold_eq := same

/-- Items that are built one after another stay as they are built. -/
theorem buildItems_spec {items : List Json}
    (each : ∀ item ∈ items, ∀ heap : Heap, heap.Plants (heap.build item) item.tree) (heap : Heap) :
    heap.Grows (heap.buildItems items).2 ∧
      (∀ v ∈ (heap.buildItems items).1, (heap.buildItems items).2.Holds [v]) ∧
      (heap.buildItems items).1.map (heap.buildItems items).2.unfold = items.map Json.tree := by
  induction items generalizing heap with
  | nil => exact ⟨.refl _ heap, by simp [buildItems], rfl⟩
  | cons item rest ih =>
    have first := each item List.mem_cons_self heap
    obtain ⟨grows, held, unfold⟩ :=
      ih (fun item mem => each item (List.mem_cons_of_mem _ mem)) (heap.build item).2
    refine ⟨first.grows.trans grows, List.forall_mem_cons.mpr ⟨grows.holds first.holds, held⟩, ?_⟩
    rw [List.map_cons, ← unfold, ← first.unfold_eq, ← grows.unfold_eq first.holds]
    rfl

/-- Members are built as their values are. -/
theorem buildMembers_eq (heap : Heap) (members : List (String × Json)) :
    heap.buildMembers members =
      ((members.map Prod.fst).zip (heap.buildItems (members.map Prod.snd)).1,
        (heap.buildItems (members.map Prod.snd)).2) := by
  induction members generalizing heap with
  | nil => rfl
  | cons member rest ih =>
    obtain ⟨key, item⟩ := member
    simp only [buildMembers, ih, List.map_cons, buildItems, List.zip_cons_cons]

theorem length_buildItems (heap : Heap) (items : List Json) :
    (heap.buildItems items).1.length = items.length := by
  induction items generalizing heap with
  | nil => rfl
  | cons item rest ih => simp only [buildItems, List.length_cons, ih]

/-- The value that is built for a sorted document has the tree of the document. -/
theorem plants_build {json : Json} (isSorted : json.IsSorted) (heap : Heap) :
    heap.Plants (heap.build json) json.tree := by
  induction isSorted generalizing heap with
  | @array items _ ih =>
    obtain ⟨grows, held, unfold⟩ := buildItems_spec ih heap
    have whole := plants_newArray held
    rw [unfold] at whole
    refine ⟨grows.trans whole.grows, whole.holds, whole.unfold_eq.trans ?_⟩
    rw [Json.tree, Json.itemTrees_eq]
  | @object members distinct _ _ ih =>
    obtain ⟨grows, held, unfold⟩ := buildItems_spec (List.forall_mem_map.mpr ih) heap
    have asMany := length_buildItems heap (members.map Prod.snd)
    rw [build, buildMembers_eq]
    generalize heap.buildItems (members.map Prod.snd) = built at grows held unfold asMany
    obtain ⟨values, after⟩ := built
    have names : ((members.map Prod.fst).zip values).map Prod.fst = members.map Prod.fst :=
      List.map_fst_zip (by simp [asMany])
    have whole := plants_newObject (names ▸ distinct) fun entry mem =>
      held entry.2 (List.of_mem_zip mem).2
    refine ⟨grows.trans whole.grows, whole.holds, whole.unfold_eq.trans ?_⟩
    have trees : ((members.map Prod.fst).zip values).map
        (fun entry => (entry.1, after.unfold entry.2)) =
          members.map fun member => (member.1, member.2.tree) := by
      refine (List.zip_map_right (f := after.unfold) ..).symm.trans ?_
      rw [unfold, List.map_map, List.zip_map']
      rfl
    rw [trees, Json.tree, Json.memberTrees_eq]
  | _ => exact .of_plain rfl (by rw [unfold, unfoldWithin]; rfl)

end Heap
end DataBinding
