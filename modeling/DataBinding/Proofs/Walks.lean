import DataBinding.Proofs.Building
import DataBinding.Value.Walking

/-! A walk makes of a value what its visitor makes of the value's tree, and leaves the open
containers as they were, whether it fails or not. -/
namespace DataBinding

open Text (Outline)

variable {ε α : Type}

namespace Tree

mutual

/-- What a visitor makes of a tree. The first failure is the outcome. -/
def fold (visitor : Visitor ε α) : Tree → Except ε α
  | .undefined => visitor.undefined
  | .null => visitor.null
  | .bool b => visitor.bool b
  | .number n => visitor.number n
  | .string s => visitor.string s
  | .array items => do visitor.array (← foldItems visitor items)
  | .object members => do visitor.object (← foldMembers visitor members)
  | .arrayAbove _ => visitor.circularArray
  | .objectAbove _ => visitor.circularObject

def foldItems (visitor : Visitor ε α) : List Tree → Except ε (List α)
  | [] => return []
  | item :: rest => return (← fold visitor item) :: (← foldItems visitor rest)

def foldMembers (visitor : Visitor ε α) : List (String × Tree) → Except ε (List (String × α))
  | [] => return []
  | (key, item) :: rest =>
    if visitor.skipsUndefined && item.isUndefined then foldMembers visitor rest
    else return (key, ← fold visitor item) :: (← foldMembers visitor rest)

end

theorem foldItems_map {β : Type} (visitor : Visitor ε α) (tree : β → Tree) (items : List β) :
    foldItems visitor (items.map tree) = items.mapM fun item => fold visitor (tree item) := by
  induction items with
  | nil => rfl
  | cons item rest ih => rw [List.map_cons, foldItems, List.mapM_cons, ih]

theorem foldMembers_map {β : Type} (visitor : Visitor ε α) (tree : β → Tree)
    (skips : β → Bool) (undefined : ∀ b, skips b = (visitor.skipsUndefined && (tree b).isUndefined))
    (entries : List (String × β)) :
    foldMembers visitor (entries.map fun entry => (entry.1, tree entry.2)) =
      (entries.filter fun entry => !skips entry.2).mapM fun entry =>
        return (entry.1, ← fold visitor (tree entry.2)) := by
  induction entries with
  | nil => rfl
  | cons entry rest ih =>
    rw [List.map_cons, foldMembers, ih, ← undefined]
    cases passed : skips entry.2 with
    | true => rw [if_pos rfl, List.filter_cons_of_neg (by rw [passed]; decide)]
    | false =>
      rw [if_neg Bool.false_ne_true, List.filter_cons_of_pos (by rw [passed]; rfl), List.mapM_cons]
      cases fold visitor (tree entry.2) <;> rfl

mutual

theorem fold_serializer (tree : Tree) :
    tree.fold serializer = tree.json?.elim (.error .cyclic) .ok := by
  cases tree with
  | array items =>
    rw [fold, foldItems_serializer, json?]
    cases itemsJson? items <;> rfl
  | object members =>
    rw [fold, foldMembers_serializer, json?]
    cases membersJson? members <;> rfl
  | _ => rfl

theorem foldItems_serializer (items : List Tree) :
    foldItems serializer items = (itemsJson? items).elim (.error .cyclic) .ok := by
  cases items with
  | nil => rfl
  | cons item rest =>
    rw [foldItems, fold_serializer item, foldItems_serializer rest, itemsJson?]
    cases item.json? with
    | none => rfl
    | some => cases itemsJson? rest <;> rfl

theorem foldMembers_serializer (members : List (String × Tree)) :
    foldMembers serializer members = (membersJson? members).elim (.error .cyclic) .ok := by
  cases members with
  | nil => rfl
  | cons member rest =>
    obtain ⟨key, item⟩ := member
    rw [foldMembers, fold_serializer item, foldMembers_serializer rest, membersJson?]
    show (if item.isUndefined = true then _ else _) = _
    split
    · rfl
    · cases item.json? with
      | none => rfl
      | some => cases membersJson? rest <;> rfl

end

mutual

theorem fold_inspector (tree : Tree) : tree.fold inspector = .ok tree.outline := by
  cases tree with
  | array items =>
    obtain ⟨outlines, folded, same⟩ := foldItems_inspector items
    rw [fold, folded, outline, ← same]
    rfl
  | object members =>
    obtain ⟨outlines, folded, same⟩ := foldMembers_inspector members
    rw [fold, folded, outline, ← same]
    rfl
  | _ => rfl

theorem foldItems_inspector (items : List Tree) :
    ∃ outlines, foldItems inspector items = .ok outlines ∧
      outlines.map (fun item => ([], item)) = itemOutlines items := by
  cases items with
  | nil => exact ⟨[], rfl, rfl⟩
  | cons item rest =>
    obtain ⟨outlines, folded, same⟩ := foldItems_inspector rest
    refine ⟨item.outline :: outlines, ?_, by rw [List.map_cons, same, itemOutlines]⟩
    rw [foldItems, fold_inspector item, folded]
    rfl

theorem foldMembers_inspector (members : List (String × Tree)) :
    ∃ outlines, foldMembers inspector members = .ok outlines ∧
      outlines.map (fun member => (Text.debug member.1.toList ++ [':', ' '], member.2)) =
        memberOutlines members := by
  cases members with
  | nil => exact ⟨[], rfl, rfl⟩
  | cons member rest =>
    obtain ⟨key, item⟩ := member
    obtain ⟨outlines, folded, same⟩ := foldMembers_inspector rest
    refine ⟨(key, item.outline) :: outlines, ?_, by rw [List.map_cons, same, memberOutlines]⟩
    rw [foldMembers, fold_inspector item, folded]
    rfl

end

end Tree

namespace Walk

variable {β : Type} {opened after : List Handle} {h : Handle}

theorem enter_open (known : h ∈ opened) : enter h opened = some (false, opened) := if_pos known

theorem enter_fresh (fresh : h ∉ opened) : enter h opened = some (true, h :: opened) :=
  if_neg fresh

theorem leave_cons : leave h (h :: opened) = some ((), opened) := by
  rw [leave, List.erase_cons_head]

theorem bind_eq {walk : Walk α} {rest : α → Walk β} {a : α}
    (first : walk opened = some (a, after)) : (walk >>= rest) opened = rest a after := by
  show (walk opened).bind _ = _
  rw [first]
  rfl

/-- Walks that each leave the open containers as they were do so one after another. The
first that fails is the last. -/
theorem mapM_eq {f : β → ExceptT ε Walk α} {g : β → Except ε α} {l : List β}
    (each : ∀ b ∈ l, f b opened = some (g b, opened)) :
    l.mapM f opened = some (l.mapM g, opened) := by
  induction l with
  | nil => rfl
  | cons b rest ih =>
    have others := ih fun c mem => each c (List.mem_cons_of_mem _ mem)
    rw [List.mapM_cons, List.mapM_cons]
    refine (bind_eq (each b List.mem_cons_self)).trans ?_
    cases g b with
    | error => rfl
    | ok a =>
      refine (bind_eq others).trans ?_
      cases rest.mapM g <;> rfl

end Walk

namespace Heap

variable {heap : Heap} {visitor : Visitor ε α} {opened : List Handle} {h : Handle} {depth : Nat}

theorem visitWithin_open (known : h ∈ opened) :
    heap.visitWithin visitor (depth + 1) (.container h) opened =
      some (visitor.circular (heap.cell h), opened) := by
  rw [visitWithin, Walk.bind_eq (Walk.enter_open known)]
  rfl

theorem visitWithin_array {items : List Value} {f : Value → Except ε α}
    (cell : heap.cell h = .array items) (fresh : h ∉ opened)
    (each : ∀ v ∈ items, heap.visitWithin visitor depth v (h :: opened) = some (f v, h :: opened)) :
    heap.visitWithin visitor (depth + 1) (.container h) opened =
      some (items.mapM f >>= visitor.array, opened) := by
  rw [visitWithin, Walk.bind_eq (Walk.enter_fresh fresh), cell]
  refine (Walk.bind_eq (Walk.mapM_eq each)).trans ?_
  rw [pure_bind]
  exact Walk.bind_eq Walk.leave_cons

theorem visitWithin_object {members : Members Value} {f : Value → Except ε α}
    (cell : heap.cell h = .object members) (fresh : h ∉ opened)
    (each : ∀ entry ∈ members.entries,
      heap.visitWithin visitor depth entry.2 (h :: opened) = some (f entry.2, h :: opened)) :
    heap.visitWithin visitor (depth + 1) (.container h) opened =
      some ((members.entries.filter fun entry => !visitor.skips entry.2).mapM
        (fun entry => return (entry.1, ← f entry.2)) >>= visitor.object, opened) := by
  rw [visitWithin, Walk.bind_eq (Walk.enter_fresh fresh), cell]
  refine (Walk.bind_eq (Walk.mapM_eq (g := fun entry => return (entry.1, ← f entry.2))
    fun entry mem => ?_)).trans ?_
  · refine (Walk.bind_eq (each entry (List.mem_of_mem_filter mem))).trans ?_
    cases f entry.2 <;> rfl
  · rw [pure_bind]
    exact Walk.bind_eq Walk.leave_cons

theorem isUndefined_unfoldWithin (heap : Heap) (enclosing : List Handle) (v : Value) :
    (heap.unfoldWithin enclosing v).isUndefined = (v == .undefined) := by
  fun_cases unfoldWithin heap enclosing v <;> rfl

/-- A walk ends once it may enter more containers than are not open, with what the visitor makes
of the tree, and leaves no trace. -/
theorem visitWithin_eq (visitor : Visitor ε α) (heap : Heap) (v : Value) (opened : List Handle)
    (deep : unvisited heap.handles opened < depth) :
    heap.visitWithin visitor depth v opened =
      some ((heap.unfoldWithin opened v).fold visitor, opened) := by
  obtain ⟨depth, rfl⟩ : ∃ d, depth = d + 1 := ⟨depth - 1, by omega⟩
  fun_induction unfoldWithin heap opened v generalizing depth with
  | case6 opened h items cell known =>
    rw [visitWithin_open known, cell]
    rfl
  | case7 opened h items cell fresh ih =>
    have each : ∀ v ∈ items, heap.visitWithin visitor depth v (h :: opened) =
        some ((heap.unfoldWithin (h :: opened) v).fold visitor, h :: opened) := by
      intro v mem
      have less := enclosing_measure fresh (item_mem_children cell mem)
      obtain ⟨depth, rfl⟩ : ∃ d, depth = d + 1 := ⟨depth - 1, by omega⟩
      exact ih ⟨v, mem⟩ depth (by omega)
    simp only [List.map_attach_eq_pmap, List.pmap_eq_map]
    rw [visitWithin_array cell fresh each, Tree.fold, Tree.foldItems_map]
  | case8 opened h members cell known =>
    rw [visitWithin_open known, cell]
    rfl
  | case9 opened h members cell fresh ih =>
    have each : ∀ entry ∈ members.entries, heap.visitWithin visitor depth entry.2 (h :: opened) =
        some ((heap.unfoldWithin (h :: opened) entry.2).fold visitor, h :: opened) := by
      intro entry mem
      have less := enclosing_measure fresh (member_mem_children cell mem)
      obtain ⟨depth, rfl⟩ : ∃ d, depth = d + 1 := ⟨depth - 1, by omega⟩
      exact ih ⟨entry, mem⟩ depth (by omega)
    have skips (v : Value) : visitor.skips v =
        (visitor.skipsUndefined && (heap.unfoldWithin (h :: opened) v).isUndefined) := by
      rw [isUndefined_unfoldWithin, Visitor.skips]
    simp only [List.map_attach_eq_pmap, List.pmap_eq_map]
    rw [visitWithin_object (f := fun v => (heap.unfoldWithin (h :: opened) v).fold visitor)
      cell fresh each, Tree.fold, Tree.foldMembers_map visitor _ _ skips]
  | _ =>
    rw [visitWithin, Tree.fold]
    rfl

/-- No more containers can be entered than the heap has. -/
theorem visitWithin_eq_of_size_lt (visitor : Visitor ε α) (heap : Heap) (v : Value)
    (opened : List Handle) (deep : heap.size < depth) :
    heap.visitWithin visitor depth v opened =
      some ((heap.unfoldWithin opened v).fold visitor, opened) := by
  have most : unvisited heap.handles opened ≤ heap.handles.length := List.countP_le_length
  have handles : heap.handles.length = heap.size := by
    rw [Heap.handles, List.length_map, List.length_range]
  exact visitWithin_eq visitor heap v opened (by omega)

theorem visit_eq (visitor : Visitor ε α) (heap : Heap) (v : Value) (opened : List Handle) :
    heap.visit visitor v opened = some ((heap.unfoldWithin opened v).fold visitor, opened) :=
  visitWithin_eq_of_size_lt visitor heap v opened (Nat.lt_succ_self _)

end Heap
end DataBinding
