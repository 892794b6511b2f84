import DataBinding.Proofs.Places
import DataBinding.Proofs.Walks
import Mathlib.Logic.Relation

/-! Containers that contain themselves. A value has a JSON form unless it reaches one, and
an outline has a mark exactly where a container is met that is open. What a thread walked
over before has no influence. -/
namespace DataBinding

open Relation (TransGen ReflTransGen)
open Text (Outline)

namespace Heap

/-- A container is an element or a member of another. -/
def Contains (heap : Heap) (a b : Handle) : Prop := .container b ∈ heap.children a

/-- The value reaches a container that contains itself, directly or through others. -/
def Cyclic (heap : Heap) (v : Value) : Prop := ∃ h, heap.Reaches v h ∧ TransGen heap.Contains h h

variable {heap : Heap} {v w : Value} {a b h : Handle} {enclosing : List Handle}

theorem reaches_container : heap.Reaches (.container a) b ↔ ReflTransGen heap.Contains a b := by
  constructor
  · intro reaches
    induction reaches with
    | root same => cases same; exact .refl
    | child _ inside ih => exact ih.tail inside
  · intro path
    induction path with
    | refl => exact .root rfl
    | tail _ inside ih => exact .child ih inside

theorem Reaches.of_container (reaches : heap.Reaches v b) : ∃ a, v = .container a := by
  induction reaches with
  | root same => exact ⟨_, same⟩
  | child _ _ ih => exact ih

theorem contains_trans_iff :
    TransGen heap.Contains a b ↔ ∃ w ∈ heap.children a, heap.Reaches w b := by
  rw [TransGen.head'_iff]
  constructor
  · rintro ⟨c, inside, path⟩
    exact ⟨.container c, inside, reaches_container.mpr path⟩
  · rintro ⟨w, mem, reaches⟩
    obtain ⟨c, rfl⟩ := reaches.of_container
    exact ⟨c, mem, reaches_container.mp reaches⟩

theorem reaches_container_iff :
    heap.Reaches (.container a) b ↔ b = a ∨ ∃ w ∈ heap.children a, heap.Reaches w b := by
  rw [reaches_container, Relation.reflTransGen_iff_eq_or_transGen, contains_trans_iff]

/-- What holds of plain values and of open containers, and of others when it holds of their
contents inside them, holds of every value. -/
theorem enclosing_induction (heap : Heap) {motive : List Handle → Value → Prop}
    (plain : ∀ enclosing v, v.isContainer = false → motive enclosing v)
    (known : ∀ enclosing h, h ∈ enclosing → motive enclosing (.container h))
    (fresh : ∀ enclosing h, h ∉ enclosing →
      (∀ w ∈ heap.children h, motive (h :: enclosing) w) → motive enclosing (.container h))
    (enclosing : List Handle) (v : Value) : motive enclosing v := by
  fun_induction unfoldWithin heap enclosing v with
  | case6 enclosing h items cell inside => exact known enclosing h inside
  | case7 enclosing h items cell outside ih =>
    refine fresh enclosing h outside fun w mem => ?_
    rw [children, cell] at mem
    exact ih ⟨w, mem⟩
  | case8 enclosing h members cell inside => exact known enclosing h inside
  | case9 enclosing h members cell outside ih =>
    refine fresh enclosing h outside fun w mem => ?_
    rw [children, cell] at mem
    obtain ⟨entry, entryMem, rfl⟩ := List.mem_map.mp mem
    exact ih ⟨entry, entryMem⟩
  | _ => exact plain _ _ rfl

end Heap

namespace Tree

/-- The elements or the values of the members. -/
def parts : Tree → List Tree
  | .array items => items
  | .object members => members.map Prod.snd
  | _ => []

/-- Whether it stands for a container that encloses it. -/
def isMark : Tree → Bool
  | .arrayAbove _ => true
  | .objectAbove _ => true
  | _ => false

theorem itemsJson?_eq_none {items : List Tree} :
    itemsJson? items = none ↔ ∃ item ∈ items, item.json? = none := by
  induction items with
  | nil => simp [itemsJson?]
  | cons item rest ih =>
    rw [itemsJson?, List.exists_mem_cons_iff, ← ih]
    cases item.json? <;> cases itemsJson? rest <;> simp

theorem membersJson?_eq_none {members : List (String × Tree)} :
    membersJson? members = none ↔ ∃ member ∈ members, member.2.json? = none := by
  induction members with
  | nil => simp [membersJson?]
  | cons member rest ih =>
    obtain ⟨key, item⟩ := member
    rw [membersJson?, List.exists_mem_cons_iff, ← ih]
    split
    · rename_i undefined
      have first : item.json? ≠ none := by cases item <;> cases undefined; simp [json?]
      simp [first]
    · cases item.json? <;> cases membersJson? rest <;> simp

theorem json?_eq_none {tree : Tree} :
    tree.json? = none ↔ tree.isMark = true ∨ ∃ part ∈ tree.parts, part.json? = none := by
  cases tree with
  | array items => simp [json?, isMark, parts, itemsJson?_eq_none]
  | object members =>
    simp only [json?, isMark, parts, Option.map_eq_none_iff, membersJson?_eq_none,
      List.mem_map, exists_exists_and_eq_and, Bool.false_eq_true, false_or]
  | _ => simp [json?, isMark, parts]

end Tree

namespace Heap

variable {heap : Heap} {v w : Value} {a b h : Handle} {enclosing : List Handle}

theorem parts_unfoldWithin (fresh : h ∉ enclosing) :
    (heap.unfoldWithin enclosing (.container h)).parts =
      (heap.children h).map (heap.unfoldWithin (h :: enclosing)) := by
  cases cell : heap.cell h with
  | array items => rw [unfoldWithin_array cell, if_neg fresh, children, cell]; rfl
  | object members =>
    rw [unfoldWithin_object cell, if_neg fresh, children, cell]
    simp only [Tree.parts, Cell.children, Members.values, List.map_map, Function.comp_def]

theorem isMark_unfoldWithin :
    (heap.unfoldWithin enclosing (.container h)).isMark = true ↔ h ∈ enclosing := by
  cases cell : heap.cell h with
  | array items => rw [unfoldWithin_array cell]; split <;> simp_all [Tree.isMark]
  | object members => rw [unfoldWithin_object cell]; split <;> simp_all [Tree.isMark]

/-- A tree lacks a JSON form when the value reaches a container that is open or inside itself. -/
theorem json?_unfoldWithin_eq_none (enclosing : List Handle) (v : Value) :
    (heap.unfoldWithin enclosing v).json? = none ↔
      ∃ h, heap.Reaches v h ∧ (h ∈ enclosing ∨ TransGen heap.Contains h h) := by
  induction enclosing, v using enclosing_induction heap with
  | plain enclosing v plain =>
    constructor
    · intro none
      cases v with
      | container => cases plain
      | _ => simp [unfoldWithin, Tree.json?] at none
    · rintro ⟨h, reaches, -⟩
      obtain ⟨a, rfl⟩ := reaches.of_container
      cases plain
  | known enclosing h inside =>
    rw [Tree.json?_eq_none, isMark_unfoldWithin]
    exact ⟨fun _ => ⟨h, .root rfl, .inl inside⟩, fun _ => .inl inside⟩
  | fresh enclosing h outside ih =>
    rw [Tree.json?_eq_none, isMark_unfoldWithin, parts_unfoldWithin outside]
    simp only [outside, false_or, List.mem_map, exists_exists_and_eq_and]
    constructor
    · rintro ⟨w, mem, none⟩
      obtain ⟨c, reaches, inside⟩ := (ih w mem).mp none
      rcases inside with here | itself
      · rcases List.mem_cons.mp here with rfl | above
        · exact ⟨c, .root rfl, .inr (contains_trans_iff.mpr ⟨w, mem, reaches⟩)⟩
        · exact ⟨c, reaches.of_child mem, .inl above⟩
      · exact ⟨c, reaches.of_child mem, .inr itself⟩
    · rintro ⟨c, reaches, inside⟩
      rcases reaches_container_iff.mp reaches with rfl | ⟨w, mem, below⟩
      · obtain ⟨w, mem, back⟩ := contains_trans_iff.mp (inside.resolve_left outside)
        exact ⟨w, mem, (ih w mem).mpr ⟨c, back, .inl List.mem_cons_self⟩⟩
      · exact ⟨w, mem, (ih w mem).mpr ⟨c, below, inside.imp_left (List.mem_cons_of_mem _)⟩⟩

theorem json?_unfold_eq_none : (heap.unfold v).json? = none ↔ heap.Cyclic v := by
  rw [unfold, json?_unfoldWithin_eq_none]
  simp only [List.not_mem_nil, false_or, Cyclic]

/-- The containers that are passed on the way to a place, the outermost first. -/
def passed (heap : Heap) : Value → List Nat → List Handle
  | .container h, i :: place =>
    h :: ((heap.children h)[i]?).elim [] fun child => heap.passed child place
  | _, _ => []

end Heap

namespace Tree

end Tree

namespace Heap

variable {heap : Heap} {v w : Value} {h : Handle} {enclosing : List Handle} {i : Nat}
variable {place : List Nat} {tree : Tree}

end Heap

namespace Text.Outline

/-- What stands between the brackets of a called group. -/
def contents : Outline → List Outline
  | .group _ _ [(_, .group _ _ items)] => items.map Prod.snd
  | _ => []

/-- The part of an outline at a place. -/
def part? : Outline → List Nat → Option Outline
  | outline, [] => some outline
  | outline, i :: place => (outline.contents[i]?).bind fun part => part.part? place

variable {outline part : Outline} {items : List (List Char × Outline)} {item : List Char × Outline}

/-- An item of a list is written in the text of the list as it is written by itself. -/
theorem inline_infix_inlineItems (mem : item ∈ items) : item.2.inline <:+: inlineItems items := by
  induction items with
  | nil => cases mem
  | cons head rest ih =>
    obtain ⟨label, first⟩ := head
    cases rest with
    | nil =>
      obtain rfl := List.mem_singleton.mp mem
      exact (List.suffix_append label _).isInfix
    | cons next rest =>
      rw [inlineItems]
      · rcases List.mem_cons.mp mem with rfl | mem
        · exact List.infix_append label _ _
        · exact (ih mem).trans ⟨label ++ first.inline ++ [',', ' '], [], by simp⟩
      · rintro ⟨⟩

theorem indented_infix_indentedItems (margin : List Char) (mem : item ∈ items) :
    item.2.indented margin <:+: indentedItems margin items := by
  induction items with
  | nil => cases mem
  | cons head rest ih =>
    obtain ⟨label, first⟩ := head
    rw [indentedItems]
    rcases List.mem_cons.mp mem with rfl | mem
    · exact ⟨'\n' :: (margin ++ label), ',' :: indentedItems margin rest, by simp⟩
    · exact (ih mem).trans ⟨'\n' :: (margin ++ label ++ first.indented margin ++ [',']), [], by simp⟩

theorem inline_infix_group (opening closing : String) (mem : item ∈ items) :
    item.2.inline <:+: (group opening closing items).inline :=
  (inline_infix_inlineItems mem).trans (List.infix_append _ _ _)

theorem indented_infix_group (margin : List Char) (opening closing : String) (mem : item ∈ items) :
    item.2.indented (margin ++ [' ', ' ', ' ', ' ']) <:+:
      (group opening closing items).indented margin := by
  cases items with
  | nil => cases mem
  | cons head rest =>
    rw [indented]
    · exact (indented_infix_indentedItems _ mem).trans (List.infix_append _ _ _)
    · rintro ⟨⟩

theorem exists_of_mem_contents (mem : part ∈ outline.contents) :
    ∃ opening closing label inner, outline = group opening closing [(label, inner)] ∧
      ∃ opening closing items, inner = group opening closing items ∧
        ∃ item ∈ items, item.2 = part := by
  unfold contents at mem
  split at mem
  · exact ⟨_, _, _, _, rfl, _, _, _, rfl, List.mem_map.mp mem⟩
  · cases mem

/-- A part of an outline is written in the text of the whole as it is written by itself. -/
theorem inline_infix_of_part? {place : List Nat} (found : outline.part? place = some part) :
    part.inline <:+: outline.inline := by
  induction place generalizing outline with
  | nil =>
    cases found
    exact List.infix_refl _
  | cons i place ih =>
    obtain ⟨inner, there, found⟩ := Option.bind_eq_some_iff.mp found
    obtain ⟨opening, closing, label, bracketed, rfl, opening', closing', items, rfl, item, mem, rfl⟩ :=
      exists_of_mem_contents (List.mem_of_getElem? there)
    exact (ih found).trans ((inline_infix_group _ _ mem).trans
      (inline_infix_group _ _ (List.mem_singleton_self (label, group opening' closing' items))))

theorem indented_infix_of_part? {place : List Nat} (found : outline.part? place = some part)
    (margin : List Char) : ∃ inner, part.indented inner <:+: outline.indented margin := by
  induction place generalizing outline margin with
  | nil =>
    cases found
    exact ⟨margin, List.infix_refl _⟩
  | cons i place ih =>
    obtain ⟨inner, there, found⟩ := Option.bind_eq_some_iff.mp found
    obtain ⟨opening, closing, label, bracketed, rfl, opening', closing', items, rfl, item, mem, rfl⟩ :=
      exists_of_mem_contents (List.mem_of_getElem? there)
    obtain ⟨deeper, stands⟩ := ih found _
    exact ⟨deeper, stands.trans ((indented_infix_group _ _ _ mem).trans
      (indented_infix_group _ _ _ (List.mem_singleton_self (label, group opening' closing' items))))⟩

end Text.Outline

namespace Tree

variable {tree : Tree} {place : List Nat}

/-- What is printed for a container that encloses the place where it is met. -/
def circularMark : Cell → Outline
  | .array _ => .call "Array" (.word "[Circular]".toList)
  | .object _ => .call "Object" (.word "\x7bCircular\x7d".toList)

/-- The texts of a mark, on one line and with its word on a line of its own. -/
theorem circularMark_texts (margin : List Char) :
    (∀ items, (circularMark (.array items)).inline = "Array([Circular])".toList ∧
      (circularMark (.array items)).indented margin =
        "Array(\n".toList ++ margin ++ "    [Circular],\n".toList ++ margin ++ [')']) ∧
    ∀ members, (circularMark (.object members)).inline = "Object(\x7bCircular\x7d)".toList ∧
      (circularMark (.object members)).indented margin =
        "Object(\n".toList ++ margin ++ "    \x7bCircular\x7d,\n".toList ++ margin ++ [')'] := by
  constructor
  · intro items
    constructor
    · rfl
    · simp [circularMark, Outline.call, Outline.indented, Outline.indentedItems]
  · intro members
    constructor
    · rfl
    · simp [circularMark, Outline.call, Outline.indented, Outline.indentedItems]

end Tree

namespace Heap

variable {heap : Heap} {v : Value} {h : Handle} {enclosing : List Handle} {place : List Nat}
variable {cell : Cell}

/-- A mark of the outline is in both of the texts that are printed. -/
theorem circularMark_printed
    (mark : (heap.debugOutline v).part? place = some (Tree.circularMark cell)) :
    (Tree.circularMark cell).inline <:+: (heap.debugText v).toList ∧
      ∃ margin, (Tree.circularMark cell).indented margin <:+: (heap.debugIndented v).toList := by
  constructor
  · rw [debugText, String.toList_ofList]
    exact Outline.inline_infix_of_part? mark
  · rw [debugIndented, String.toList_ofList]
    exact Outline.indented_infix_of_part? mark []

end Heap

/-- The walk of a visitor over a value of a heap. -/
structure Errand where
  {ε α : Type}
  visitor : Visitor ε α
  heap : Heap
  value : Value

/-- Runs a walk whose outcome nobody looks at. -/
def Errand.run (errand : Errand) : Walk Unit := do
  let _ ← errand.heap.visit errand.visitor errand.value

theorem Errand.run_eq (errand : Errand) (opened : List Handle) :
    errand.run opened = some ((), opened) :=
  Walk.bind_eq (Heap.visit_eq errand.visitor errand.heap errand.value opened)

namespace Heap

variable {heap : Heap} {v : Value}

theorem tryToJson_of_json? {json : Json} (found : (heap.unfold v).json? = some json) :
    heap.tryToJson v [] = some (.ok json.sorted, []) := by
  have walk := visit_eq serializer heap v []
  rw [← unfold, Tree.fold_serializer, found] at walk
  exact Walk.bind_eq walk

theorem exists_json_of_not_cyclic (acyclic : ¬ heap.Cyclic v) :
    ∃ json, (heap.unfold v).json? = some json :=
  Option.ne_none_iff_exists'.mp (mt json?_unfold_eq_none.mp acyclic)

/-- A container that is merely shared is written out twice. -/
example : (⟨#[.array [.bool true], .array [.container ⟨0⟩, .container ⟨0⟩]]⟩ : Heap).debugText
    (.container ⟨1⟩) = "Array([Array([Bool(true)]), Array([Bool(true)])])" := rfl

example : (⟨#[.array [.container ⟨0⟩, .null]]⟩ : Heap).debugText (.container ⟨0⟩) =
    "Array([Array([Circular]), Null])" := rfl

end Heap
end DataBinding
