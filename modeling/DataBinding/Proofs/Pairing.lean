import DataBinding.Value.Read
import Mathlib.Data.List.Forall2

/-! Heaps that agree up to the identity of their containers. A pairing says which
containers of two heaps correspond. Values are alike if their containers are paired and
they are otherwise equal, and heaps are alike if paired containers hold alike values. What
reads values cannot tell alike ones apart. -/

namespace Option.Rel

variable {α β : Type} {R T : α → β → Prop} {a : Option α} {b : Option β}

theorem imp (weaker : ∀ x y, R x y → T x y) (related : Option.Rel R a b) : Option.Rel T a b := by
  cases related with
  | some pair => exact .some (weaker _ _ pair)
  | none => exact .none

theorem isSome_eq (related : Option.Rel R a b) : a.isSome = b.isSome := by
  cases related <;> rfl

theorem getD {d : α} {e : β} (related : Option.Rel R a b) (defaults : R d e) :
    R (a.getD d) (b.getD e) := by
  cases related with
  | some pair => exact pair
  | none => exact defaults

theorem of_some {y : β} (related : Option.Rel R a (Option.some y)) :
    ∃ x, a = Option.some x ∧ R x y := by
  cases related with
  | some pair => exact ⟨_, rfl, pair⟩

theorem some_of {x : α} (related : Option.Rel R (Option.some x) b) :
    ∃ y, b = Option.some y ∧ R x y := by
  cases related with
  | some pair => exact ⟨_, rfl, pair⟩

theorem swap (related : Option.Rel R a b) : Option.Rel (fun y x => R x y) b a := by
  cases related with
  | some pair => exact .some pair
  | none => exact .none

theorem comp {γ : Type} {U : β → γ → Prop} {c : Option γ} (first : Option.Rel R a b)
    (second : Option.Rel U b c) : Option.Rel (fun x z => ∃ y, R x y ∧ U y z) a c := by
  cases first with
  | some pair =>
    cases second with
    | some pair' => exact .some ⟨_, pair, pair'⟩
  | none =>
    cases second
    exact .none

end Option.Rel

theorem List.forall₂_comp {α β γ : Type} {R : α → β → Prop} {U : β → γ → Prop} {as : List α}
    {bs : List β} {cs : List γ} (first : List.Forall₂ R as bs) (second : List.Forall₂ U bs cs) :
    List.Forall₂ (fun a c => ∃ b, R a b ∧ U b c) as cs := by
  induction first generalizing cs with
  | nil =>
    cases second
    exact .nil
  | cons head _ ih =>
    cases second with
    | cons head' tail' => exact .cons ⟨_, head, head'⟩ (ih tail')

theorem List.exists_of_mem_left {α β : Type} {R : α → β → Prop} {as : List α} {bs : List β}
    (related : List.Forall₂ R as bs) {a : α} (mem : a ∈ as) : ∃ b ∈ bs, R a b := by
  induction related with
  | nil => cases mem
  | cons head _ ih =>
    cases mem with
    | head => exact ⟨_, List.mem_cons_self, head⟩
    | tail _ mem =>
      obtain ⟨b, inside, pair⟩ := ih mem
      exact ⟨b, List.mem_cons_of_mem _ inside, pair⟩

theorem List.exists_of_mem_right {α β : Type} {R : α → β → Prop} {as : List α} {bs : List β}
    (related : List.Forall₂ R as bs) {b : β} (mem : b ∈ bs) : ∃ a ∈ as, R a b :=
  List.exists_of_mem_left related.flip mem

/-- Entries that agree by place agree by name. -/
theorem List.rel_lookup {α β : Type} {R : α → β → Prop} {es : List (String × α)}
    {fs : List (String × β)} (related : List.Forall₂ (fun e f => e.1 = f.1 ∧ R e.2 f.2) es fs)
    (key : String) : Option.Rel R (es.lookup key) (fs.lookup key) := by
  induction related with
  | nil => exact .none
  | @cons e f _ _ head _ ih =>
    obtain ⟨name, v⟩ := e
    obtain ⟨name', w⟩ := f
    obtain ⟨rfl, values⟩ := head
    simp only [List.lookup_cons]
    cases key == name with
    | true => exact .some values
    | false => exact ih

namespace DataBinding

/-- Containers of two heaps, paired one to one. -/
structure Pairing where
  pairs : Handle → Handle → Prop
  functional : ∀ {a b c}, pairs a b → pairs a c → b = c
  injective : ∀ {a b c}, pairs a c → pairs b c → a = b

namespace Pairing

instance : LE Pairing := ⟨fun ρ ρ' => ∀ a b, ρ.pairs a b → ρ'.pairs a b⟩

theorem le_refl (ρ : Pairing) : ρ ≤ ρ := fun _ _ pair => pair

theorem le_trans {ρ ρ' ρ'' : Pairing} (first : ρ ≤ ρ') (second : ρ' ≤ ρ'') : ρ ≤ ρ'' :=
  fun a b pair => second a b (first a b pair)

/-- Every container of a set paired with itself. -/
def identity (kept : Handle → Prop) : Pairing where
  pairs a b := a = b ∧ kept a
  functional := by
    rintro a b c ⟨rfl, _⟩ ⟨rfl, _⟩
    rfl
  injective := by
    rintro a b c ⟨rfl, _⟩ ⟨rfl, _⟩
    rfl

/-- Two pairings that do not contradict each other, taken together. -/
def join (ρ δ : Pairing) (left : ∀ a b c, ρ.pairs a b → δ.pairs a c → b = c)
    (right : ∀ a b c, ρ.pairs a c → δ.pairs b c → a = b) : Pairing where
  pairs a b := ρ.pairs a b ∨ δ.pairs a b
  functional := by
    rintro a b c (first | first) (second | second)
    · exact ρ.functional first second
    · exact left a b c first second
    · exact (left a c b second first).symm
    · exact δ.functional first second
  injective := by
    rintro a b c (first | first) (second | second)
    · exact ρ.injective first second
    · exact right a b c first second
    · exact (right b a c second first).symm
    · exact δ.injective first second

/-- `count` consecutive containers from `start` on, paired with those from `start'` on. -/
def shifted (start start' count : Nat) : Pairing where
  pairs a b := ∃ i < count, a = ⟨start + i⟩ ∧ b = ⟨start' + i⟩
  functional := by
    rintro a b c ⟨i, _, rfl, rfl⟩ ⟨j, _, same, rfl⟩
    have eq : i = j := by simpa using same
    rw [eq]
  injective := by
    rintro a b c ⟨i, _, rfl, rfl⟩ ⟨j, _, rfl, same⟩
    have eq : i = j := by simpa using same
    rw [eq]

end Pairing

def Value.isContainer : Value → Bool
  | .container _ => true
  | _ => false

/-- A container of a set, or a primitive. -/
def Value.Within (kept : Handle → Prop) (v : Value) : Prop := ∀ h, v = .container h → kept h

/-- Equal but for the identity of a container. -/
inductive Value.Alike (ρ : Pairing) : Value → Value → Prop where
  | container {a b : Handle} : ρ.pairs a b → Alike ρ (.container a) (.container b)
  | leaf {v : Value} : v.isContainer = false → Alike ρ v v

/-- Entries with one name and alike values. -/
def EntryAlike (ρ : Pairing) (a b : String × Value) : Prop := a.1 = b.1 ∧ a.2.Alike ρ b.2

inductive Cell.Alike (ρ : Pairing) : Cell → Cell → Prop where
  | array {xs ys : List Value} : List.Forall₂ (Value.Alike ρ) xs ys → Alike ρ (.array xs) (.array ys)
  | object {m n : Members Value} :
    List.Forall₂ (EntryAlike ρ) m.entries n.entries → Alike ρ (.object m) (.object n)

/-- Paired containers are in their heaps and hold alike values. -/
structure Heap.Alike (ρ : Pairing) (l r : Heap) : Prop where
  left : ∀ {a b}, ρ.pairs a b → a.index < l.size
  right : ∀ {a b}, ρ.pairs a b → b.index < r.size
  cells : ∀ {a b}, ρ.pairs a b → (l.cell a).Alike ρ (r.cell b)

variable {ρ ρ' : Pairing} {l r : Heap}

namespace Value.Alike

variable {v w : Value}

theorem mono (larger : ρ ≤ ρ') (alike : v.Alike ρ w) : v.Alike ρ' w := by
  cases alike with
  | container pair => exact .container (larger _ _ pair)
  | leaf plain => exact .leaf plain

theorem all_mono {vs ws : List Value} (larger : ρ ≤ ρ')
    (alike : List.Forall₂ (Value.Alike ρ) vs ws) : List.Forall₂ (Value.Alike ρ') vs ws :=
  alike.imp fun _ _ => mono larger

theorem isTruthy_eq (alike : v.Alike ρ w) : v.isTruthy = w.isTruthy := by
  cases alike <;> rfl

theorem key?_eq (alike : v.Alike ρ w) : v.key? = w.key? := by
  cases alike <;> rfl

theorem undefined : Value.undefined.Alike ρ .undefined := .leaf rfl

theorem getD_of_rel {a b : Option Value} (alike : Option.Rel (Value.Alike ρ) a b) :
    (a.getD .undefined).Alike ρ (b.getD .undefined) := alike.getD undefined

theorem getD_getElem? {xs ys : List Value} (alike : List.Forall₂ (Value.Alike ρ) xs ys)
    (index : Nat) : ((xs[index]?).getD .undefined).Alike ρ ((ys[index]?).getD .undefined) := by
  induction alike generalizing index with
  | nil => simpa using undefined
  | cons head _ ih =>
    cases index with
    | zero => simpa using head
    | succ index => simpa using ih index

theorem all_set {xs ys : List Value} (items : List.Forall₂ (Value.Alike ρ) xs ys) (index : Nat)
    (values : v.Alike ρ w) : List.Forall₂ (Value.Alike ρ) (xs.set index v) (ys.set index w) := by
  induction items generalizing index with
  | nil => exact .nil
  | cons head tail ih =>
    cases index with
    | zero => exact .cons values tail
    | succ index => exact .cons head (ih index)

theorem all_replicate (values : v.Alike ρ w) (count : Nat) :
    List.Forall₂ (Value.Alike ρ) (List.replicate count v) (List.replicate count w) := by
  induction count with
  | zero => exact .nil
  | succ count ih => exact .cons values ih

end Value.Alike

/-! Every container of a set paired with itself. -/

theorem Value.alike_identity {kept : Handle → Prop} {v : Value} (mem : v.Within kept) :
    v.Alike (.identity kept) v := by
  cases v with
  | container h => exact .container ⟨rfl, mem h rfl⟩
  | _ => exact .leaf rfl

theorem Cell.alike_identity {kept : Handle → Prop} {c : Cell}
    (mem : ∀ child ∈ c.children, child.Within kept) : c.Alike (.identity kept) c := by
  cases c with
  | array items => exact .array (List.forall₂_same.2 fun v inside => Value.alike_identity (mem v inside))
  | object members =>
    exact .object (List.forall₂_same.2 fun entry inside =>
      ⟨rfl, Value.alike_identity (mem entry.2 (List.mem_map_of_mem inside))⟩)

/-- A heap is alike to itself under any set of its containers that reaches no others. -/
theorem Heap.alike_identity {heap : Heap} {kept : Handle → Prop}
    (inside : ∀ h, kept h → h.index < heap.size)
    (closed : ∀ h, kept h → ∀ child ∈ heap.children h, child.Within kept) :
    Heap.Alike (.identity kept) heap heap where
  left := fun pair => inside _ pair.2
  right := fun pair => inside _ (pair.1 ▸ pair.2)
  cells := by
    rintro a _ ⟨rfl, here⟩
    exact Cell.alike_identity (closed a here)

theorem EntryAlike.all_mono {es fs : List (String × Value)} (larger : ρ ≤ ρ')
    (alike : List.Forall₂ (EntryAlike ρ) es fs) : List.Forall₂ (EntryAlike ρ') es fs :=
  alike.imp fun _ _ entry => ⟨entry.1, entry.2.mono larger⟩

theorem Cell.Alike.mono {c d : Cell} (larger : ρ ≤ ρ') (alike : c.Alike ρ d) : c.Alike ρ' d := by
  cases alike with
  | array items => exact .array (Value.Alike.all_mono larger items)
  | object members => exact .object (EntryAlike.all_mono larger members)

/-- Members whose entries are alike. -/
def Members.Alike (ρ : Pairing) (m n : Members Value) : Prop :=
  List.Forall₂ (EntryAlike ρ) m.entries n.entries

namespace Members.Alike

theorem lookup {es fs : List (String × Value)} (alike : List.Forall₂ (EntryAlike ρ) es fs)
    (key : String) : Option.Rel (Value.Alike ρ) (es.lookup key) (fs.lookup key) :=
  List.rel_lookup alike key

theorem put {es fs : List (String × Value)} (alike : List.Forall₂ (EntryAlike ρ) es fs)
    (key : String) {v w : Value} (values : v.Alike ρ w) :
    List.Forall₂ (EntryAlike ρ) (Members.put key v es) (Members.put key w fs) := by
  induction alike with
  | nil => exact .cons ⟨rfl, values⟩ .nil
  | @cons e f _ _ head tail ih =>
    obtain ⟨name, _⟩ := e
    obtain ⟨name', _⟩ := f
    obtain ⟨rfl, old⟩ := head
    simp only [Members.put]
    split
    · exact .cons ⟨rfl, values⟩ tail
    · exact .cons ⟨rfl, old⟩ ih

variable {m n : Members Value}

theorem mono (larger : ρ ≤ ρ') (alike : m.Alike ρ n) : m.Alike ρ' n :=
  EntryAlike.all_mono larger alike

theorem getD_get? (alike : m.Alike ρ n) (key : String) :
    ((m.get? key).getD .undefined).Alike ρ ((n.get? key).getD .undefined) :=
  Value.Alike.getD_of_rel (lookup alike key)

theorem contains_eq (alike : m.Alike ρ n) (key : String) : m.contains key = n.contains key := by
  have found : Option.Rel (Value.Alike ρ) (m.get? key) (n.get? key) := lookup alike key
  exact found.isSome_eq

theorem insert (alike : m.Alike ρ n) (key : String) {v w : Value} (values : v.Alike ρ w) :
    (m.insert key v).Alike ρ (n.insert key w) := put alike key values

theorem erase (alike : m.Alike ρ n) (key : String) : (m.erase key).Alike ρ (n.erase key) := by
  refine List.rel_filter ?_ alike
  rintro e f ⟨name, _⟩
  simp only [name]

theorem empty : Members.empty.Alike ρ .empty := .nil

theorem ofEntries {es fs : List (String × Value)} (alike : List.Forall₂ (EntryAlike ρ) es fs) :
    (Members.ofEntries es).Alike ρ (Members.ofEntries fs) := by
  refine List.rel_foldl (P := Members.Alike ρ) (R := EntryAlike ρ) ?_ empty alike
  rintro m n sofar ⟨key, v⟩ ⟨key', w⟩ ⟨rfl, values⟩
  exact sofar.insert key values

end Members.Alike

/-! Reads of alike values give alike values. -/
namespace Heap.Alike

variable {v w : Value}

theorem hasKey_eq (alike : Heap.Alike ρ l r) (values : v.Alike ρ w) (key : String) :
    l.hasKey v key = r.hasKey w key := by
  cases values with
  | @container a b pair =>
    have cells := alike.cells pair
    simp only [hasKey]
    generalize l.cell a = c at cells
    generalize r.cell b = d at cells
    cases cells with
    | array items => simp only [items.length_eq]
    | object members => exact Members.Alike.contains_eq members key
  | leaf plain => cases v <;> first | rfl | cases plain

theorem member (alike : Heap.Alike ρ l r) (values : v.Alike ρ w) (key : String) :
    (l.member v key).Alike ρ (r.member w key) := by
  cases values with
  | @container a b pair =>
    have cells := alike.cells pair
    simp only [Heap.member]
    generalize l.cell a = c at cells
    generalize r.cell b = d at cells
    cases cells with
    | object members => exact Members.Alike.getD_get? members key
    | array items =>
      simp only [items.length_eq]
      split
      · exact .leaf rfl
      · cases arrayIndex? key with
        | none => exact .undefined
        | some index => exact .getD_getElem? items index
  | leaf plain =>
    have alone : l.member v key = r.member v key := by
      cases v <;> first | rfl | cases plain
    rw [alone]
    cases v with
    | string s =>
      simp only [Heap.member]
      split
      · exact .leaf rfl
      · generalize (arrayIndex? key).bind _ = c
        cases c <;> exact .leaf rfl
    | container => cases plain
    | _ => exact .undefined

theorem memberNamed (alike : Heap.Alike ρ l r) (values : v.Alike ρ w) {key key' : Value}
    (keys : key.Alike ρ key') : (l.memberNamed v key).Alike ρ (r.memberNamed w key') := by
  simp only [Heap.memberNamed, keys.key?_eq]
  cases key'.key? with
  | none => exact .undefined
  | some name => exact alike.member values name

theorem memberAt (alike : Heap.Alike ρ l r) (values : v.Alike ρ w) {key key' : Value}
    (keys : key.Alike ρ key') : (l.memberAt v key).Alike ρ (r.memberAt w key') := by
  have named := alike.memberNamed values keys
  unfold Heap.memberAt
  cases values with
  | leaf plain => cases v <;> first | exact named | cases plain
  | @container a b pair =>
    have cells := alike.cells pair
    cases keys with
    | container => exact named
    | leaf plain =>
      cases key with
      | number n =>
        simp only
        generalize l.cell a = c at cells
        generalize r.cell b = d at cells
        cases cells with
        | object members => exact named
        | array items =>
          simp only
          split
          · exact .getD_getElem? items _
          · exact named
      | _ => exact named

end Heap.Alike

end DataBinding
