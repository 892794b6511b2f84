/-! Insertion-ordered members with distinct names. Inserting under a name that is present
replaces the value in place; a new name goes last. -/
namespace DataBinding

structure Members (α : Type) where
  entries : List (String × α)
  distinct : (entries.map Prod.fst).Nodup

namespace Members

variable {α β : Type}

def empty : Members α := ⟨[], .nil⟩

instance : Inhabited (Members α) := ⟨empty⟩

def keys (m : Members α) : List String := m.entries.map Prod.fst

def values (m : Members α) : List α := m.entries.map Prod.snd

def size (m : Members α) : Nat := m.entries.length

def get? (m : Members α) (key : String) : Option α := m.entries.lookup key

def contains (m : Members α) (key : String) : Bool := (m.get? key).isSome

def put (key : String) (value : α) : List (String × α) → List (String × α)
  | [] => [(key, value)]
  | (k, v) :: rest => if k = key then (key, value) :: rest else (k, v) :: put key value rest

theorem keys_put (key : String) (value : α) (entries : List (String × α)) :
    (put key value entries).map Prod.fst =
      if key ∈ entries.map Prod.fst then entries.map Prod.fst
      else entries.map Prod.fst ++ [key] := by
  induction entries with
  | nil => rfl
  | cons head rest ih =>
    obtain ⟨k, v⟩ := head
    by_cases same : k = key
    · simp [put, same]
    · have other : ¬ key = k := fun h => same h.symm
      simp only [put, if_neg same, List.map_cons, ih, List.mem_cons, other, false_or]
      split <;> rfl

theorem nodup_put (key : String) (value : α) {entries : List (String × α)}
    (distinct : (entries.map Prod.fst).Nodup) : ((put key value entries).map Prod.fst).Nodup := by
  rw [keys_put]
  split
  · exact distinct
  · rename_i fresh
    rw [List.nodup_append]
    refine ⟨distinct, List.nodup_cons.2 ⟨List.not_mem_nil, .nil⟩, ?_⟩
    intro a ha b hb same
    rw [List.mem_singleton] at hb
    exact fresh (hb ▸ same ▸ ha)

def insert (m : Members α) (key : String) (value : α) : Members α :=
  ⟨put key value m.entries, nodup_put key value m.distinct⟩

def erase (m : Members α) (key : String) : Members α :=
  ⟨m.entries.filter fun entry => entry.1 ≠ key,
    (List.filter_sublist.map Prod.fst).nodup m.distinct⟩

/-- Entries inserted one after another. -/
def ofEntries (entries : List (String × α)) : Members α :=
  entries.foldl (fun m entry => m.insert entry.1 entry.2) empty

def map (f : α → β) (m : Members α) : Members β :=
  ⟨m.entries.map fun entry => (entry.1, f entry.2), by
    rw [List.map_map]
    exact m.distinct⟩

theorem keys_insert (m : Members α) (key : String) (value : α) :
    (m.insert key value).keys = if key ∈ m.keys then m.keys else m.keys ++ [key] :=
  keys_put key value m.entries

theorem lookup_put (key : String) (value : α) (entries : List (String × α)) (other : String) :
    (put key value entries).lookup other =
      if other = key then some value else entries.lookup other := by
  induction entries with
  | nil =>
    by_cases same : other = key
    · simp [put, same]
    · have apart : (other == key) = false := beq_eq_false_iff_ne.2 same
      simp [put, List.lookup_cons, same, apart]
  | cons head rest ih =>
    obtain ⟨k, v⟩ := head
    by_cases here : k = key
    · subst here
      by_cases same : other = k
      · simp [put, same]
      · have apart : (other == k) = false := beq_eq_false_iff_ne.2 same
        simp [put, List.lookup_cons, same, apart]
    · simp only [put, if_neg here, List.lookup_cons, ih]
      by_cases same : other = key
      · subst same
        have apart : (other == k) = false := beq_eq_false_iff_ne.2 fun h => here h.symm
        simp [apart]
      · simp [same]

theorem get?_insert (m : Members α) (key : String) (value : α) (other : String) :
    (m.insert key value).get? other = if other = key then some value else m.get? other :=
  lookup_put key value m.entries other

end Members
end DataBinding
