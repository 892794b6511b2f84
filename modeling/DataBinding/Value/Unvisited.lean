/-! How much of a finite list a walk has not visited yet, the measure by which walks over
shared and cyclic containers end. -/
namespace DataBinding

variable {α : Type} [DecidableEq α]

def unvisited (all visited : List α) : Nat := all.countP fun a => a ∉ visited

theorem unvisited_cons_le (all visited : List α) (a : α) :
    unvisited all (a :: visited) ≤ unvisited all visited := by
  apply List.countP_mono_left
  intro b _ hb
  simp only [decide_eq_true_eq, List.mem_cons, not_or] at hb ⊢
  exact hb.2

theorem unvisited_cons_lt {all visited : List α} {a : α} (inside : a ∈ all)
    (fresh : a ∉ visited) : unvisited all (a :: visited) < unvisited all visited := by
  induction all with
  | nil => simp at inside
  | cons b rest ih =>
    have tail := unvisited_cons_le rest visited a
    by_cases same : b = a
    · subst same
      have count : unvisited (b :: rest) (b :: visited) = unvisited rest (b :: visited) := by
        simp [unvisited]
      have more : unvisited (b :: rest) visited = unvisited rest visited + 1 := by
        simp [unvisited, fresh]
      omega
    · have later : a ∈ rest := by
        rcases List.mem_cons.1 inside with h | h
        · exact absurd h.symm same
        · exact h
      have below := ih later
      by_cases seen : b ∈ visited
      · simpa [unvisited, List.countP_cons, same, seen] using below
      · simpa [unvisited, List.countP_cons, same, seen] using below

theorem unvisited_congr {all visited other : List α} (same : ∀ a, a ∈ visited ↔ a ∈ other) :
    unvisited all visited = unvisited all other := by
  simp only [unvisited, same]

end DataBinding
