import DataBinding.Proofs.Footprints
import DataBinding.Proofs.Moments
import Mathlib.Data.List.Chain
import Mathlib.Logic.Relation

/-! Bindings between the fields of the data. A watcher depends on the fields that it reads, and its
listener sets other fields. So watchers feed one another through the fields, and a settled watcher
stays settled until one that feeds it is told of a change. -/
namespace DataBinding

variable {κ σ : Type}

/-! The graph. -/

/-- The fields that each watcher reads and those that its listener sets. -/
structure Bindings where
  reads : Nat → String → Bool
  writes : Nat → String → Bool

namespace Bindings

variable (bindings : Bindings) (ids : List Nat)

/-- The listener of one watcher sets a field that the other one reads. -/
def Feeds (a b : Nat) : Prop :=
  a ∈ ids ∧ b ∈ ids ∧ ∃ key, bindings.writes a key = true ∧ bindings.reads b key = true

/-- Different watchers of which each feeds the next. -/
def Chain (chain : List Nat) : Prop :=
  chain.Nodup ∧ chain.IsChain (bindings.Feeds ids) ∧ ∀ id ∈ chain, id ∈ ids

/-- The chains that end with the watcher have at most `depth` watchers. -/
def Within (depth id : Nat) : Prop :=
  ∀ before, bindings.Chain ids (before ++ [id]) → before.length + 1 ≤ depth

variable {bindings ids} {a b id depth : Nat}

theorem Within.mono {deeper : Nat} (within : bindings.Within ids depth id) (le : depth ≤ deeper) :
    bindings.Within ids deeper id :=
  fun before chain => Nat.le_trans (within before chain) le

theorem not_within_zero (mem : id ∈ ids) : ¬ bindings.Within ids 0 id := by
  intro within
  have alone : bindings.Chain ids ([] ++ [id]) := by simpa [Chain] using mem
  exact Nat.not_succ_le_zero _ (within [] alone)

/-- There are no cycles if watchers can be ranked so that each feeds only those of a lower rank. -/
theorem acyclic_of_rank (rank : Nat → Nat) (lower : ∀ a b, bindings.Feeds ids a b → rank b < rank a)
    (id : Nat) : ¬ Relation.TransGen (bindings.Feeds ids) id id := by
  have descends : ∀ {a b}, Relation.TransGen (bindings.Feeds ids) a b → rank b < rank a := by
    intro a b reaches
    induction reaches with
    | single feeds => exact lower _ _ feeds
    | tail _ feeds ih => exact Nat.lt_trans (lower _ _ feeds) ih
  exact fun cycle => Nat.lt_irrefl _ (descends cycle)

/-- Without cycles no chain comes to a watcher twice. -/
theorem nodup_of_isChain (acyclic : ∀ id, ¬ Relation.TransGen (bindings.Feeds ids) id id)
    {chain : List Nat} (feeds : chain.IsChain (bindings.Feeds ids)) : chain.Nodup := by
  have reaches := (feeds.imp fun _ _ => Relation.TransGen.single).pairwise
  refine reaches.imp ?_
  rintro a _ cycle rfl
  exact acyclic a cycle

/-- What feeds a watcher is less deep. -/
theorem Within.of_feeds (acyclic : ∀ id, ¬ Relation.TransGen (bindings.Feeds ids) id id)
    (feeds : bindings.Feeds ids a b) (within : bindings.Within ids (depth + 1) b) :
    bindings.Within ids depth a := by
  intro before chain
  obtain ⟨_, linked, registered⟩ := chain
  have longer : ((before ++ [a]) ++ [b]).IsChain (bindings.Feeds ids) := by
    refine linked.append (.singleton b) ?_
    simpa using feeds
  have extended : bindings.Chain ids ((before ++ [a]) ++ [b]) := by
    refine ⟨nodup_of_isChain acyclic longer, longer, List.forall_mem_append.2 ⟨registered, ?_⟩⟩
    simpa using feeds.2.1
  have bound := within _ extended
  rw [List.length_append, List.length_singleton] at bound
  exact Nat.le_of_succ_le_succ bound

end Bindings

/-! Outcomes. -/

namespace Comparison

variable {comparison : Comparison} {heap heap' : Heap} {v new last : Value} {past : Value × Heap}

/-- Outcomes in two heaps that are not told apart. -/
inductive SameOutcome (comparison : Comparison) (heap heap' : Heap) :
    Except Fault Value → Except Fault Value → Prop where
  | fault {fault fault' : Fault} : SameOutcome comparison heap heap' (.error fault) (.error fault')
  | value {new new' : Value} : comparison.Matches heap new (new', heap') →
    SameOutcome comparison heap heap' (.ok new) (.ok new')

end Comparison

/-- The watcher's listener sets only the fields that it writes and, at the given moments, the
watcher's outcome depends only on which values the fields hold that it reads. -/
structure Bindings.Governs (bindings : Bindings) (client : Client κ σ) (moment : World κ σ → Prop)
    (watcher : Watcher κ) : Prop where
  sets : ∀ key, watcher.listener = some key → ∀ new old,
    (client.listen key new old).Uses (Op.setsOnly (bindings.writes watcher.id))
  determined : ∀ {u v u' v' : World κ σ} {answer answer' : Except Fault Value}, moment u → moment v →
    (∀ key, bindings.reads watcher.id key = true → u.get key = v.get key) →
    World.evaluate client noDigest watcher u = some (answer, u') →
    World.evaluate client noDigest watcher v = some (answer', v') →
    watcher.comparison.SameOutcome u'.heap v'.heap answer answer'

theorem World.evaluate_akin {client : Client κ σ} {a b : Watcher κ} (akin : a.Akin b)
    (nested : Digest κ σ) (w : World κ σ) :
    evaluate client nested a w = evaluate client nested b w := by
  unfold evaluate
  rw [akin.id, akin.source]

theorem Bindings.Governs.of_akin {client : Client κ σ} {bindings : Bindings}
    {moment : World κ σ → Prop} {a b : Watcher κ} (akin : a.Akin b)
    (governs : bindings.Governs client moment a) : bindings.Governs client moment b where
  sets := by
    rw [← akin.id, ← akin.listener]
    exact governs.sets
  determined := by
    intro u v u' v' answer answer' first second same evaluated evaluated'
    rw [← World.evaluate_akin akin] at evaluated evaluated'
    rw [← akin.id] at same
    rw [← akin.comparison]
    exact governs.determined first second same evaluated evaluated'

namespace World

variable {client : Client κ σ} {nested : Digest κ σ} {bindings : Bindings}
  {moment : World κ σ → Prop} {w w' w₁ u : World κ σ} {watcher a b : Watcher κ} {new : Value}

/-! Settled watchers. -/

/-- A watcher is settled if what it keeps matches what it answered at a moment at which the fields
that it reads held the same values. -/
theorem settled_of_memory (closed : w'.Closed) (akin : a.Akin b) (reads : b.OnlyReads client)
    (governs : bindings.Governs client moment a) (now : moment w) (later : moment w')
    (same : ∀ key, bindings.reads a.id key = true → w'.get key = w.get key)
    {answer : Except Fault Value} (evaluated : evaluate client noDigest a w = some (answer, u))
    (detached : b.DetachedFrom w'.scope.data w'.heap)
    (remembers : ∀ new, answer = .ok new → ∃ last, b.last = some last ∧
      a.comparison.Matches w'.heap last (new, u.heap)) : w'.Settled client b := by
  obtain ⟨answer', u', reading, evaluated'⟩ := evaluate_onlyReads reads closed
  have again : evaluate client noDigest a w' = some (answer', u') := by
    rw [evaluate_akin akin]
    exact evaluated' noDigest
  have outcome := governs.determined later now same again evaluated
  refine ⟨answer', u', evaluated' noDigest, ?_⟩
  rintro new' rfl
  cases outcome with
  | @value _ new matched =>
    obtain ⟨last, seen, kept⟩ := remembers new rfl
    have still := kept.similar fun value =>
      detached.similar reading.heap.keeps (akin.comparison ▸ value) seen
    unfold Watcher.isSettled
    rw [seen, Option.any_some, ← akin.comparison]
    exact (Comparison.equal_iff_matches still).2 matched

/-- A settled watcher stays settled if no field that it reads was set. -/
theorem SettledAt.touched {id : Nat} {keys : String → Bool} {who : Nat → Prop}
    (reads : ∀ key, (client.watch key).OnlyReads) (closed : w.Closed) (closed' : w'.Closed)
    (governs : ∀ watcher ∈ w.scope.watchers, bindings.Governs client moment watcher)
    (detached : w.Detached) (now : moment w) (later : moment w') (touches : w.Touches keys who w')
    (other : ¬ who id) (unset : ∀ key, bindings.reads id key = true → keys key = false)
    (settled : w.SettledAt client id) : w'.SettledAt client id := by
  rintro watcher mem' rfl
  have found : w.scope.find? watcher.id = some watcher := by
    rw [← touches.others watcher.id other]
    exact Scope.find?_eq_some_iff.2 ⟨mem', rfl⟩
  obtain ⟨mem, _⟩ := Scope.find?_eq_some_iff.1 found
  obtain ⟨answer, u, evaluated, matched⟩ := settled watcher mem rfl
  obtain ⟨_, _, reading, evaluated'⟩ := evaluate_reads reads closed watcher
  cases evaluated.symm.trans (evaluated' noDigest)
  have apart := detached watcher mem
  refine settled_of_memory closed' (.refl watcher) (fun key _ => reads key) (governs watcher mem)
    now later (fun key read => touches.fields key (unset key read)) evaluated ?_ ?_
  · rw [touches.data]
    exact apart.keeps touches.heap
  · rintro new rfl
    obtain ⟨last, seen, equal⟩ := (Option.any_eq_true _ _).1 (matched new rfl)
    refine ⟨last, seen, (Comparison.matches_of_equal equal).similar fun value => ?_⟩
    have before := apart.similar reading.heap.keeps value seen
    exact before.symm.trans (apart.similar touches.heap value seen)

/-- A watcher that is told of a change is settled afterwards, unless it feeds itself. -/
theorem Changed.told (reads : watcher.OnlyReads client) (closed : w.Closed)
    (governs : bindings.Governs client moment watcher)
    (changed : Changed client w watcher new w₁) (nested : Digest κ σ) (marker : Option Marker)
    (unset : ∀ key, bindings.reads watcher.id key = true → bindings.writes watcher.id key = false) :
    ∃ w', tell client nested watcher new
        ((w₁.report (.answered watcher.id new w₁.heap)).mark marker) = some w' ∧
      w.Touches (bindings.writes watcher.id) (· = watcher.id) w' ∧ w'.scope.marker = marker ∧
      (∀ told ∈ w'.scope.watchers, told.id = watcher.id → told.DetachedFrom w'.scope.data w'.heap) ∧
      (moment w → moment w' → w'.Closed → w'.SettledAt client watcher.id) := by
  have holds := (changed.closedWith closed).holds
  obtain ⟨mem, evaluated, reading, _⟩ := changed
  have asked : w.Touches (bindings.writes watcher.id) (· = watcher.id)
      ((w₁.report (.answered watcher.id new w₁.heap)).mark marker) :=
    (Touches.of_writes (.of_grown closed.inside (reading.toGrown.trans (.report w₁ _)))).trans
      (.mark _ _)
  have found : ((w₁.report (.answered watcher.id new w₁.heap)).mark marker).scope.find? watcher.id =
      some watcher := by
    show w₁.scope.find? watcher.id = some watcher
    rw [reading.scope]
    exact Scope.find?_eq_some_iff.2 ⟨mem, rfl⟩
  obtain ⟨w', told, touches, marked, kept, heap⟩ :=
    tell_touches nested found governs.sets new (asked.inside closed.inside)
  rw [asked.data] at heap
  have only : ∀ told ∈ w'.scope.watchers, told.id = watcher.id →
      told = watcher.keeping w₁.heap new := fun told mem' same =>
    Option.some.inj ((Scope.find?_eq_some_iff.2 ⟨mem', same⟩).symm.trans kept)
  have copied : (watcher.keeping w₁.heap new).DetachedFrom w.scope.data
      (watcher.comparison.remember w₁.heap new).2 :=
    .keeping watcher holds (Nat.lt_of_lt_of_le closed.inside reading.heap.size)
  have detached : (watcher.keeping w₁.heap new).DetachedFrom w'.scope.data w'.heap := by
    rw [touches.data, asked.data]
    exact copied.keeps heap
  refine ⟨w', told, asked.trans touches, marked, fun told mem' same => only told mem' same ▸ detached,
    fun now later closed' told mem' same => ?_⟩
  rw [only told mem' same]
  refine settled_of_memory closed' (watcher.akin_keeping w₁.heap new) reads governs now later
    (fun key read => (asked.trans touches).fields key (unset key read)) evaluated detached ?_
  rintro _ ⟨rfl⟩
  have before : watcher.comparison.Matches _ _ (new, w₁.heap) :=
    Comparison.remember_matches_before holds
  exact ⟨_, rfl, before.similar fun value => copied.similar heap value rfl⟩

end World
end DataBinding
