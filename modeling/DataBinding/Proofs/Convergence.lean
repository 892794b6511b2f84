import DataBinding.Proofs.Bindings

/-! Digests of bindings without cycles. Once the watchers that feed a watcher are settled for good,
the next pass settles the watcher for good. So the passes settle the watchers layer by layer, in
whatever order they are registered, and there are no more passes with changes than watchers on the
longest chain. -/

/-- Elements of a kind that stand only at the first places of a list. -/
theorem List.countP_le_of_getElem? {α : Type} {p : α → Bool} {items : List α} {n : Nat}
    (early : ∀ i item, items[i]? = some item → p item = true → i < n) : items.countP p ≤ n := by
  have rest : (items.drop n).countP p = 0 := by
    rw [List.countP_eq_zero]
    intro item mem kind
    obtain ⟨i, here⟩ := List.mem_iff_getElem?.1 mem
    rw [List.getElem?_drop] at here
    exact Nat.not_lt.2 (Nat.le_add_right n i) (early _ item here kind)
  calc items.countP p = (items.take n ++ items.drop n).countP p := by rw [List.take_append_drop]
    _ = (items.take n).countP p := by rw [List.countP_append, rest, Nat.add_zero]
    _ ≤ (items.take n).length := List.countP_le_length
    _ ≤ n := List.length_take_le n items

namespace DataBinding

variable {κ σ : Type}

namespace World

/-! What passes find changed. -/

/-- The watchers that are found changed when the given ones are visited in order. -/
def changedAll (client : Client κ σ) (nested : Digest κ σ) (generation : UInt64) :
    List Nat → World κ σ → List Nat
  | [], _ => []
  | id :: rest, w =>
    match visit client nested generation id w with
    | none => []
    | some (.settled, _) => []
    | some (.clean, w) => changedAll client nested generation rest w
    | some (.dirty, w) => id :: changedAll client nested generation rest w

/-- The watchers that each of the passes finds changed. -/
def changedPasses (client : Client κ σ) (nested : Digest κ σ) :
    (left : Nat) → World κ σ → List (List Nat)
  | 0, _ => []
  | left + 1, w =>
    changedAll client nested w.scope.generation w.scope.ids (w.report .passStarted) ::
      match pass client nested w with
      | some (true, w) => changedPasses client nested left w
      | _ => []

/-- The watchers that each pass of a digest finds changed. -/
def digestChanges (client : Client κ σ) : (depth : Nat) → World κ σ → List (List Nat)
  | 0, _ => []
  | depth + 1, w =>
    changedPasses client (digest client depth) (max w.scope.config.ttl 1) (w.mark none)

variable {client : Client κ σ} {nested : Digest κ σ} {bindings : Bindings}
  {moment : World κ σ → Prop} {w w' : World κ σ} {generation : UInt64}

/-- A pass tells that there were changes exactly if it found one. -/
theorem visitAll_changed {ids : List Nat} {dirty changed : Bool}
    (run : visitAll client nested generation ids dirty w = some (changed, w')) :
    changed = (dirty || !(changedAll client nested generation ids w).isEmpty) := by
  induction ids generalizing dirty w with
  | nil =>
    cases run
    simp [changedAll]
  | cons id rest ih =>
    simp only [visitAll] at run
    cases visited : visit client nested generation id w with
    | none =>
      rw [visited] at run
      cases run
    | some result =>
      obtain ⟨turn, w₁⟩ := result
      simp only [visited] at run
      simp only [changedAll, visited]
      cases turn with
      | clean => exact ih run
      | dirty => simpa using ih run
      | settled =>
        cases run
        simp

/-! Visits. -/

/-- A world in which the bindings govern all watchers and no watcher keeps the data as a copy. -/
structure Governed (bindings : Bindings) (client : Client κ σ) (moment : World κ σ → Prop)
    (w : World κ σ) : Prop where
  closed : w.Closed
  detached : w.Detached
  governs : ∀ watcher ∈ w.scope.watchers, bindings.Governs client moment watcher

theorem Governed.touched {keys : String → Bool} {who : Nat → Prop}
    (governed : w.Governed bindings client moment) (closed : w'.Closed)
    (touches : w.Touches keys who w')
    (told : ∀ watcher ∈ w'.scope.watchers, who watcher.id →
      watcher.DetachedFrom w'.scope.data w'.heap) : w'.Governed bindings client moment where
  closed := closed
  detached := by
    intro watcher mem
    by_cases own : who watcher.id
    · exact told watcher mem own
    · have found : w.scope.find? watcher.id = some watcher := by
        rw [← touches.others watcher.id own]
        exact Scope.find?_eq_some_iff.2 ⟨mem, rfl⟩
      rw [touches.data]
      exact (governed.detached watcher (Scope.find?_eq_some_iff.1 found).1).keeps touches.heap
  governs := by
    intro watcher mem
    obtain ⟨before, found, akin⟩ :=
      touches.akin watcher.id watcher (Scope.find?_eq_some_iff.2 ⟨mem, rfl⟩)
    exact (governed.governs before (Scope.find?_eq_some_iff.1 found).1).of_akin akin

section

variable (reads : ∀ key, (client.watch key).OnlyReads) (keeps : nested.Keeps ClosedWith)
  {ids : List Nat} (alone : ∀ id, ¬ bindings.Feeds ids id id)

include reads keeps alone

/-- A visit either only reads, and its watcher is settled, or it tells a watcher of a change, and the
watcher is settled afterwards. -/
theorem visit_governed (generation : UInt64) (id : Nat)
    (governed : w.Governed bindings client moment) (registered : w.scope.ids = ids) :
    ∃ turn w', visit client nested generation id w = some (turn, w') ∧
      w'.Governed bindings client moment ∧ w'.scope.ids = ids ∧
      ((turn ≠ .dirty ∧ w.SettledAt client id ∧ w.Reads w' ∧
          (turn = .settled → w.scope.marker = some ⟨id, w.scope.generation⟩)) ∨
        (turn = .dirty ∧ ¬ w.SettledAt client id ∧ w.Touches (bindings.writes id) (· = id) w' ∧
          w'.scope.marker = some ⟨id, generation⟩ ∧
          (moment w → moment w' → w'.SettledAt client id))) := by
  rcases visit_cases reads governed.closed nested generation id with
    ⟨turn, w', visited, clean, reading, settled, stops⟩ | ⟨watcher, new, w₁, rfl, changed, visited⟩
  · have touches : w.Touches (fun _ => true) (fun _ => False) w' :=
      .of_writes (.of_grown governed.closed.inside reading.toGrown)
    exact ⟨turn, w', visited, governed.touched (reading.closed governed.closed) touches nofun,
      touches.ids.trans registered, .inl ⟨clean, settled, reading, stops⟩⟩
  · have mem : watcher.id ∈ ids := registered ▸ List.mem_map_of_mem changed.1
    have unset : ∀ key, bindings.reads watcher.id key = true →
        bindings.writes watcher.id key = false := by
      intro key read
      refine Bool.eq_false_iff.2 fun written => ?_
      exact alone watcher.id ⟨mem, mem, key, written, read⟩
    obtain ⟨w', told, touches, marker, detached, settled⟩ := changed.told (fun key _ => reads key)
      governed.closed (governed.governs watcher changed.1) nested (some ⟨watcher.id, generation⟩) unset
    rw [told, Option.map_some] at visited
    have closed := (stable_closed.visit keeps [] visited governed.closed.with_none).closed
    exact ⟨.dirty, w', visited, governed.touched closed touches detached,
      touches.ids.trans registered, .inr ⟨rfl, changed.not_settled, touches, marker,
        fun now later => settled now later closed⟩⟩

end

/-! Passes. -/

/-- What is known in a pass that has visited the watchers of `seen`. There is a set of watchers
that nothing else feeds and that stay settled. A visited watcher that only this set feeds is settled
too. -/
structure Layered (bindings : Bindings) (client : Client κ σ) (ids : List Nat) (calm : Nat → Prop)
    (seen : List Nat) (w : World κ σ) : Prop where
  fed : ∀ a b, bindings.Feeds ids a b → calm b → calm a
  settled : ∀ id ∈ ids, calm id → w.SettledAt client id
  visited : ∀ id ∈ seen, (∀ a, bindings.Feeds ids a id → calm a) → w.SettledAt client id

namespace Layered

variable {ids seen : List Nat} {calm : Nat → Prop} {id : Nat}

/-- A visit that finds no change. -/
theorem reads (layered : w.Layered bindings client ids calm seen) (closed : w.Closed)
    (reading : w.Reads w') (here : w.SettledAt client id) :
    w'.Layered bindings client ids calm (seen ++ [id]) where
  fed := layered.fed
  settled := fun other mem still => (layered.settled other mem still).reads closed reading
  visited := by
    intro other mem next
    rcases List.mem_append.1 mem with before | last
    · exact (layered.visited other before next).reads closed reading
    · rw [List.mem_singleton.1 last]
      exact here.reads closed reading

/-- A visit that finds a change. The fields that are set are none of those that the set and what it
alone feeds depend on. -/
theorem told (only : ∀ key, (client.watch key).OnlyReads)
    (layered : w.Layered bindings client ids calm seen)
    (governed : w.Governed bindings client moment) (closed : w'.Closed) (now : moment w)
    (later : moment w') (touches : w.Touches (bindings.writes id) (· = id) w') (mem : id ∈ ids)
    (registered : ∀ other ∈ seen, other ∈ ids) (fresh : id ∉ seen)
    (unsettled : ¬ w.SettledAt client id) (here : w'.SettledAt client id) :
    w'.Layered bindings client ids calm (seen ++ [id]) := by
  have changes : ¬ calm id := fun still => unsettled (layered.settled id mem still)
  have stays : ∀ other ∈ ids, other ≠ id → ¬ bindings.Feeds ids id other →
      w.SettledAt client other → w'.SettledAt client other := by
    intro other mem' differs unfed still
    refine still.touched only governed.closed closed governed.governs governed.detached now later
      touches differs fun key read => Bool.eq_false_iff.2 fun written => ?_
    exact unfed ⟨mem, mem', key, written, read⟩
  refine ⟨layered.fed, fun other mem' still => ?_, fun other mem' next => ?_⟩
  · refine stays other mem' ?_ (fun feeds => changes (layered.fed id other feeds still))
      (layered.settled other mem' still)
    rintro rfl
    exact changes still
  · rcases List.mem_append.1 mem' with before | last
    · refine stays other (registered other before) ?_ (fun feeds => changes (next id feeds))
        (layered.visited other before next)
      rintro rfl
      exact fresh before
    · rw [List.mem_singleton.1 last]
      exact here

end Layered

section

variable (reads : ∀ key, (client.watch key).OnlyReads) (keeps : nested.Keeps ClosedWith)
  {ids : List Nat} (alone : ∀ id, ¬ bindings.Feeds ids id id)
  {during : World κ σ → World κ σ → Prop} {calm : Nat → Prop}

include reads keeps alone

/-- A pass does not change the watchers of a set that is settled before it and that nothing else
feeds. If it changes others, then the watchers that only this set feeds are settled after it. -/
theorem visitAll_governed {seen rest : List Nat} {dirty : Bool}
    (governed : w.Governed bindings client moment) (registered : w.scope.ids = ids)
    (split : ids = seen ++ rest)
    (moments : ∀ v, VisitAllMeets client nested during generation rest w v → moment v)
    (layered : w.Layered bindings client ids calm seen)
    (marked : dirty = true → ∃ id ∈ seen, w.scope.marker = some ⟨id, generation⟩) :
    ∃ changed w', visitAll client nested generation rest dirty w = some (changed, w') ∧
      w'.Governed bindings client moment ∧ w'.scope.ids = ids ∧
      (∀ id ∈ changedAll client nested generation rest w, id ∈ rest ∧ ¬ calm id) ∧
      (changed = true → w'.Layered bindings client ids calm ids) := by
  induction rest generalizing seen w dirty with
  | nil =>
    rw [List.append_nil] at split
    exact ⟨dirty, w, rfl, governed, registered, by simp [changedAll], fun _ => split ▸ layered⟩
  | cons id rest ih =>
    have shifted : ids = (seen ++ [id]) ++ rest := by rw [split]; simp
    have mem : id ∈ ids := by rw [split]; simp
    have fresh : id ∉ seen := Scope.not_mem_of_ids (registered.trans split)
    obtain ⟨turn, w₁, run, governed₁, registered₁, ⟨clean, here, reading, stops⟩ |
      ⟨rfl, unsettled, touches, marker, after⟩⟩ :=
        visit_governed reads keeps alone generation id governed registered
    · have marked₁ : dirty = true → ∃ other ∈ seen ++ [id],
          w₁.scope.marker = some ⟨other, generation⟩ := by
        intro found
        obtain ⟨other, before, marker⟩ := marked found
        exact ⟨other, List.mem_append_left _ before, by rw [reading.scope, marker]⟩
      cases turn with
      | dirty => exact absurd rfl clean
      | clean =>
        obtain ⟨changed, w', others, governed', registered', least, next⟩ := ih governed₁ registered₁
          shifted (fun v meets => moments v (.later run (by simp) meets))
          (layered.reads governed.closed reading here) marked₁
        refine ⟨changed, w', by simp only [visitAll, run, others], governed', registered', ?_, next⟩
        intro other mem'
        simp only [changedAll, run] at mem'
        exact (least other mem').imp_left (List.mem_cons_of_mem _)
      | settled =>
        refine ⟨dirty, w₁, by simp only [visitAll, run], governed₁, registered₁, ?_, ?_⟩
        · simp [changedAll, run]
        · intro found
          -- the marker of a pass that found a change is behind it
          obtain ⟨other, before, marker⟩ := marked found
          cases marker.symm.trans (stops rfl)
          exact absurd before fresh
    · have now := moments w (.visit .turn)
      have later := moments w₁ (.later run (by simp) (.start _ _ _ _ _ _))
      have marked₁ : true = true → ∃ other ∈ seen ++ [id],
          w₁.scope.marker = some ⟨other, generation⟩ := fun _ => ⟨id, by simp, marker⟩
      have inside : ∀ other ∈ seen, other ∈ ids := by
        intro other before
        rw [split]
        exact List.mem_append_left _ before
      obtain ⟨changed, w', others, governed', registered', least, next⟩ := ih governed₁ registered₁
        shifted (fun v meets => moments v (.later run (by simp) meets))
        (layered.told reads governed governed₁.closed now later touches mem inside fresh unsettled
          (after now later)) marked₁
      refine ⟨changed, w', by simp only [visitAll, run, others], governed', registered', ?_, next⟩
      intro other mem'
      simp only [changedAll, run] at mem'
      rcases List.mem_cons.1 mem' with rfl | mem'
      · exact ⟨List.mem_cons_self, fun still => unsettled (layered.settled _ mem still)⟩
      · exact (least other mem').imp_left (List.mem_cons_of_mem _)

end

/-- When the watchers with chains of at most `done` watchers are settled, a pass finds changes only
behind longer chains. If it finds one, the watchers with chains one longer are settled after it. -/
theorem pass_governed (reads : ∀ key, (client.watch key).OnlyReads)
    (keeps : nested.Keeps ClosedWith)
    (acyclic : ∀ id, ¬ Relation.TransGen (bindings.Feeds w.scope.ids) id id)
    {during : World κ σ → World κ σ → Prop} {done : Nat}
    (governed : w.Governed bindings client moment)
    (moments : ∀ v, VisitAllMeets client nested during w.scope.generation w.scope.ids
      (w.report .passStarted) v → moment v)
    (settled : ∀ id ∈ w.scope.ids, bindings.Within w.scope.ids done id → w.SettledAt client id) :
    ∃ found w', pass client nested w = some (!found.isEmpty, w') ∧
      changedAll client nested w.scope.generation w.scope.ids (w.report .passStarted) = found ∧
      w'.Governed bindings client moment ∧ w'.scope.ids = w.scope.ids ∧
      (∀ id ∈ found, id ∈ w.scope.ids ∧
        ∀ depth, bindings.Within w.scope.ids depth id → done < depth) ∧
      (found ≠ [] → ∀ id ∈ w.scope.ids, bindings.Within w.scope.ids (done + 1) id →
        w'.SettledAt client id) := by
  have alone : ∀ id, ¬ bindings.Feeds w.scope.ids id id := fun id feeds => acyclic id (.single feeds)
  have started := Grown.report w .passStarted
  have governed₁ : (w.report .passStarted).Governed bindings client moment :=
    ⟨started.closed governed.closed, governed.detached, governed.governs⟩
  have layered : (w.report .passStarted).Layered bindings client w.scope.ids
      (bindings.Within w.scope.ids done) [] :=
    ⟨fun a b feeds within => (within.mono (Nat.le_succ done)).of_feeds acyclic feeds,
      fun id mem within => (settled id mem within).grown governed.closed started, by simp⟩
  have unmarked : false = true → ∃ id ∈ ([] : List Nat),
      (w.report .passStarted).scope.marker = some ⟨id, w.scope.generation⟩ := nofun
  obtain ⟨changed, w', passed, governed', registered, least, next⟩ :=
    visitAll_governed reads keeps alone governed₁ rfl rfl moments layered unmarked
  have found := visitAll_changed passed
  rw [Bool.false_or] at found
  refine ⟨_, w', found ▸ passed, rfl, governed', registered, fun id mem => ?_, fun some => ?_⟩
  · obtain ⟨inside, outside⟩ := least id mem
    exact ⟨inside, fun depth within => Nat.lt_of_not_le fun le => outside (within.mono le)⟩
  · intro id mem within
    refine (next ?_).visited id mem fun a feeds => within.of_feeds acyclic feeds
    simpa [found] using some

/-- Passes settle the watchers layer by layer: after each one that finds a change, the watchers with
chains one longer are settled. -/
theorem passes_governed (reads : ∀ key, (client.watch key).OnlyReads)
    (keeps : nested.Keeps ClosedWith) {ids : List Nat}
    (acyclic : ∀ id, ¬ Relation.TransGen (bindings.Feeds ids) id id)
    {during : World κ σ → World κ σ → Prop} {left done longest : Nat}
    (bounded : ∀ id ∈ ids, bindings.Within ids longest id) (early : done ≤ longest)
    (governed : w.Governed bindings client moment) (registered : w.scope.ids = ids)
    (moments : ∀ v, PassesMeet client nested during left w v → moment v)
    (settled : ∀ id ∈ ids, bindings.Within ids done id → w.SettledAt client id) :
    ∃ outcome w', passes client nested left done w = some (outcome, w') ∧
      (longest < done + left → outcome = .ok () ∧
        done + (changedPasses client nested left w).length ≤ longest + 1 ∧
        ∃ earlier, w'.journal =
          .converged (done + (changedPasses client nested left w).length) :: earlier) ∧
      ∀ n changed, (changedPasses client nested left w)[n]? = some changed →
        ∀ id ∈ changed, id ∈ ids ∧ ∀ depth, bindings.Within ids depth id → done + n < depth := by
  induction left generalizing w done with
  | zero =>
    refine ⟨_, _, rfl, fun enough => ?_, by simp [changedPasses]⟩
    exact absurd enough (Nat.not_lt.2 early)
  | succ left ih =>
    subst registered
    obtain ⟨found, w₁, passed, changed, governed₁, registered₁, deep, next⟩ := pass_governed reads
      keeps acyclic governed (fun v meets => moments v (.pass meets)) settled
    simp only [changedPasses, passes, passed, changed]
    cases found with
    | nil =>
      refine ⟨_, _, rfl, fun _ => ⟨rfl, Nat.succ_le_succ early, w₁.journal, rfl⟩, ?_⟩
      rintro (_ | n) others ⟨⟩ id mem
      cases mem
    | cons id rest =>
      have less : done < longest := by
        obtain ⟨mem, deeper⟩ := deep id List.mem_cons_self
        exact deeper longest (bounded id mem)
      obtain ⟨outcome, w', run, converges, later⟩ := ih less governed₁ registered₁
        (fun v meets => moments v (.later passed meets)) (next (List.cons_ne_nil id rest))
      refine ⟨outcome, w', run, fun enough => ?_, ?_⟩
      · obtain ⟨ok, short, earlier, journal⟩ := converges (by omega)
        rw [Nat.succ_add_eq_add_succ] at short journal
        exact ⟨ok, short, earlier, journal⟩
      · rintro (_ | n) others here other mem
        · cases here
          exact deep other mem
        · obtain ⟨inside, deeper⟩ := later n others here other mem
          refine ⟨inside, fun depth within => ?_⟩
          have less := deeper depth within
          omega

/-- Let the outcome of every watcher depend only on which values the fields hold that it reads, at all
moments of the digest, and let the listeners only set the fields that they write. If no watcher feeds
itself, directly or through others, and the longest chain has `longest` watchers, then at most so many
passes find a change, whatever the data and the last values are. With one more pass the digest
converges. A watcher with chains of at most `d` watchers before it, itself included, is found changed
in none but the first `d` passes. -/
theorem acyclic_converges (client : Client κ σ) (reads : ∀ key, (client.watch key).OnlyReads)
    (bindings : Bindings) (depth : Nat) (w : World κ σ) (closed : w.Closed) (detached : w.Detached)
    (governs : ∀ watcher ∈ w.scope.watchers,
      bindings.Governs client (DigestMeets client (depth + 1) w) watcher)
    (acyclic : ∀ id, ¬ Relation.TransGen (bindings.Feeds w.scope.ids) id id) (longest : Nat)
    (chains : ∀ chain, bindings.Chain w.scope.ids chain → chain.length ≤ longest) :
    ∃ outcome w', digest client (depth + 1) w = some (outcome, w') ∧
      (digestChanges client (depth + 1) w).countP (fun changed => !changed.isEmpty) ≤ longest ∧
      (longest < w.scope.config.ttl → outcome = .ok () ∧
        (digestChanges client (depth + 1) w).length ≤ longest + 1 ∧
        ∃ earlier, w'.journal =
          .converged (digestChanges client (depth + 1) w).length :: earlier) ∧
      ∀ n changed, (digestChanges client (depth + 1) w)[n]? = some changed →
        ∀ id ∈ changed, ∀ d, bindings.Within w.scope.ids d id → n < d := by
  have bounded : ∀ id ∈ w.scope.ids, bindings.Within w.scope.ids longest id := by
    intro id _ before chain
    have bound := chains _ chain
    rwa [List.length_append] at bound
  have governed : (w.mark none).Governed bindings client (DigestMeets client (depth + 1) w) :=
    ⟨(stable_closed.mark none closed.with_none).closed, detached, governs⟩
  obtain ⟨outcome, w', run, converges, later⟩ := passes_governed reads
    (stable_closed.digest client depth) acyclic bounded (Nat.zero_le _) governed rfl
    (fun v meets => meets) (fun id mem within => absurd within (Bindings.not_within_zero mem))
  simp only [Nat.zero_add] at converges later
  refine ⟨outcome, w', run, ?_, fun enough => ?_, fun n changed here id mem => ?_⟩
  · refine List.countP_le_of_getElem? fun n changed here found => ?_
    obtain ⟨id, mem⟩ := List.exists_mem_of_ne_nil changed (by simpa using found)
    obtain ⟨registered, deep⟩ := later n changed here id mem
    exact deep longest (bounded id registered)
  · exact converges (Nat.lt_of_lt_of_le enough (Nat.le_max_left _ _))
  · exact (later n changed here id mem).2

/-- A watcher copies one field to another one. -/
def copying : Client (String × String) Unit where
  watch fields := do
    let v ← Script.obtain (.get fields.1)
    return .ok v
  listen fields new _ := do
    Script.change (.set fields.2 new)
    return .ok ()

/-- The watcher that comes second on the chain is registered first. -/
def copyingTwice : Script (String × String) Unit Unit := do
  let _ ← Script.register ("b", "c") (some ("b", "c")) .reference
  let _ ← Script.register ("a", "b") (some ("a", "b")) .reference
  let v ← Script.obtain (.literal (.bool true))
  Script.change (.set "a" v)

/-- Whoever copies one field to another one reads the first and writes the second. -/
theorem copying_governs {bindings : Bindings} {moment : World (String × String) Unit → Prop}
    {watcher : Watcher (String × String)} {a b : String} (source : watcher.source = .callable (a, b))
    (listener : watcher.listener = some (a, b)) (comparison : watcher.comparison = .reference)
    (read : bindings.reads watcher.id a = true) (written : bindings.writes watcher.id b = true) :
    bindings.Governs copying moment watcher where
  sets := by
    intro key listens new old
    cases listener.symm.trans listens
    exact ⟨written, fun _ => trivial⟩
  determined := by
    intro u v _ _ _ _ _ _ same first second
    have asked : ∀ u : World (String × String) Unit, evaluate copying noDigest watcher u =
        some (.ok (u.get a), u.report (.asked watcher.id)) := by
      intro u
      unfold evaluate
      rw [source]
      rfl
    cases (asked u).symm.trans first
    cases (asked v).symm.trans second
    rw [comparison, same a read]
    exact .value (Value.identical_refl _)

def copyingBindings : Bindings where
  reads id key := (id == 0 && key == "b") || (id == 1 && key == "a")
  writes id key := (id == 0 && key == "c") || (id == 1 && key == "b")

theorem copyingBindings_feeds {ids : List Nat} {a b : Nat} (feeds : copyingBindings.Feeds ids a b) :
    b < a := by
  obtain ⟨_, _, key, written, read⟩ := feeds
  simp only [copyingBindings, Bool.or_eq_true, Bool.and_eq_true, beq_iff_eq] at written read
  rcases written with ⟨rfl, rfl⟩ | ⟨rfl, rfl⟩ <;> simp at read
  omega

theorem acyclic_converges_copying : ∃ w w' : World (String × String) Unit,
    (World.initial .default ()).runScript copying 1 copyingTwice = some (.returned (), w) ∧
    digest copying 1 w = some (.ok (), w') ∧ digestChanges copying 1 w = [[0, 1], [0], []] ∧
    ∃ earlier, w'.journal = .converged 3 :: earlier := by
  obtain ⟨w, ran, watchers, ttl, changes⟩ : ∃ w : World (String × String) Unit,
      (World.initial .default ()).runScript copying 1 copyingTwice = some (.returned (), w) ∧
      w.scope.watchers = [⟨0, .callable ("b", "c"), some ("b", "c"), .reference, none⟩,
        ⟨1, .callable ("a", "b"), some ("a", "b"), .reference, none⟩] ∧
      2 < w.scope.config.ttl ∧ digestChanges copying 1 w = [[0, 1], [0], []] :=
    ⟨_, rfl, rfl, by decide, rfl⟩
  have reachable : w.Reachable := .run (.initial .default ()) ran
  have reads : ∀ key, (copying.watch key).OnlyReads :=
    fun key w _ => ⟨.returned (.ok ⟨0⟩), [w.get key.1], w, rfl, .refl w⟩
  have governs : ∀ watcher ∈ w.scope.watchers,
      copyingBindings.Governs copying (DigestMeets copying 1 w) watcher := by
    intro watcher mem
    rw [watchers] at mem
    rcases List.mem_cons.1 mem with rfl | mem
    · exact copying_governs rfl rfl rfl rfl rfl
    · cases List.mem_singleton.1 mem
      exact copying_governs rfl rfl rfl rfl rfl
  have acyclic := Bindings.acyclic_of_rank id fun a b feeds =>
    copyingBindings_feeds (feeds : copyingBindings.Feeds w.scope.ids a b)
  have chains : ∀ chain, copyingBindings.Chain w.scope.ids chain → chain.length ≤ 2 := by
    rintro chain ⟨distinct, _, registered⟩
    have ids : w.scope.ids = [0, 1] := congrArg (List.map Watcher.id) watchers
    rw [ids] at registered
    exact (List.subperm_of_subset distinct registered).length_le
  obtain ⟨outcome, w', run, _, enough, _⟩ := acyclic_converges copying reads copyingBindings 0 w
    reachable.closed reachable.detached governs acyclic 2 chains
  obtain ⟨rfl, _, earlier, journal⟩ := enough ttl
  rw [changes] at journal
  exact ⟨w, w', ran, run, changes, earlier, journal⟩

end World
end DataBinding
