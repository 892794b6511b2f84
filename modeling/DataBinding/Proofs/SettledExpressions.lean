import DataBinding.Proofs.Constants
import DataBinding.Proofs.Footprints
import DataBinding.Proofs.SteadyDigests

/-! Texts watched by value always settle. That the listeners leave the data and the set of watchers as
they are is asked of the moments that the digest comes through; listeners that only read and digest
are such ones. -/
namespace DataBinding

variable {κ σ α : Type}

/-- Operations that change neither the data nor the set of watchers. -/
def Op.spares : Op κ σ → Bool
  | .digest => true
  | .client _ => true
  | op => op.isReading

theorem Op.spares_untouched {start w w' : World κ σ} {op : Op κ σ} {values values' : List Value}
    {answer : op.Answer} (spares : op.spares = true) (plain : op.startsDigest = false)
    (run : op.run noDigest values w = some (answer, values', w')) (untouched : start.Untouched w) :
    start.Untouched w' := by
  have reading : op.isReading = true → start.Untouched w' := fun reading => by
    have grown := Op.run_grown reading run
    exact untouched.grown grown.heap (by rw [grown.scope]) (by rw [grown.scope])
  cases op with
  | digest => cases plain
  | client f =>
    cases run
    exact untouched.grown (.refl _ _) rfl rfl
  | obtain | look | evalExpr | status | inspect | note | reportDivergence => exact reading rfl
  | _ => cases spares

namespace World

/-- Nested digests that leave the data and the set of watchers as they are all the time. -/
def Spares (start : World κ σ) (total : Nat → Nat) (bound : Nat)
    (during : World κ σ → World κ σ → Prop) : Prop :=
  ∀ {held v u}, start.Steady total held v → v.scope.unseen.length < bound → during v u →
    start.Untouched u

namespace Steady

variable {start w w' u : World κ σ} {total : Nat → Nat} {held values values' : List Value}
  {client : Client κ σ} {nested : Digest κ σ} {during : World κ σ → World κ σ → Prop}

theorem spares_script {bound : Nat} (completes : Completes start total bound nested during)
    (nests : Spares start total bound during) {script : Script κ σ α} (uses : script.Uses Op.spares)
    (steady : start.Steady total (held ++ values) w) (few : w.scope.unseen.length < bound)
    (meets : script.Meets nested during values w u) : start.Untouched u := by
  induction meets with
  | now => exact steady.untouched
  | digest within => exact nests steady few within
  | @later op next answer values values' w w' u run _ ih =>
    obtain ⟨answer', values₁, w₁, ran, steady₁, kept⟩ := steady.perform completes op few
      (fun starts u within => nests steady few within)
      (fun plain ran => by
        rcases op.run_eq nested values w with same | rfl
        · exact Op.spares_untouched uses.1 plain (same ▸ ran) steady.untouched
        · cases plain)
    cases run.symm.trans ran
    exact ih (uses.2 answer) steady₁ (few_of_kept few kept)

theorem spares_visit (closed : start.Closed) {bound : Nat}
    (completes : Completes start total bound nested during) (nests : Spares start total bound during)
    (listens : ∀ key new old, (client.listen key new old).Uses Op.spares)
    (steady : start.Steady total held w) (few : w.scope.unseen.length ≤ bound) {generation : UInt64}
    {id : Nat} (meets : VisitMeets client nested during generation id w u) : start.Untouched u := by
  cases meets with
  | turn => exact steady.untouched
  | @asked watcher key _ found source _ =>
    obtain ⟨accessor, source', -⟩ :=
      (steady.recollects.recalls watcher (Scope.find?_eq_some_iff.1 found).1).source
    cases source.symm.trans source'
  | @told watcher watcher' new w₁ _ key announced found evaluated still changed hears is meets =>
    obtain ⟨mem, rfl⟩ := Scope.find?_eq_some_iff.1 found
    obtain ⟨_, new', v, _, evaluated', _, scope, _, settled⟩ := steady.asked closed mem client nested
    cases evaluated.symm.trans evaluated'
    rw [scope, found] at still
    cases still
    have unseen : watcher.last = none := by
      rw [settled] at changed
      simpa using changed
    obtain ⟨new', v', again, _, _, told, _, less, _⟩ := steady.first closed mem unseen client nested
      generation
    cases evaluated.symm.trans again
    subst is
    exact told.spares_script completes nests (listens key ⟨0⟩ ⟨1⟩) (by omega) meets

theorem spares_visitAll (closed : start.Closed) {bound : Nat}
    (completes : Completes start total bound nested during) (nests : Spares start total bound during)
    (listens : ∀ key new old, (client.listen key new old).Uses Op.spares)
    {generation : UInt64} {ids : List Nat} (registered : ∀ id ∈ ids, id ∈ start.scope.ids)
    (steady : start.Steady total held w) (few : w.scope.unseen.length ≤ bound)
    (meets : VisitAllMeets client nested during generation ids w u) : start.Untouched u := by
  induction meets with
  | done => exact steady.untouched
  | visit meets => exact steady.spares_visit closed completes nests listens few meets
  | @later id rest turn w w' u run _ _ ih =>
    obtain ⟨turn', w₁, ran, steady₁, kept⟩ := steady.visit closed completes few generation
      (registered id List.mem_cons_self) fun _ v meets =>
        steady.spares_visit closed completes nests listens few meets
    cases run.symm.trans ran
    refine ih (fun other mem => registered other (List.mem_cons_of_mem _ mem)) steady₁ ?_
    rcases kept with ⟨_, _, same, _⟩ | ⟨_, _, none | ⟨fewer, _⟩⟩
    · rwa [same]
    · simp [none]
    · rw [fewer]
      exact Nat.le_trans (List.length_filter_le _ _) few

theorem spares_passes (closed : start.Closed) {depth : Nat}
    (completes : Completes start total depth (World.digest client depth) (DigestMeets client depth))
    (nests : Spares start total depth (DigestMeets client depth))
    (listens : ∀ key new old, (client.listen key new old).Uses Op.spares) {left : Nat}
    (steady : start.Steady total held w) (few : w.scope.unseen.length ≤ depth)
    (marked : w.scope.marker = none ∨ w.scope.unseen = [])
    (meets : PassesMeet client (World.digest client depth) (DigestMeets client depth) left w u) :
    start.Untouched u := by
  have visits : ∀ {w u : World κ σ}, start.Steady total held w → w.scope.unseen.length ≤ depth →
      VisitAllMeets client (World.digest client depth) (DigestMeets client depth) w.scope.generation
        w.scope.ids (w.report .passStarted) u → start.Untouched u := by
    intro w u steady few meets
    have started : start.Steady total held (w.report .passStarted) := steady.report fun _ => rfl
    exact started.spares_visitAll closed completes nests listens
      (fun id mem => steady.untouched.ids ▸ mem) few meets
  induction meets with
  | pass meets => exact visits steady few meets
  | later run _ ih =>
    obtain ⟨w₁, _, ran, steady₁, told, _⟩ := steady.pass closed completes few marked fun _ v meets =>
      visits steady few meets
    obtain ⟨-, rfl⟩ := Prod.mk.inj (Option.some.inj (run.symm.trans ran))
    exact ih steady₁ (by simp [told]) (.inr told)

/-- If all that the listeners do is to read, to digest and to change the client's own state, then the
data and the set of watchers stay as they are all the time. -/
theorem spares_digest (client : Client κ σ) (closed : start.Closed)
    (ttl : 2 ≤ start.scope.config.ttl)
    (listens : ∀ key new old, (client.listen key new old).Uses Op.spares) (depth : Nat) :
    Spares start total depth (DigestMeets client depth) := by
  induction depth with
  | zero => exact fun _ few => absurd few (Nat.not_lt_zero _)
  | succ depth ih =>
    intro held v u steady few meets
    exact (steady.mark none).spares_passes closed (completes client closed ttl depth) ih listens
      (Nat.le_of_lt_succ few) (.inl rfl) meets

end Steady

/-! Watching texts. -/

/-- Watches texts by value, each with a listener. -/
def watchTexts : List (String × κ) → World κ σ → World κ σ
  | [], w => w
  | (text, listener) :: rest, w => watchTexts rest (w.watchExpr text listener .value).2

/-- What everything keeps is kept by watching texts. -/
theorem watchTexts_keeps {I : List Value → World κ σ → Prop} (stable : Stable I)
    (watches : List (String × κ)) {w : World κ σ} (inv : I [] w) : I [] (watchTexts watches w) := by
  induction watches generalizing w with
  | nil => exact inv
  | cons watch rest ih =>
    have ran : (Op.watchExpr watch.1 watch.2 .value).run noDigest [] w =
      some ((w.watchExpr watch.1 watch.2 .value).1, [], (w.watchExpr watch.1 watch.2 .value).2) := rfl
    have before : I ([] ++ []) w := inv
    exact ih (stable.step ran before)

/-- The watcher of a text that compiles, before it has seen anything. -/
structure Watches (watch : String × κ) (watcher : Watcher κ) : Prop where
  source : ∃ accessor, Accessor.ofText watch.1 = .ok accessor ∧
    watcher.source = .expression accessor
  listener : watcher.listener = some watch.2
  comparison : watcher.comparison = .value
  unseen : watcher.last = none

theorem watchTexts_watchers {watches : List (String × κ)}
    (compile : ∀ watch ∈ watches, ∃ accessor, Accessor.ofText watch.1 = .ok accessor)
    (w : World κ σ) : ∃ added, (watchTexts watches w).scope.watchers = w.scope.watchers ++ added ∧
      List.Forall₂ Watches watches added := by
  induction watches generalizing w with
  | nil => exact ⟨[], (List.append_nil _).symm, .nil⟩
  | cons watch rest ih =>
    obtain ⟨text, listener⟩ := watch
    obtain ⟨⟨accessor, compiles⟩, others⟩ := List.forall_mem_cons.1 compile
    obtain ⟨cache, found⟩ : ∃ cache, w.accessor text = .ok (accessor, { w with cache }) := by
      rcases w.accessor_eq text with ⟨accessor', cache, compiles', found⟩ | ⟨fault, refused, _⟩
      · cases compiles.symm.trans compiles'
        exact ⟨cache, found⟩
      · cases compiles.symm.trans refused
    obtain ⟨added, watchers, each⟩ := ih others (w.watchExpr text listener .value).2
    let watcher : Watcher κ := ⟨w.scope.nextId, .expression accessor, some listener, .value, none⟩
    have registered : (w.watchExpr text listener .value).2.scope.watchers =
        w.scope.watchers ++ [watcher] := by
      unfold watchExpr
      rw [found]
      rfl
    refine ⟨watcher :: added, ?_, .cons ⟨⟨accessor, compiles, rfl⟩, rfl, rfl, rfl⟩ each⟩
    rw [watchTexts, watchers, registered, List.append_assoc]
    rfl

theorem unseen_of_watches {scope : Scope κ} {watches : List (String × κ)}
    (each : List.Forall₂ Watches watches scope.watchers) : scope.unseen = scope.ids := by
  have all : ∀ watcher ∈ scope.watchers, watcher.last.isNone = true := by
    intro watcher mem
    obtain ⟨watch, _, here⟩ := List.exists_of_mem_right each mem
    rw [here.unseen]
    rfl
  rw [Scope.unseen, List.filter_eq_self.2 all]
  rfl

theorem Steady.of_watches {w : World κ σ} (closed : w.Closed) {watches : List (String × κ)}
    (each : List.Forall₂ Watches watches w.scope.watchers) :
    w.Steady (fun id => w.journal.countP (Event.fires id) + w.scope.unseen.count id) [] w := by
  refine ⟨.of_closed closed fun watcher mem => ?_, .refl w, rfl, fun _ => rfl⟩
  obtain ⟨watch, _, here⟩ := List.exists_of_mem_right each mem
  obtain ⟨accessor, _, source⟩ := here.source
  exact ⟨here.unseen, here.comparison, by rw [here.listener]; rfl, accessor, source⟩

/-- The first digest settles in its second pass, or in its first if nothing is watched, and calls each
listener once. As long as the data and the set of watchers stay as they are, each later digest settles
in its first pass and calls no listener. -/
def SettlesOnce (client : Client κ σ) (watches : List (String × κ)) (depth : Nat) (v : World κ σ) :
    Prop :=
  ∃ v' events, digest client (depth + 1) v = some (.ok (), v') ∧
    v'.journal = .converged (if watches = [] then 1 else 2) :: (events ++ v.journal) ∧
    List.Forall₂ (fun watch watcher => watcher.listener = some watch.2 ∧
      events.countP (Event.fires watcher.id) = 1) watches v.scope.watchers ∧
    (∀ id, id ∉ v.scope.ids → events.countP (Event.fires id) = 0) ∧
    ∀ u, ReachesUntouched client v v' u → ∀ depth, ∃ u' events,
      digest client (depth + 1) u = some (.ok (), u') ∧
      u'.journal = .converged 1 :: (events ++ u.journal) ∧
      ∀ event ∈ events, event.isCall = false

/-- What is watched is watched by the watchers of the texts, if nothing was before. -/
theorem watches_of_watched {watches : List (String × κ)} {w v : World κ σ}
    (compile : ∀ watch ∈ watches, ∃ accessor, Accessor.ofText watch.1 = .ok accessor)
    (unwatched : w.scope.watchers = [])
    (watched : v.scope.watchers = (watchTexts watches w).scope.watchers) :
    List.Forall₂ Watches watches v.scope.watchers := by
  obtain ⟨added, watchers, each⟩ := watchTexts_watchers compile w
  rw [unwatched, List.nil_append, ← watched] at watchers
  rwa [← watchers] at each

/-- Listeners that only read, digest and change the client's own state change neither the data nor the
set of watchers at any moment of a digest. -/
theorem untouched_of_spares (client : Client κ σ) {watches : List (String × κ)} {v : World κ σ}
    (each : List.Forall₂ Watches watches v.scope.watchers) (closed : v.Closed)
    (ttl : 2 ≤ v.scope.config.ttl) {depth : Nat} (deep : watches.length ≤ depth)
    (listens : ∀ key new old, (client.listen key new old).Uses Op.spares) {u : World κ σ}
    (meets : DigestMeets client (depth + 1) v u) : v.Untouched u := by
  have few : v.scope.unseen.length < depth + 1 := by
    rw [unseen_of_watches each, Scope.ids, List.length_map, ← each.length_eq]
    exact Nat.lt_succ_of_le deep
  exact Steady.spares_digest client closed ttl listens (depth + 1) (Steady.of_watches closed each)
    few meets

theorem settlesOnce_of_watches (client : Client κ σ) {watches : List (String × κ)} {v : World κ σ}
    (each : List.Forall₂ Watches watches v.scope.watchers) (closed : v.Closed)
    (ttl : 2 ≤ v.scope.config.ttl) (depth : Nat) (deep : watches.length ≤ depth)
    (spared : ∀ u, DigestMeets client (depth + 1) v u → v.Untouched u) :
    SettlesOnce client watches depth v := by
  have unseen : v.scope.unseen = v.scope.ids := unseen_of_watches each
  have count : v.scope.ids.length = watches.length := by
    rw [each.length_eq]
    exact List.length_map _
  have fresh := Steady.of_watches closed each
  obtain ⟨v', events, run, steady, told, journal⟩ := fresh.digest client closed ttl depth
    (by rw [unseen, count]; exact deep) fun _ => spared
  have called : ∀ id, events.countP (Event.fires id) = v.scope.ids.count id := by
    intro id
    rw [← unseen, ← fresh.fires_eq steady told journal id]
  have idle : v.scope.unseen = [] ↔ watches = [] := by
    rw [unseen, ← List.length_eq_zero_iff, count, List.length_eq_zero_iff]
  have once : ∀ watcher ∈ v.scope.watchers, events.countP (Event.fires watcher.id) = 1 := by
    intro watcher mem
    rw [called, ← unseen]
    refine List.count_eq_one_of_mem v.scope.nodup_unseen ?_
    rw [unseen]
    exact List.mem_map_of_mem mem
  simp only [idle] at journal
  refine ⟨v', events, run, journal, ?_, fun id absent => ?_, fun u reaches depth => ?_⟩
  · have both := (List.forall₂_and_left _ _).2 ⟨once, each.flip⟩
    exact both.flip.imp fun watch watcher ⟨one, here⟩ => ⟨here.listener, one⟩
  · rw [called]
    exact List.count_eq_zero.2 absent
  · obtain ⟨steady₁, told₁⟩ := reaches.steady closed ttl steady told
    obtain ⟨u', later, again, steady', told', journal'⟩ := steady₁.digest client closed ttl depth
      (by simp [told₁]) fun some => absurd told₁ some
    rw [if_pos told₁] at journal'
    refine ⟨u', later, again, journal', fun event mem => Bool.eq_false_iff.2 fun call => ?_⟩
    cases event with
    | fired id new old heap =>
      have none : later.countP (Event.fires id) = 0 := by
        have silent := steady₁.fires_eq steady' told' journal' id
        rw [told₁, List.count_nil] at silent
        exact silent
      exact absurd (List.countP_eq_zero.1 none _ mem) (by simp [Event.fires])
    | _ => cases call

/-- Texts settle whenever all that the listeners do is to read, to digest, to change the client's own
state and to fail. -/
theorem settlesOnce_of_spares (client : Client κ σ) (watches : List (String × κ))
    (compile : ∀ watch ∈ watches, ∃ accessor, Accessor.ofText watch.1 = .ok accessor)
    (w v : World κ σ) (unwatched : w.scope.watchers = [])
    (watched : v.scope.watchers = (watchTexts watches w).scope.watchers) (closed : v.Closed)
    (ttl : 2 ≤ v.scope.config.ttl) (depth : Nat) (deep : watches.length ≤ depth)
    (listens : ∀ key new old, (client.listen key new old).Uses Op.spares) :
    SettlesOnce client watches depth v := by
  have each := watches_of_watched compile unwatched watched
  exact settlesOnce_of_watches client each closed ttl depth deep fun u meets =>
    untouched_of_spares client each closed ttl deep listens meets

/-- Let texts be watched by value in a scope without other watchers, and let the data be what it may,
with cycles, shared parts and NaN. Let the limit be two passes or more, and let the listeners change
neither the data nor the set of watchers, whatever else they do: they may fail, and they may digest.
Then the first digest settles in its second pass, or in its first if nothing is watched, and calls
each listener once. As long as the data and the set of watchers stay as they are, each later digest
settles in its first pass and calls no listener. -/
theorem expressions_settle (client : Client κ σ) (watches : List (String × κ))
    (compile : ∀ watch ∈ watches, ∃ accessor, Accessor.ofText watch.1 = .ok accessor)
    (w v : World κ σ) (unwatched : w.scope.watchers = [])
    (watched : v.scope.watchers = (watchTexts watches w).scope.watchers) (closed : v.Closed)
    (ttl : 2 ≤ v.scope.config.ttl) (depth : Nat) (deep : watches.length ≤ depth)
    (spared : ∀ u, DigestMeets client (depth + 1) v u → v.Untouched u) :
    ∃ v' events, digest client (depth + 1) v = some (.ok (), v') ∧
      v'.journal = .converged (if watches = [] then 1 else 2) :: (events ++ v.journal) ∧
      List.Forall₂ (fun watch watcher => watcher.listener = some watch.2 ∧
        events.countP (Event.fires watcher.id) = 1) watches v.scope.watchers ∧
      (∀ id, id ∉ v.scope.ids → events.countP (Event.fires id) = 0) ∧
      ∀ u, ReachesUntouched client v v' u → ∀ depth, ∃ u' events,
        digest client (depth + 1) u = some (.ok (), u') ∧
        u'.journal = .converged 1 :: (events ++ u.journal) ∧
        ∀ event ∈ events, event.isCall = false :=
  settlesOnce_of_watches client (watches_of_watched compile unwatched watched) closed ttl depth deep
    spared

/-- A listener fails. Some digest before that. -/
def impatient : Client Bool Unit where
  watch _ := .panic .unknown
  listen digests _ _ := do
    if digests then
      let _ ← Script.digest
    return .error "refused"

/-- The data holds itself and NaN. -/
def tangled : Script Bool Unit Unit := do
  let data ← Script.obtain .data
  Script.change (.set "self" data)
  let n ← Script.obtain (.literal (.number .nan))
  Script.change (.set "n" n)

/-- The derivation of an array of the data and a field of it. -/
def dataAndField : Grammar.Primary :=
  .mk (.array (.some (.mk (.keyword .this) .done)
    (.more (.mk (.identifier ⟨"n", by rintro ⟨⟩ <;> decide⟩) .done) .done))) .done

theorem scan_dataAndField : Token.scan "[this, n]" = .ok dataAndField.tokens := by
  simp [Token.scan, Token.scanFrom, Token.isBlank, Token.first, Token.numberStarts,
    Token.startsWithDigit, Token.isQuote, Token.isPunctuation, Token.isNameStart, Token.isNamePart,
    Token.punctuation, Token.ofName, ← String.length_toList, bind, Except.bind, pure, Except.pure]
  rfl

def tangledTexts : List (String × Bool) := [("[this, n]", true), ("[this, n]", false)]

theorem expressions_settle_tangled : ∃ w v : World Bool Unit,
    (World.initial .default ()).runScript impatient 1 tangled = some (.returned (), w) ∧
    digest impatient 3 (watchTexts tangledTexts w) = some (.ok (), v) ∧
    ∃ events, v.journal = .converged 2 :: (events ++ (watchTexts tangledTexts w).journal) ∧
      List.Forall₂ (fun watch watcher => watcher.listener = some watch.2 ∧
        events.countP (Event.fires watcher.id) = 1) tangledTexts
        (watchTexts tangledTexts w).scope.watchers := by
  obtain ⟨w, ran, unwatched, ttl⟩ : ∃ w : World Bool Unit,
      (World.initial .default ()).runScript impatient 1 tangled = some (.returned (), w) ∧
      w.scope.watchers = [] ∧ 2 ≤ w.scope.config.ttl := ⟨_, rfl, rfl, by decide⟩
  have compile : ∀ watch ∈ tangledTexts, ∃ accessor, Accessor.ofText watch.1 = .ok accessor := by
    intro watch mem
    have text : watch.1 = "[this, n]" := by
      rcases List.mem_cons.1 mem with rfl | mem
      · rfl
      · rw [List.mem_singleton.1 mem]
    exact ⟨_, text ▸ Accessor.ofText_derived scan_dataAndField⟩
  have reachable : w.Reachable := .run (.initial .default ()) ran
  have closed : (watchTexts tangledTexts w).Closed :=
    (watchTexts_keeps stable_closed tangledTexts reachable.closed.with_none).closed
  have config := watchTexts_keeps (stable_config w.scope.config) tangledTexts rfl
  have listens : ∀ key new old, (impatient.listen key new old).Uses Op.spares := by
    rintro (_ | _) new old
    · trivial
    · exact ⟨rfl, fun _ => trivial⟩
  have each := watches_of_watched (v := watchTexts tangledTexts w) compile unwatched rfl
  obtain ⟨v, events, run, journal, called, -⟩ := expressions_settle impatient tangledTexts compile w
    (watchTexts tangledTexts w) unwatched rfl closed (config ▸ ttl) 2 (Nat.le_refl 2) fun u meets =>
      untouched_of_spares impatient each closed (config ▸ ttl) (Nat.le_refl 2) listens meets
  exact ⟨w, v, ran, run, events, journal, called⟩

end World
end DataBinding
