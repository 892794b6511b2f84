import DataBinding.Proofs.Effectless

/-! How much the early stop saves. When callables have no effects, the first pass of a digest comes
to all watchers and tells those that are due, and the second one stops at the last of them. -/
namespace DataBinding

variable {κ σ : Type}

theorem Turn.eq_clean {turn : Turn} (unchanged : turn ≠ .dirty) (goes : turn ≠ .settled) :
    turn = .clean := by
  cases turn with
  | clean => rfl
  | dirty => exact absurd rfl unchanged
  | settled => exact absurd rfl goes

namespace World

/-- The watcher's source gives a value now, and not the one that the watcher saw last. -/
def isDue (client : Client κ σ) (w : World κ σ) (watcher : Watcher κ) : Bool :=
  match evaluate client noDigest watcher w with
  | some (.ok new, w') => !watcher.isSettled w'.heap new
  | _ => false

/-- The watchers that are due, in the order of their registration. -/
def due (client : Client κ σ) (w : World κ σ) : List (Watcher κ) :=
  w.scope.watchers.filter (w.isDue client)

variable {client : Client κ σ} {nested : Digest κ σ} {moment : World κ σ → Prop}
  {during : World κ σ → World κ σ → Prop} {w u v : World κ σ} {watcher a b : Watcher κ}

theorem answers_of_isDue (isDue : w.isDue client watcher = true) : w.Answers client watcher := by
  unfold World.isDue at isDue
  split at isDue
  · exact ⟨_, _, ‹_›⟩
  · cases isDue

theorem Tells.effectless {who : Nat → Prop} (tells : u.Tells who v)
    (effectless : ∀ watcher ∈ u.scope.watchers, watcher.Effectless client moment) :
    ∀ watcher ∈ v.scope.watchers, watcher.Effectless client moment := by
  intro watcher mem
  obtain ⟨before, found, akin⟩ :=
    tells.akin watcher.id watcher (Scope.find?_eq_some_iff.2 ⟨mem, rfl⟩)
  exact (effectless before (Scope.find?_eq_some_iff.1 found).1).of_akin akin

/-- What was told of values still has the same watchers. -/
theorem Tells.found {who : Nat → Prop} (tells : u.Tells who v) (mem : a ∈ u.scope.watchers) :
    ∃ b, v.scope.find? a.id = some b ∧ a.Akin b := by
  have before : u.scope.find? a.id = some a := Scope.find?_eq_some_iff.2 ⟨mem, rfl⟩
  cases after : v.scope.find? a.id with
  | none =>
    rw [Scope.find?_eq_none_iff, tells.ids] at after
    exact absurd (Scope.mem_ids_of_find? before) after
  | some b =>
    obtain ⟨a', found, akin⟩ := tells.akin a.id b after
    cases before.symm.trans found
    exact ⟨b, rfl, akin⟩

theorem isDue_iff (reads : watcher.OnlyReads client) (closed : w.Closed) :
    w.isDue client watcher = true ↔ ¬ w.Settled client watcher := by
  obtain ⟨answer, w', _, evaluated⟩ := evaluate_onlyReads reads closed
  rw [settled_iff_of_evaluate (evaluated noDigest)]
  unfold isDue
  rw [evaluated]
  cases answer with
  | error fault => simp
  | ok new => simp

/-- A source that gave a value gives one as long as the data is the same. -/
theorem Answers.later (effectless : a.Effectless client moment) (closed : v.Closed) (now : moment u)
    (later : moment v) (same : u.SameData v) (akin : a.Akin b) (answers : u.Answers client a) :
    v.Answers client b := by
  obtain ⟨new, u', evaluated⟩ := answers
  obtain ⟨answer, v', _, evaluated'⟩ := evaluate_onlyReads effectless.reads closed
  have outcome := effectless.determined now later same evaluated (evaluated' noDigest)
  cases outcome with
  | @value _ new' _ =>
    refine ⟨new', v', ?_⟩
    rw [← evaluate_akin akin]
    exact evaluated' noDigest

/-- Whether watchers are due does not change when a digest starts. -/
theorem due_started (reads : ∀ watcher ∈ w.scope.watchers, watcher.OnlyReads client)
    (closed : w.Closed) : ((w.mark none).report .passStarted).due client = w.due client := by
  have alike : w.Alike w.known (Value.Alike w.known) ((w.mark none).report .passStarted) :=
    { closed.alike with }
  have back : ((w.mark none).report .passStarted).Alike w.known (Value.Alike w.known) w :=
    { closed.alike with }
  unfold due
  refine List.filter_congr fun watcher mem => ?_
  have same : watcher.Alike (Value.Alike w.known) watcher :=
    List.forall₂_same.1 closed.alike.watchers watcher mem
  rw [Bool.eq_iff_iff, isDue_iff (reads watcher mem) alike.closed_right,
    isDue_iff (reads watcher mem) closed, not_iff_not]
  constructor
  · intro settled
    exact settled.of_alike back same
  · intro settled
    exact settled.of_alike alike same

/-! The first pass. -/

/-- What is known in a first pass from the world `w` that has visited the watchers of `seen`. Those that
were due are told, and the last of them is marked. -/
structure Underway (client : Client κ σ) (moment : World κ σ → Prop) (w : World κ σ)
    (seen : List (Watcher κ)) (u : World κ σ) : Prop where
  now : moment u
  closed : u.Closed
  tells : w.Tells (· ∈ seen.map Watcher.id) u
  settled : ∀ watcher ∈ seen, u.SettledAt client watcher.id
  marker : u.scope.marker = (seen.filter (w.isDue client)).getLast?.map fun watcher =>
    ⟨watcher.id, w.scope.generation⟩

namespace Underway

variable {seen rest : List (Watcher κ)}

theorem tells_snoc (underway : Underway client moment w seen u) (tells : u.Tells (· = watcher.id) v) :
    w.Tells (· ∈ (seen ++ [watcher]).map Watcher.id) v := by
  refine (underway.tells.weaken fun id mem => ?_).trans (tells.weaken fun id same => ?_)
  · simpa using Or.inl (List.mem_map.1 mem)
  · simp [same]

/-- A visit that finds no change. -/
theorem reads (underway : Underway client moment w seen u) (now : moment v) (reading : u.Reads v)
    (quiet : w.isDue client watcher = false) (here : u.SettledAt client watcher.id) :
    Underway client moment w (seen ++ [watcher]) v where
  now := now
  closed := reading.closed underway.closed
  tells := underway.tells_snoc (reading.tells underway.closed)
  settled := by
    intro other mem
    rcases List.mem_append.1 mem with earlier | last
    · exact (underway.settled other earlier).reads underway.closed reading
    · rw [List.mem_singleton.1 last]
      exact here.reads underway.closed reading
  marker := by
    rw [reading.scope, underway.marker]
    simp [quiet]

/-- A visit that finds a change. The watchers that were told before stay settled. -/
theorem told (underway : Underway client moment w seen u) (now : moment v) (closed : v.Closed)
    (effectless : ∀ watcher ∈ u.scope.watchers, watcher.Effectless client moment)
    (fresh : watcher.id ∉ seen.map Watcher.id) (tells : u.Tells (· = watcher.id) v)
    (marker : v.scope.marker = some ⟨watcher.id, w.scope.generation⟩)
    (isDue : w.isDue client watcher = true) (here : v.SettledAt client watcher.id) :
    Underway client moment w (seen ++ [watcher]) v where
  now := now
  closed := closed
  tells := underway.tells_snoc tells
  settled := by
    intro other mem
    rcases List.mem_append.1 mem with earlier | last
    · have differs : other.id ≠ watcher.id := by
        intro same
        exact fresh (same ▸ List.mem_map_of_mem earlier)
      exact (tells.settledAt_iff effectless underway.closed closed underway.now now differs).1
        (underway.settled other earlier)
    · rw [List.mem_singleton.1 last]
      exact here
  marker := by simp [isDue, marker]

/-- The marked watcher is one that was visited. -/
theorem not_marked (underway : Underway client moment w seen u)
    (fresh : watcher.id ∉ seen.map Watcher.id) (generation : UInt64) :
    u.scope.marker ≠ some ⟨watcher.id, generation⟩ := by
  intro marked
  rw [underway.marker, Option.map_eq_some_iff] at marked
  obtain ⟨other, last, same⟩ := marked
  have earlier := (List.mem_filter.1 (List.mem_of_getLast? last)).1
  have named : other.id = watcher.id := congrArg Marker.watcher same
  exact fresh (named ▸ List.mem_map_of_mem earlier)

end Underway

section

variable (effectless : ∀ watcher ∈ w.scope.watchers, watcher.Effectless client moment)
  (keeps : nested.Keeps ClosedWith) (closed : w.Closed) (now : moment w) {seen rest : List (Watcher κ)}

include effectless keeps closed now

/-- A watcher is found changed in the first pass if it was due when the pass started. -/
theorem Underway.visit (underway : Underway client moment w seen u)
    (split : w.scope.watchers = seen ++ watcher :: rest)
    (later : ∀ turn v, visit client nested w.scope.generation watcher.id u = some (turn, v) →
      turn ≠ .settled → moment v) :
    ∃ v, World.visit client nested w.scope.generation watcher.id u =
        some (if w.isDue client watcher then .dirty else .clean, v) ∧
      Underway client moment w (seen ++ [watcher]) v ∧
      Logs [watcher.id] (listening ([watcher].filter (w.isDue client))) u v := by
  have mem : watcher ∈ w.scope.watchers := by simp [split]
  have own := effectless watcher mem
  have ids : w.scope.ids = seen.map Watcher.id ++ watcher.id :: rest.map Watcher.id := by
    simp [Scope.ids, split]
  have fresh : watcher.id ∉ seen.map Watcher.id := Scope.not_mem_of_ids ids
  have before : w.scope.find? watcher.id = some watcher := Scope.find?_eq_some_iff.2 ⟨mem, rfl⟩
  have found : u.scope.find? watcher.id = some watcher :=
    (underway.tells.others watcher.id fresh).trans before
  have due : w.isDue client watcher = true ↔ ¬ u.Settled client watcher := by
    rw [isDue_iff own.reads closed, ← settledAt_iff_of_find? before,
      ← settledAt_iff_of_find? found, underway.tells.settledAt_iff effectless closed underway.closed
        now underway.now fresh]
  cases isDue : w.isDue client watcher with
  | true =>
    obtain ⟨v, visited, closed', tells, logs, marker, settles⟩ := visit_unsettled keeps
      underway.closed own found (due.1 isDue) w.scope.generation
    have now' := later .dirty v visited (by simp)
    refine ⟨v, visited, ?_, by simpa [isDue] using logs⟩
    exact underway.told now' closed' (underway.tells.effectless effectless) fresh tells marker isDue
      (settles underway.now now')
  | false =>
    have settled : u.Settled client watcher := by
      by_contra unsettled
      exact Bool.false_ne_true (isDue.symm.trans (due.2 unsettled))
    obtain ⟨turn, v, visited, unchanged, reading, logs, stops⟩ :=
      visit_settled own.reads underway.closed found settled nested w.scope.generation
    have goes : turn ≠ .settled := fun stopped => underway.not_marked fresh _ (stops.1 stopped).1
    obtain rfl := Turn.eq_clean unchanged goes
    refine ⟨v, visited, ?_, by simpa [isDue, listening] using logs⟩
    exact underway.reads (later .clean v visited goes) reading isDue
      ((settledAt_iff_of_find? found).2 settled)

theorem Underway.visitAll (dirty : Bool) (underway : Underway client moment w seen u)
    (split : w.scope.watchers = seen ++ rest)
    (moments : ∀ v, VisitAllMeets client nested during w.scope.generation (rest.map Watcher.id) u v →
      moment v) :
    ∃ v, World.visitAll client nested w.scope.generation (rest.map Watcher.id) dirty u =
        some (dirty || !(rest.filter (w.isDue client)).isEmpty, v) ∧
      Underway client moment w w.scope.watchers v ∧
      Logs (rest.map Watcher.id) (listening (rest.filter (w.isDue client))) u v := by
  induction rest generalizing seen u dirty with
  | nil =>
    rw [List.append_nil] at split
    exact ⟨u, by simp [World.visitAll], split ▸ underway, .refl u⟩
  | cons watcher rest ih =>
    obtain ⟨u₁, visited, underway₁, logs⟩ := underway.visit effectless keeps closed now split
      fun turn v visited goes => moments v (.later visited goes (.start _ _ _ _ _ _))
    have goes : (if w.isDue client watcher then Turn.dirty else .clean) ≠ .settled := by
      split <;> simp
    obtain ⟨v, others, underway', logs'⟩ := ih (dirty || w.isDue client watcher) underway₁
      (by simp [split]) fun v meets => moments v (.later visited goes meets)
    refine ⟨v, ?_, underway', ?_⟩
    · rw [List.map_cons, World.visitAll, visited]
      cases isDue : w.isDue client watcher with
      | false => simpa [isDue] using others
      | true => simpa [isDue] using others
    · have both := logs.trans logs'
      rw [← listening_append, ← List.filter_append] at both
      exact both

end

/-! The second pass. -/

/-- Where all watchers up to the marked one are settled, a pass asks these and ends. -/
theorem visitAll_settled {before : List Nat} (closed : w.Closed)
    (reads : ∀ watcher ∈ w.scope.watchers, watcher.OnlyReads client)
    (found : w.scope.find? watcher.id = some watcher)
    (marker : w.scope.marker = some ⟨watcher.id, w.scope.generation⟩)
    (answers : w.Answers client watcher) (fresh : watcher.id ∉ before)
    (registered : ∀ id ∈ before, id ∈ w.scope.ids)
    (settled : ∀ id ∈ before ++ [watcher.id], w.SettledAt client id) (nested : Digest κ σ)
    (generation : UInt64) (after : List Nat) :
    ∃ w', visitAll client nested generation (before ++ watcher.id :: after) false w =
        some (false, w') ∧ Logs (before ++ [watcher.id]) [] w w' := by
  induction before generalizing w with
  | nil =>
    have here := (settledAt_iff_of_find? found).1 (settled watcher.id (by simp))
    obtain ⟨turn, w', visited, _, _, logs, stops⟩ :=
      visit_settled (reads watcher (Scope.find?_eq_some_iff.1 found).1) closed found here nested
        generation
    rw [stops.2 ⟨marker, answers⟩] at visited
    exact ⟨w', by simp only [List.nil_append, visitAll, visited], logs⟩
  | cons id rest ih =>
    obtain ⟨other, mem, rfl⟩ := List.mem_map.1 (registered id List.mem_cons_self)
    have here : w.scope.find? other.id = some other := Scope.find?_eq_some_iff.2 ⟨mem, rfl⟩
    have calm := (settledAt_iff_of_find? here).1 (settled other.id (by simp))
    obtain ⟨turn, w₁, visited, unchanged, reading, logs, stops⟩ :=
      visit_settled (reads other mem) closed here calm nested generation
    have goes : turn ≠ .settled := by
      intro stopped
      have named : watcher.id = other.id :=
        congrArg Marker.watcher (Option.some.inj (marker.symm.trans (stops.1 stopped).1))
      exact fresh (named ▸ List.mem_cons_self)
    obtain rfl := Turn.eq_clean unchanged goes
    obtain ⟨w', others, logs'⟩ := ih (reading.closed closed)
      (by rw [reading.scope]; exact reads) (by rw [reading.scope, found])
      (by rw [reading.scope, marker]) (answers.grown closed reading.toGrown)
      (fun mem => fresh (List.mem_cons_of_mem _ mem))
      (fun id mem => by rw [reading.scope]; exact registered id (List.mem_cons_of_mem _ mem))
      (fun id mem => (settled id (List.mem_cons_of_mem _ mem)).reads closed reading)
    exact ⟨w', by simp only [List.cons_append, visitAll, visited, others], logs.trans logs'⟩

/-! The digest. -/

theorem Closed.started (closed : w.Closed) : ((w.mark none).report .passStarted).Closed :=
  (Grown.report _ _).closed (stable_closed.mark none closed.with_none).closed

section

variable (effectless : ∀ watcher ∈ w.scope.watchers, watcher.Effectless client moment)
  (closed : w.Closed)

include effectless closed

/-- The first pass comes to all watchers and tells those that are due. -/
theorem pass_first (keeps : nested.Keeps ClosedWith)
    (moments : ∀ v, VisitAllMeets client nested during w.scope.generation w.scope.ids
      ((w.mark none).report .passStarted) v → moment v) :
    ∃ u, pass client nested (w.mark none) = some (!(w.due client).isEmpty, u) ∧
      Underway client moment ((w.mark none).report .passStarted) w.scope.watchers u ∧
      Logs w.scope.ids (listening (w.due client)) w u := by
  have effectless₀ : ∀ watcher ∈ ((w.mark none).report .passStarted).scope.watchers,
    watcher.Effectless client moment := effectless
  have now := moments _ (.start _ _ _ _ _ _)
  have underway : Underway client moment ((w.mark none).report .passStarted) []
      ((w.mark none).report .passStarted) :=
    ⟨now, closed.started, .refl _, by simp, rfl⟩
  obtain ⟨u, passed, underway', logs⟩ :=
    underway.visitAll effectless₀ keeps closed.started now false rfl moments
  have marked : Logs [] [] w (w.mark none) := .of_journal rfl
  have started := marked.quiet (.report _ .passStarted rfl rfl)
  rw [← due_started (fun watcher mem => (effectless watcher mem).reads) closed]
  exact ⟨u, passed, underway', started.trans logs⟩

/-- The second pass stops at the last watcher that was due. -/
theorem pass_second (now : moment w) (underway : Underway client moment w w.scope.watchers u)
    {before after : List (Watcher κ)} (split : w.scope.watchers = before ++ watcher :: after)
    (last : (w.due client).getLast? = some watcher) (nested : Digest κ σ) :
    ∃ u', pass client nested u = some (false, u') ∧
      Logs ((before ++ [watcher]).map Watcher.id) [] u u' := by
  obtain ⟨mem, isDue⟩ := List.mem_filter.1 (List.mem_of_getLast? last)
  obtain ⟨told, found, akin⟩ := underway.tells.found mem
  have ids : u.scope.ids = before.map Watcher.id ++ watcher.id :: after.map Watcher.id := by
    rw [underway.tells.ids, Scope.ids, split, List.map_append, List.map_cons]
  have fresh : watcher.id ∉ before.map Watcher.id := Scope.not_mem_of_ids ids
  have marker : u.scope.marker = some ⟨watcher.id, u.scope.generation⟩ := by
    rw [underway.marker, underway.tells.generation]
    exact congrArg _ last
  have answers : u.Answers client told :=
    (answers_of_isDue isDue).later (effectless watcher mem) underway.closed now underway.now
      (underway.tells.sameData closed) akin
  have settled : ∀ id ∈ u.scope.ids, u.SettledAt client id := by
    intro id registered
    rw [underway.tells.ids] at registered
    obtain ⟨other, mem', rfl⟩ := List.mem_map.1 registered
    exact underway.settled other mem'
  have inside : ∀ id ∈ before.map Watcher.id ++ [watcher.id], id ∈ u.scope.ids := by
    intro id here
    rw [ids, List.append_cons]
    exact List.mem_append_left _ here
  have started := Grown.report u .passStarted
  rw [akin.id] at found marker fresh ids inside
  obtain ⟨u', passed, logs⟩ := visitAll_settled (started.closed underway.closed)
    (fun other mem => (underway.tells.effectless effectless other mem).reads) found marker
    (answers.grown underway.closed started) fresh
    (fun id here => inside id (List.mem_append_left _ here))
    (fun id here => (settled id (inside id here)).grown underway.closed started) nested
    u.scope.generation (after.map Watcher.id)
  rw [← ids] at passed
  have starts : Logs [] [] u (u.report .passStarted) := .report u .passStarted rfl rfl
  have asked := starts.trans logs
  rw [← akin.id] at asked
  exact ⟨u', passed, by simpa using asked⟩

/-- If none is due then one pass is enough, else two. -/
theorem passes_effectless {left : Nat} (keeps : nested.Keeps ClosedWith)
    (moments : ∀ v, PassesMeet client nested during (left + 2) (w.mark none) v → moment v) :
    ∃ w', passes client nested (left + 2) 0 (w.mark none) = some (.ok (), w') ∧
      (w.due client = [] ∧ Logs w.scope.ids [] w w' ∨
        ∃ before last after, w.scope.watchers = before ++ last :: after ∧
          (w.due client).getLast? = some last ∧
          Logs (w.scope.ids ++ (before ++ [last]).map Watcher.id) (listening (w.due client)) w w') := by
  obtain ⟨u, first, underway, logs⟩ :=
    pass_first effectless closed keeps fun v meets => moments v (.pass meets)
  have effectless₀ : ∀ watcher ∈ ((w.mark none).report .passStarted).scope.watchers,
    watcher.Effectless client moment := effectless
  simp only [passes, first]
  cases last : (w.due client).getLast? with
  | none =>
    have noneDue := List.getLast?_eq_none_iff.1 last
    rw [noneDue] at logs ⊢
    exact ⟨_, rfl, .inl ⟨rfl, logs.quiet (.report u (.converged 1) rfl rfl)⟩⟩
  | some watcher =>
    have mem := List.mem_of_getLast? last
    obtain ⟨before, after, split⟩ := List.append_of_mem (List.mem_filter.1 mem).1
    obtain ⟨u', second, logs'⟩ := pass_second effectless₀ closed.started
      (moments _ (.pass (.start _ _ _ _ _ _))) underway split
      ((congrArg List.getLast? (due_started (fun watcher mem =>
        (effectless watcher mem).reads) closed)).trans last) nested
    have found : (w.due client).isEmpty = false := by
      rw [List.isEmpty_eq_false_iff]
      exact List.ne_nil_of_mem mem
    have both := logs.trans logs'
    rw [List.append_nil] at both
    simp only [found, Bool.not_false, second]
    exact ⟨_, rfl, .inr ⟨before, watcher, after, split, rfl,
      both.quiet (.report u' (.converged 2) rfl rfl)⟩⟩

end

theorem Logs.askings_length {asked fired : List Nat} (logs : Logs asked fired u v) :
    v.askings.length = u.askings.length + asked.length := by
  rw [logs.askings, List.length_append]

/-- A watcher has one place among the others. -/
theorem place_unique {before after : List (Watcher κ)} {m : Nat}
    (split : w.scope.watchers = before ++ watcher :: after)
    (here : w.scope.watchers[m]? = some watcher) : m = before.length := by
  have distinct : w.scope.watchers.Nodup :=
    .of_map Watcher.id (w.scope.ascending.imp fun less => Nat.ne_of_lt less)
  have place : w.scope.watchers[before.length]? = some watcher := by simp [split]
  have inside := (List.getElem?_eq_some_iff.1 here).1
  exact (List.getElem?_inj inside distinct).1 (here.trans place.symm)

/-- Let the watch callables only read and give what the data determines, let the listeners change
nothing, and let the limit allow two passes. Whatever the watchers saw before, the digest settles. It
calls the listeners of the watchers that are due, each once and in the order of registration. If none
is due then each of the `n` watchers is asked once. Otherwise, when `m` watchers come before the last
one that is due, the sources are asked `n + (m + 1)` times: all of them, and those up to that one once
more. -/
theorem digest_asks_up_to_last_due (client : Client κ σ) (depth : Nat) (w : World κ σ)
    (closed : w.Closed)
    (effectless : ∀ watcher ∈ w.scope.watchers,
      watcher.Effectless client (DigestMeets client (depth + 1) w))
    (limit : 2 ≤ w.scope.config.ttl) :
    ∃ w', digest client (depth + 1) w = some (.ok (), w') ∧
      w'.firings = w.firings ++ listening (w.due client) ∧
      (w.due client = [] → w'.askings = w.askings ++ w.scope.ids ∧
        w'.askings.length = w.askings.length + w.scope.watchers.length) ∧
      ∀ last m, (w.due client).getLast? = some last → w.scope.watchers[m]? = some last →
        w'.askings = w.askings ++ (w.scope.ids ++ w.scope.ids.take (m + 1)) ∧
        w'.askings.length = w.askings.length + (w.scope.watchers.length + (m + 1)) := by
  obtain ⟨left, enough⟩ : ∃ left, max w.scope.config.ttl 1 = left + 2 :=
    ⟨w.scope.config.ttl - 2, by omega⟩
  have moments : ∀ v, PassesMeet client (digest client depth) (DigestMeets client depth) (left + 2)
      (w.mark none) v → DigestMeets client (depth + 1) w v := by
    intro v meets
    rw [← enough] at meets
    exact meets
  have registered : w.scope.ids.length = w.scope.watchers.length := List.length_map _
  obtain ⟨w', passed, stops⟩ :=
    passes_effectless effectless closed (stable_closed.digest client depth) moments
  rw [← enough] at passed
  refine ⟨w', passed, ?_⟩
  rcases stops with ⟨noneDue, logs⟩ | ⟨before, watcher, after, split, lastDue, logs⟩
  · have length := logs.askings_length
    rw [registered] at length
    rw [noneDue]
    exact ⟨logs.firings, fun _ => ⟨logs.askings, length⟩, nofun⟩
  · refine ⟨logs.firings, fun noneDue => ?_, fun last m same here => ?_⟩
    · rw [noneDue] at lastDue
      cases lastDue
    · cases lastDue.symm.trans same
      obtain rfl := place_unique split here
      have again : (before ++ [watcher]).map Watcher.id = w.scope.ids.take (before.length + 1) := by
        rw [Scope.ids, split]
        simp [List.take_append]
      have inside := (List.getElem?_eq_some_iff.1 here).1
      rw [again] at logs
      have length := logs.askings_length
      rw [List.length_append, registered, List.length_take, registered,
        Nat.min_eq_left inside] at length
      exact ⟨logs.askings, length⟩

/-- A watcher looks at a field, and its listener always fails. A field must have a name. -/
def refusing : Client String Unit where
  watch field :=
    if field = "" then return .error "a field must have a name"
    else do
      let v ← Script.obtain (.get field)
      return .ok v
  listen _ _ _ := return .error "refused"

/-- Four watchers are settled, one of which never gives a value. Then the third one becomes due. -/
def refusingFour : Script String Unit Unit := do
  let _ ← Script.register "a" (some "a") .reference
  let _ ← Script.register "" (some "") .reference
  let _ ← Script.register "b" (some "b") .reference
  let _ ← Script.register "c" (some "c") .reference
  let _ ← Script.digest
  let v ← Script.obtain (.literal (.bool true))
  Script.change (.set "b" v)

theorem SameData.get_eq (same : u.SameData v) (key : String) : v.get key = u.get key := by
  unfold World.get World.data
  rw [same.data]
  exact Heap.member_of_cell (same.cells _ (.root rfl)) key

theorem refusing_evaluate {watcher : Watcher String} {field : String}
    (source : watcher.source = .callable field) (w : World String Unit) :
    evaluate refusing noDigest watcher w =
      some (if field = "" then .error (.failed "a field must have a name") else .ok (w.get field),
        w.report (.asked watcher.id)) := by
  unfold evaluate
  simp only [source, refusing]
  by_cases unnamed : field = ""
  · simp only [if_pos unnamed]
    rfl
  · simp only [if_neg unnamed]
    rfl

/-- Whoever looks at a field sees what the data holds. -/
theorem refusing_effectless {moment : World String Unit → Prop} {watcher : Watcher String}
    {field : String} (source : watcher.source = .callable field)
    (comparison : watcher.comparison = .reference) : watcher.Effectless refusing moment where
  reads := by
    rintro key - w -
    by_cases unnamed : key = ""
    · refine ⟨.returned (.error "a field must have a name"), [], w, ?_, .refl w⟩
      simp only [refusing, if_pos unnamed]
      rfl
    · refine ⟨.returned (.ok ⟨0⟩), [w.get key], w, ?_, .refl w⟩
      simp only [refusing, if_neg unnamed]
      rfl
  determined := by
    intro u v u' v' answer answer' _ _ same first second
    cases (refusing_evaluate source u).symm.trans first
    cases (refusing_evaluate source v).symm.trans second
    rw [comparison, same.get_eq field]
    split
    · exact .fault
    · exact .value (Value.identical_refl _)
  listens := fun _ _ _ _ => trivial

theorem digest_asks_up_to_last_due_refusing : ∃ w w' : World String Unit,
    (World.initial .default ()).runScript refusing 1 refusingFour = some (.returned (), w) ∧
    digest refusing 1 w = some (.ok (), w') ∧ w'.firings = w.firings ++ [2] ∧
    w'.askings = w.askings ++ [0, 1, 2, 3, 0, 1, 2] ∧
    w'.askings.length = w.askings.length + (4 + 3) := by
  obtain ⟨w, ran, sources, limit, ids, due, third⟩ : ∃ w : World String Unit,
      (World.initial .default ()).runScript refusing 1 refusingFour = some (.returned (), w) ∧
      (w.scope.watchers.map fun watcher => (watcher.source, watcher.comparison)) =
        ["a", "", "b", "c"].map (fun field => (.callable field, .reference)) ∧
      2 ≤ w.scope.config.ttl ∧ w.scope.ids = [0, 1, 2, 3] ∧
      w.due refusing = [⟨2, .callable "b", some "b", .reference, some .undefined⟩] ∧
      w.scope.watchers[2]? = some ⟨2, .callable "b", some "b", .reference, some .undefined⟩ :=
    ⟨_, rfl, rfl, by decide, rfl, rfl, rfl⟩
  have reachable : w.Reachable := .run (.initial .default ()) ran
  have effectless : ∀ watcher ∈ w.scope.watchers,
      watcher.Effectless refusing (DigestMeets refusing 1 w) := by
    intro watcher mem
    have listed := List.mem_map_of_mem (f := fun watcher : Watcher String =>
      (watcher.source, watcher.comparison)) mem
    rw [sources] at listed
    obtain ⟨field, _, same⟩ := List.mem_map.1 listed
    exact refusing_effectless (congrArg Prod.fst same).symm (congrArg Prod.snd same).symm
  obtain ⟨w', run, firings, _, askings⟩ :=
    digest_asks_up_to_last_due refusing 0 w reachable.closed effectless limit
  rw [due] at firings askings
  obtain ⟨asked, length⟩ := askings _ 2 rfl third
  have registered : w.scope.watchers.length = 4 :=
    (List.length_map Watcher.id).symm.trans (congrArg List.length ids)
  rw [ids] at asked
  rw [registered] at length
  exact ⟨w, w', ran, run, firings, asked, length⟩

end World
end DataBinding
