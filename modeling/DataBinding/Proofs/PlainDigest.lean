import DataBinding.Proofs.Settling

/-! Digests without short cuts: there is no marker, and every pass visits every watcher that is
registered when the pass starts and still registered at its turn. Snapshots, comparisons and the
limit on passes are those of a digest. -/
namespace DataBinding

variable {κ σ : Type}

namespace World

/-- Visits a watcher and tells whether it had changed. -/
def plainVisit (client : Client κ σ) (nested : Digest κ σ) (id : Nat) (w : World κ σ) :
    Option (Bool × World κ σ) :=
  match w.scope.find? id with
  | none => some (false, w)
  | some watcher =>
    match evaluate client nested watcher w with
    | none => none
    | some (.error fault, w) => some (false, w.absorb id .watch (.error fault))
    | some (.ok new, w) =>
      match w.scope.find? id with
      | none => some (false, w)
      | some watcher =>
        let w := w.report (.answered id new w.heap)
        if watcher.isSettled w.heap new then some (false, w)
        else (tell client nested watcher new w).map fun w => (true, w)

def plainVisitAll (client : Client κ σ) (nested : Digest κ σ) :
    List Nat → Bool → World κ σ → Option (Bool × World κ σ)
  | [], dirty, w => some (dirty, w)
  | id :: rest, dirty, w =>
    match plainVisit client nested id w with
    | none => none
    | some (changed, w) => plainVisitAll client nested rest (dirty || changed) w

def plainPass (client : Client κ σ) (nested : Digest κ σ) (w : World κ σ) :
    Option (Bool × World κ σ) :=
  plainVisitAll client nested w.scope.ids false (w.report .passStarted)

def plainPasses (client : Client κ σ) (nested : Digest κ σ) :
    (left done : Nat) → World κ σ → Option (Except Divergence Unit × World κ σ)
  | 0, _, w =>
    let divergence : Divergence := ⟨w.scope.config.ttl⟩
    some (.error divergence, w.report (.diverged divergence))
  | left + 1, done, w =>
    match plainPass client nested w with
    | none => none
    | some (false, w) => some (.ok (), w.report (.converged (done + 1)))
    | some (true, w) => plainPasses client nested left (done + 1) w

/-- A digest whose passes are complete. -/
def plainDigest (client : Client κ σ) (nested : Digest κ σ) : Digest κ σ := fun w =>
  plainPasses client nested (max w.scope.config.ttl 1) 0 w

variable {client : Client κ σ} {nested : Digest κ σ} {w w' : World κ σ}

theorem plainVisit_cases (reads : ∀ key, (client.watch key).OnlyReads) (closed : w.Closed)
    (nested : Digest κ σ) (id : Nat) :
    (∃ w', plainVisit client nested id w = some (false, w') ∧ w.Reads w' ∧
      w.SettledAt client id) ∨
    ∃ watcher new w', watcher.id = id ∧ Changed client w watcher new w' ∧
      plainVisit client nested id w =
        (tell client nested watcher new (w'.report (.answered id new w'.heap))).map
          fun w => (true, w) := by
  unfold plainVisit
  rcases look_cases reads closed id with ⟨missing, absent⟩ |
    ⟨watcher, answer, w', mem, rfl, found, still, reading, evaluated⟩
  · rw [missing]
    exact .inl ⟨w, rfl, .refl w, settledAt_of_absent absent⟩
  · simp only [found, evaluated]
    cases answer with
    | error fault =>
      exact .inl ⟨_, rfl, reading.trans (.report w' _ rfl),
        settledAt_of_settled mem ⟨_, w', evaluated noDigest, by simp⟩⟩
    | ok new =>
      simp only [still]
      cases matched : watcher.isSettled w'.heap new with
      | true =>
        refine .inl ⟨_, if_pos matched, reading.trans (.report w' _ rfl),
          settledAt_of_settled mem ⟨_, w', evaluated noDigest, ?_⟩⟩
        rintro _ ⟨rfl⟩
        exact matched
      | false =>
        refine .inr ⟨watcher, new, w', rfl, ⟨mem, evaluated noDigest, reading, matched⟩, ?_⟩
        exact if_neg fun same => Bool.false_ne_true (matched.symm.trans same)

/-- Settled watchers are passed over. -/
theorem plainVisitAll_settled (reads : ∀ key, (client.watch key).OnlyReads) (nested : Digest κ σ)
    {ids : List Nat} (closed : w.Closed) (settled : ∀ id ∈ ids, w.SettledAt client id)
    (dirty : Bool) :
    ∃ w', plainVisitAll client nested ids dirty w = some (dirty, w') ∧ w.Reads w' := by
  induction ids generalizing w with
  | nil => exact ⟨w, rfl, .refl w⟩
  | cons id rest ih =>
    rcases plainVisit_cases reads closed nested id with ⟨w₁, visited, reading, _⟩ |
      ⟨watcher, new, w₁, rfl, changed, _⟩
    · obtain ⟨w', others, reading'⟩ := ih (reading.closed closed) fun other mem =>
        (settled other (List.mem_cons_of_mem _ mem)).reads closed reading
      refine ⟨w', ?_, reading.trans reading'⟩
      simp only [plainVisitAll, visited, Bool.or_false, others]
    · exact absurd (settled _ List.mem_cons_self) changed.not_settled

end World
end DataBinding
