import DataBinding.Scope.Run

/-! What one operation can do to a world. It builds and changes containers and it may change
what the client keeps; at most it registers or removes one watcher, or leaves one remark in the
journal. The rest of what is proved about scripts goes by these cases. -/
namespace DataBinding

variable {κ σ α : Type}

/-- The digest of a script that may not digest. -/
def noDigest : Digest κ σ := fun _ => none

/-- Events that no watcher takes part in. -/
def Event.isRemark : Event → Bool
  | .note _ => true
  | .applyDiverged _ => true
  | _ => false

/-- The worlds that an operation other than a digest can lead to. -/
inductive World.Stepped (w : World κ σ) : World κ σ → Prop where
  | changed (heap : Heap) (kept : Members Value) (cache : Cache) (client : σ) :
    Stepped w { w with heap, kept, cache, client }
  | remarked {event : Event} : event.isRemark = true → Stepped w (w.report event)
  | registered (cache : Cache) (source : Source κ) (listener : Option κ)
    (comparison : Comparison) :
    Stepped w (({ w with cache } : World κ σ).register source listener comparison).2
  | deregistered (id : Nat) : Stepped w (w.deregister id)

/-! The cache gives the accessor that compiling would give. -/

/-- A get finds the text, or compiles and keeps it, or fails as compiling it does. -/
theorem Cache.getOrCompile_cases (cache : Cache) (text : String) :
    (∃ held, cache.entries.get? text = some held ∧
      cache.getOrCompile text = .ok (held, cache)) ∨
    (∃ accessor, ∃ ok : Accessor.ofText text = .ok accessor, cache.entries.get? text = none ∧
      cache.getOrCompile text = .ok (⟨cache.compiled, accessor⟩, cache.hold text accessor ok)) ∨
    ∃ fault, Accessor.ofText text = .error fault ∧ cache.entries.get? text = none ∧
      cache.getOrCompile text = .error fault := by
  unfold getOrCompile
  cases held : cache.entries.get? text with
  | some compiled => exact .inl ⟨compiled, rfl, rfl⟩
  | none =>
    dsimp only
    split
    · rename_i accessor ok
      exact .inr (.inl ⟨accessor, ok, rfl, rfl⟩)
    · rename_i fault failed
      exact .inr (.inr ⟨fault, failed, rfl, rfl⟩)

theorem World.accessor_eq (w : World κ σ) (text : String) :
    (∃ accessor cache, Accessor.ofText text = .ok accessor ∧
      w.accessor text = .ok (accessor, { w with cache })) ∨
    ∃ fault, Accessor.ofText text = .error fault ∧ w.accessor text = .error fault := by
  unfold World.accessor
  rcases w.cache.getOrCompile_cases text with ⟨held, found, get⟩ | ⟨accessor, ok, -, get⟩ |
    ⟨fault, failed, -, get⟩
  · rw [get]
    exact .inl ⟨_, _, w.cache.faithful text held found, rfl⟩
  · rw [get]
    exact .inl ⟨_, _, ok, rfl⟩
  · rw [get]
    exact .inr ⟨_, failed, rfl⟩

theorem World.evalExpr_world (w : World κ σ) (text : String) (locals : Option Value) :
    ∃ heap cache, (w.evalExpr text locals).2 = { w with heap, cache } := by
  unfold evalExpr
  rcases w.accessor_eq text with ⟨accessor, cache, _, found⟩ | ⟨fault, _, found⟩
  · rw [found]
    exact ⟨_, cache, rfl⟩
  · rw [found]
    exact ⟨w.heap, w.cache, rfl⟩

theorem World.watchExpr_world (w : World κ σ) (text : String) (listener : κ)
    (comparison : Comparison) :
    (w.watchExpr text listener comparison).2 = w ∨
      ∃ accessor cache, (w.watchExpr text listener comparison).2 =
        (({ w with cache } : World κ σ).register (.expression accessor) (some listener) comparison).2 := by
  unfold watchExpr
  rcases w.accessor_eq text with ⟨accessor, cache, _, found⟩ | ⟨fault, _, found⟩
  · rw [found]
    exact .inr ⟨accessor, cache, rfl⟩
  · rw [found]
    exact .inl rfl

theorem Obtain.run_world (op : Obtain) (values : List Value) (w : World κ σ) :
    ∃ heap, (op.run values w).2 = { w with heap } := by
  cases op <;> exact ⟨_, rfl⟩

theorem Change.run_world (op : Change) (values : List Value) (w : World κ σ) :
    ∃ heap kept, op.run values w = { w with heap, kept } := by
  have onContainer : ∀ (h : Option Handle) (f : Handle → Heap),
      ∃ heap kept, Change.onContainer w h f = { w with heap, kept } := by
    intro h f
    cases h with
    | none => exact ⟨w.heap, w.kept, rfl⟩
    | some h => exact ⟨f h, w.kept, rfl⟩
  cases op with
  | set key v => exact ⟨_, w.kept, rfl⟩
  | keep name v => exact ⟨w.heap, _, rfl⟩
  | _ => exact onContainer _ _

namespace Op

variable {op : Op κ σ} {values values' : List Value} {w w' : World κ σ} {answer : op.Answer}

theorem run_stepped (run : op.run noDigest values w = some (answer, values', w')) :
    w.Stepped w' := by
  cases op with
  | obtain op =>
    obtain ⟨heap, same⟩ := op.run_world values w
    have world : (op.run values w).2 = w' := congrArg (·.2.2) (Option.some.inj run)
    rw [← world, same]
    exact .changed heap w.kept w.cache w.client
  | change op =>
    obtain ⟨heap, kept, same⟩ := op.run_world values w
    have world : op.run values w = w' := congrArg (·.2.2) (Option.some.inj run)
    rw [← world, same]
    exact .changed heap kept w.cache w.client
  | look => cases run; exact .changed w.heap w.kept w.cache w.client
  | evalExpr text locals =>
    obtain ⟨heap, cache, same⟩ := w.evalExpr_world text (locals.map (·.value values))
    simp only [Op.run] at run
    generalize w.evalExpr text (locals.map (·.value values)) = result at run same
    obtain ⟨result, w₁⟩ := result
    cases same
    cases result <;> cases run <;> exact .changed heap w.kept cache w.client
  | register => cases run; exact .registered w.cache _ _ _
  | watchExpr text listener comparison =>
    have world : (w.watchExpr text listener comparison).2 = w' :=
      congrArg (·.2.2) (Option.some.inj run)
    rw [← world]
    rcases w.watchExpr_world text listener comparison with same | ⟨accessor, cache, same⟩
    · rw [same]
      exact .changed w.heap w.kept w.cache w.client
    · rw [same]
      exact .registered cache _ _ _
  | deregister => cases run; exact .deregistered _
  | status => cases run; exact .changed w.heap w.kept w.cache w.client
  | inspect => cases run; exact .changed w.heap w.kept w.cache w.client
  | client f => cases run; exact .changed w.heap w.kept w.cache _
  | note => cases run; exact .remarked rfl
  | digest => cases run
  | reportDivergence => cases run; exact .remarked rfl

/-- Only a digest depends on how digests run. -/
theorem run_eq (digest : Digest κ σ) (op : Op κ σ) (values : List Value) (w : World κ σ) :
    op.run digest values w = op.run noDigest values w ∨ op = .digest := by
  cases op with
  | digest => exact .inr rfl
  | _ => exact .inl rfl

end Op

namespace Script

/-- A script that runs without digests runs the same with them. -/
theorem run_eq {script : Script κ σ α} {values : List Value} {w : World κ σ}
    {result : Exit α × List Value × World κ σ} (digest : Digest κ σ)
    (run : script.run noDigest values w = some result) :
    script.run digest values w = some result := by
  induction script generalizing values w with
  | pure a => exact run
  | panic p => exact run
  | perform op next ih =>
    simp only [Script.run] at run ⊢
    rcases op.run_eq digest values w with same | rfl
    · rw [same]
      generalize op.run noDigest values w = step at run
      cases step with
      | none => cases run
      | some step => exact ih step.1 run
    · cases run

/-- What holds of the values and the world of a script still holds after it, if it is kept by
every operation and by the digests that the script starts. -/
theorem run_induction {I : List Value → World κ σ → Prop} {digest : Digest κ σ}
    (step : ∀ {op : Op κ σ} {answer values w values' w'},
      op.run noDigest values w = some (answer, values', w') → I values w → I values' w')
    (nested : ∀ {values w outcome w'}, digest w = some (outcome, w') → I values w → I values w')
    {script : Script κ σ α} {values values' : List Value} {w w' : World κ σ} {exit : Exit α}
    (run : script.run digest values w = some (exit, values', w')) (start : I values w) :
    I values' w' := by
  induction script generalizing values w with
  | pure a => cases run; exact start
  | panic p => cases run; exact start
  | perform op next ih =>
    simp only [Script.run] at run
    rcases op.run_eq digest values w with same | rfl
    · rw [same] at run
      cases stepped : op.run noDigest values w with
      | none =>
        rw [stepped] at run
        cases run
      | some result =>
        rw [stepped] at run
        exact ih result.1 run (step stepped start)
    · simp only [Op.run] at run
      cases digested : digest w with
      | none =>
        rw [digested] at run
        cases run
      | some result =>
        rw [digested] at run
        exact ih result.1 run (nested digested start)

end Script
end DataBinding
