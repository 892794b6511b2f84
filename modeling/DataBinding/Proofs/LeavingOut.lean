import DataBinding.Proofs.ShortCircuit

/-! Scopes from which some watchers are left out. Callables that use nothing but the data and what the
client keeps do the same without them. -/
namespace DataBinding

variable {κ σ α : Type} {ρ ρ' : Pairing} {L : Value → Value → Prop}

/-! What callables use. -/

/-- Operations that only read. -/
def Op.readsData : Op κ σ → Bool
  | .obtain _ => true
  | .look _ => true
  | .evalExpr .. => true
  | .note _ => true
  | _ => false

/-- Operations that read and write the data and what the client keeps. -/
def Op.usesData : Op κ σ → Bool
  | .change _ => true
  | .client _ => true
  | op => op.readsData

/-- All operations of the script are allowed ones. -/
def Script.Uses (allowed : Op κ σ → Bool) : Script κ σ α → Prop
  | .pure _ => True
  | .panic _ => True
  | .perform op next => allowed op = true ∧ ∀ answer, (next answer).Uses allowed

theorem Op.usesData_of_reads {op : Op κ σ} (reads : op.readsData = true) : op.usesData = true := by
  cases op <;> first | rfl | cases reads

namespace Script.Uses

variable {allowed : Op κ σ → Bool} {script : Script κ σ α}

theorem mono {wider : Op κ σ → Bool} (more : ∀ op, allowed op = true → wider op = true)
    (uses : script.Uses allowed) : script.Uses wider := by
  induction script with
  | pure => trivial
  | panic => trivial
  | perform op next ih => exact ⟨more op uses.1, fun answer => ih answer (uses.2 answer)⟩

theorem startsNoDigest_of (uses : script.Uses allowed) (refused : allowed .digest = false) :
    script.StartsNoDigest := by
  induction script with
  | pure => trivial
  | panic => trivial
  | perform op next ih =>
    refine ⟨?_, fun answer => ih answer (uses.2 answer)⟩
    cases op with
    | digest => exact absurd uses.1 (Bool.eq_false_iff.1 refused)
    | _ => rfl

theorem startsNoDigest (uses : script.Uses Op.usesData) : script.StartsNoDigest :=
  uses.startsNoDigest_of rfl

/-- What every allowed operation keeps is kept by the script. -/
theorem run_induction {I : World κ σ → Prop} (uses : script.Uses allowed)
    (step : ∀ {op answer values w values' w'}, allowed op = true →
      op.run noDigest values w = some (answer, values', w') → I w → I w')
    {values values' : List Value} {w w' : World κ σ} {exit : Exit α}
    (run : script.run noDigest values w = some (exit, values', w')) (start : I w) : I w' := by
  induction script generalizing values w with
  | pure a => cases run; exact start
  | panic p => cases run; exact start
  | perform op next ih =>
    simp only [Script.run] at run
    cases performed : op.run noDigest values w with
    | none =>
      rw [performed] at run
      cases run
    | some result =>
      rw [performed] at run
      exact ih result.1 (uses.2 result.1) run (step uses.1 performed start)

end Script.Uses

/-! Leaving out watchers. -/

def Scope.leaveOut (out : Nat → Bool) (scope : Scope κ) : Scope κ :=
  { scope with
    watchers := scope.watchers.filter fun watcher => !out watcher.id
    ascending := scope.ascending.sublist (List.filter_sublist.map Watcher.id)
    below := fun other mem => scope.below other (List.mem_filter.1 mem).1 }

namespace Scope

variable (out : Nat → Bool) (scope : Scope κ)

theorem ids_leaveOut : (scope.leaveOut out).ids = scope.ids.filter fun id => !out id :=
  (List.filter_map (p := fun id => !out id)).symm

theorem find?_leaveOut (id : Nat) :
    (scope.leaveOut out).find? id = if out id then none else scope.find? id := by
  ext watcher
  have members : watcher ∈ (scope.leaveOut out).watchers ↔
      watcher ∈ scope.watchers ∧ out watcher.id = false := by
    simp [leaveOut]
  rw [find?_eq_some_iff, members]
  cases left : out id with
  | true =>
    simp only [if_true, reduceCtorEq, iff_false]
    rintro ⟨⟨_, stays⟩, rfl⟩
    exact Bool.false_ne_true (stays.symm.trans left)
  | false =>
    rw [if_neg Bool.false_ne_true, find?_eq_some_iff]
    refine and_congr_left fun named => and_iff_left ?_
    rw [named, left]

theorem setLast_leaveOut (id : Nat) (v : Value) :
    (scope.leaveOut out).setLast id v = (scope.setLast id v).leaveOut out := by
  have same : ∀ watcher : Watcher κ,
      (if watcher.id = id then { watcher with last := some v } else watcher).id = watcher.id :=
    fun watcher => by split <;> rfl
  simp only [setLast, leaveOut, List.filter_map, Function.comp_def, same]

end Scope

namespace World

def leaveOut (out : Nat → Bool) (w : World κ σ) : World κ σ := { w with scope := w.scope.leaveOut out }

variable {l r w : World κ σ}

theorem Alike.leaveOut (alike : l.Alike ρ L r) (out : Nat → Bool) :
    (l.leaveOut out).Alike ρ L (r.leaveOut out) :=
  { alike with
    watchers := List.rel_filter (fun _ _ same => by simp only [same.id]) alike.watchers }

theorem Closed.leaveOut (closed : w.Closed) (out : Nat → Bool) : (w.leaveOut out).Closed :=
  (closed.alike.leaveOut out).closed_left

theorem record_leaveOut (out : Nat → Bool) (watcher : Watcher κ) (new : Value) (w : World κ σ) :
    (w.leaveOut out).record watcher new =
      ((w.record watcher new).1, (w.record watcher new).2.leaveOut out) := by
  simp only [record, World.leaveOut, Scope.setLast_leaveOut]

end World

/-! Callables do not see what is left out. -/

theorem Script.Uses.run_scope {script : Script κ σ α} (uses : script.Uses Op.usesData)
    {values values' : List Value} {w w' : World κ σ} {exit : Exit α}
    (run : script.run noDigest values w = some (exit, values', w')) : w'.scope = w.scope :=
  uses.run_induction (I := fun w' => w'.scope = w.scope)
    (fun {op _ _ _ _ _} allowed step same =>
      (Op.run_scope (by cases op <;> first | rfl | cases allowed) step).trans same) run rfl

theorem World.evalExpr_leaveOut (out : Nat → Bool) (w : World κ σ) (text : String)
    (locals : Option Value) : (w.leaveOut out).evalExpr text locals =
      ((w.evalExpr text locals).1, (w.evalExpr text locals).2.leaveOut out) := by
  have accessor : (w.leaveOut out).accessor text =
      (w.accessor text).map fun (accessor, w) => (accessor, w.leaveOut out) := by
    simp only [World.accessor, World.leaveOut]
    cases w.cache.getOrCompile text <;> rfl
  simp only [World.evalExpr, accessor]
  cases w.accessor text <;> rfl

theorem Op.run_leaveOut (out : Nat → Bool) {op : Op κ σ} (uses : op.usesData = true)
    (values : List Value) (w : World κ σ) : op.run noDigest values (w.leaveOut out) =
      (op.run noDigest values w).map fun (answer, values, w) => (answer, values, w.leaveOut out) := by
  cases op with
  | obtain op => cases op <;> rfl
  | change op =>
    cases op <;> simp only [Op.run, Change.run, Change.onContainer] <;> first | rfl | split <;> rfl
  | look => rfl
  | evalExpr text locals =>
    simp only [Op.run, World.evalExpr_leaveOut]
    generalize w.evalExpr text (locals.map (·.value values)) = result
    obtain ⟨answer, w'⟩ := result
    cases answer <;> rfl
  | client => rfl
  | note => rfl
  | _ => cases uses

theorem Script.run_leaveOut (out : Nat → Bool) {script : Script κ σ α}
    (uses : script.Uses Op.usesData) (values : List Value) (w : World κ σ) :
    script.run noDigest values (w.leaveOut out) = (script.run noDigest values w).map
      fun (exit, values, w) => (exit, values, w.leaveOut out) := by
  induction script generalizing values w with
  | pure => rfl
  | panic => rfl
  | perform op next ih =>
    simp only [Script.run, op.run_leaveOut out uses.1]
    cases op.run noDigest values w with
    | none => rfl
    | some result => exact ih result.1 (uses.2 result.1) result.2.1 result.2.2

theorem Op.run_notes {op : Op κ σ} {values values' : List Value} {w w' : World κ σ}
    {answer : op.Answer} (reads : op.readsData = true)
    (run : op.run noDigest values w = some (answer, values', w')) :
    w.Grown w' ∧ ∃ notes, w'.journal = notes ++ w.journal ∧
      ∀ note ∈ notes, ∃ message, note = .note message := by
  refine ⟨Op.run_grown (by cases op <;> first | rfl | cases reads) run, ?_⟩
  cases op with
  | obtain op =>
    obtain ⟨heap, world⟩ := op.run_world values w
    have result : (op.run values w).2 = w' := congrArg (·.2.2) (Option.some.inj run)
    exact ⟨[], by rw [← result, world]; rfl, by simp⟩
  | look =>
    cases run
    exact ⟨[], rfl, by simp⟩
  | evalExpr text locals =>
    obtain ⟨heap, cache, same⟩ := w.evalExpr_world text (locals.map (·.value values))
    simp only [Op.run] at run
    generalize w.evalExpr text (locals.map (·.value values)) = result at run same
    obtain ⟨result, w₁⟩ := result
    cases same
    cases result <;> cases run <;> exact ⟨[], rfl, by simp⟩
  | note message =>
    cases run
    exact ⟨[.note message], rfl, by simp⟩
  | _ => cases reads

/-- A script that only reads ends, adds to the heap and leaves nothing else but notes. -/
theorem Script.Uses.run_notes {script : Script κ σ α} (reads : script.Uses Op.readsData)
    (values : List Value) (w : World κ σ) : ∃ exit values' w' notes,
      script.run noDigest values w = some (exit, values', w') ∧ w.Grown w' ∧
      w'.journal = notes ++ w.journal ∧ ∀ note ∈ notes, ∃ message, note = .note message := by
  obtain ⟨⟨exit, values', w'⟩, ran⟩ :=
    (reads.mono fun _ => Op.usesData_of_reads).startsNoDigest.run values w
  have after : w.Grown w' ∧ ∃ notes, w'.journal = notes ++ w.journal ∧
      ∀ note ∈ notes, ∃ message, note = .note message := by
    refine reads.run_induction (I := fun w' => w.Grown w' ∧ ∃ notes, w'.journal = notes ++ w.journal ∧
      ∀ note ∈ notes, ∃ message, note = .note message) ?_ ran
      ⟨(World.Reads.refl w).toGrown, [], rfl, by simp⟩
    rintro op answer values w₁ values' w₂ allowed step ⟨grown, notes, journal, plain⟩
    obtain ⟨grown', more, journal', plain'⟩ := Op.run_notes allowed step
    exact ⟨grown.trans grown', more ++ notes, by rw [journal', journal, List.append_assoc],
      List.forall_mem_append.2 ⟨plain', plain⟩⟩
  obtain ⟨grown, notes, journal, plain⟩ := after
  exact ⟨exit, values', w', notes, ran, grown, journal, plain⟩

theorem Script.Uses.onlyReads {script : Script κ σ α} (reads : script.Uses Op.readsData) :
    script.OnlyReads := by
  intro w _
  obtain ⟨exit, values, w', notes, ran, grown, journal, plain⟩ := reads.run_notes [] w
  refine ⟨exit, values, w', ran, grown, ?_⟩
  rw [World.milestones_append journal, List.filter_eq_nil_iff.2, List.nil_append]
  intro note mem
  obtain ⟨message, rfl⟩ := plain note mem
  exact Bool.false_ne_true

namespace World

variable {client : Client κ σ}

theorem evaluate_leaveOut (out : Nat → Bool) (uses : ∀ key, (client.watch key).Uses Op.usesData)
    (watcher : Watcher κ) (w : World κ σ) : evaluate client noDigest watcher (w.leaveOut out) =
      (evaluate client noDigest watcher w).map fun (answer, w) => (answer, w.leaveOut out) := by
  unfold evaluate
  cases watcher.source with
  | expression accessor => rfl
  | callable key =>
    have run := Script.run_leaveOut out (uses key) [] (w.report (.asked watcher.id))
    simp only
    rw [show (w.leaveOut out).report (.asked watcher.id) =
      (w.report (.asked watcher.id)).leaveOut out from rfl, run]
    cases (client.watch key).run noDigest [] (w.report (.asked watcher.id)) with
    | none => rfl
    | some result =>
      obtain ⟨(message | ref) | panic, values, w'⟩ := result <;> rfl

/-- A watcher that only reads answers, adds to the heap and leaves nothing else but notes. -/
theorem evaluate_notes (reads : ∀ key, (client.watch key).Uses Op.readsData)
    (watcher : Watcher κ) (w : World κ σ) : ∃ answer w' notes, w.Grown w' ∧
      (∀ digest, evaluate client digest watcher w = some (answer, w')) ∧
      w'.journal = notes ++ .asked watcher.id :: w.journal ∧
      ∀ note ∈ notes, ∃ message, note = .note message := by
  have asked := Grown.report w (.asked watcher.id)
  unfold evaluate
  cases watcher.source with
  | expression accessor =>
    have called : (w.report (.asked watcher.id)).Grown
        ((w.report (.asked watcher.id)).call accessor ⟨some w.data, none⟩).2 :=
      ⟨accessor.program.grows_run _ _, rfl, rfl, rfl⟩
    exact ⟨_, _, [], asked.trans called, fun _ => rfl, rfl, by simp⟩
  | callable key =>
    obtain ⟨exit, values, w', notes, ran, grown, journal, plain⟩ :=
      (reads key).run_notes [] (w.report (.asked watcher.id))
    have any := fun digest => Script.run_eq digest ran
    have after := asked.trans grown
    rcases exit with (message | ref) | panic
    · exact ⟨.error (.failed message), w', notes, after, fun digest => by simp only [any], journal,
        plain⟩
    · exact ⟨.ok (ref.value values), w', notes, after, fun digest => by simp only [any], journal, plain⟩
    · exact ⟨.error (.panicked panic), w', notes, after, fun digest => by simp only [any], journal,
        plain⟩

end World
end DataBinding
