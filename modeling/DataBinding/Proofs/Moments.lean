import DataBinding.Proofs.Invariants

/-! The moments of a run. A run comes through the worlds in which scripts perform their operations
and those in which watchers have their turn, in its own digests and in the digests that callables
start, nested to any depth. What is kept by everything that happens holds at every moment, also of
runs that come to no end. -/
namespace DataBinding

variable {κ σ α : Type}

/-- The worlds that a script comes through, `during` being those that a digest comes through. -/
inductive Script.Meets (digest : Digest κ σ) (during : World κ σ → World κ σ → Prop) :
    Script κ σ α → List Value → World κ σ → World κ σ → Prop where
  | now {script : Script κ σ α} {values : List Value} {w : World κ σ} :
    Meets digest during script values w w
  | digest {next : Except Divergence Unit → Script κ σ α} {values : List Value} {w v : World κ σ} :
    during w v → Meets digest during (.perform .digest next) values w v
  | later {op : Op κ σ} {next : op.Answer → Script κ σ α} {answer : op.Answer}
      {values values' : List Value} {w w' v : World κ σ} :
    op.run digest values w = some (answer, values', w') →
      Meets digest during (next answer) values' w' v →
        Meets digest during (.perform op next) values w v

namespace World

section

variable (client : Client κ σ) (nested : Digest κ σ) (during : World κ σ → World κ σ → Prop)

/-- The worlds that a visit comes through: at the turn of the watcher, while it is asked, and while
its listener is told. -/
inductive VisitMeets (generation : UInt64) (id : Nat) (w : World κ σ) : World κ σ → Prop where
  | turn : VisitMeets generation id w w
  | asked {watcher : Watcher κ} {key : κ} {v : World κ σ} : w.scope.find? id = some watcher →
    watcher.source = .callable key →
      (client.watch key).Meets nested during [] (w.report (.asked watcher.id)) v →
        VisitMeets generation id w v
  | told {watcher watcher' : Watcher κ} {new : Value} {w₁ v : World κ σ} {key : κ}
      {announced : Value × World κ σ} :
    w.scope.find? id = some watcher → evaluate client nested watcher w = some (.ok new, w₁) →
      w₁.scope.find? id = some watcher' → watcher'.isSettled w₁.heap new = false →
      watcher'.listener = some key →
      announced = ((w₁.report (.answered id new w₁.heap)).mark
        (some ⟨id, generation⟩)).announce watcher' new →
      (client.listen key ⟨0⟩ ⟨1⟩).Meets nested during [new, announced.1] announced.2 v →
        VisitMeets generation id w v

inductive VisitAllMeets (generation : UInt64) : List Nat → World κ σ → World κ σ → Prop where
  | done {w : World κ σ} : VisitAllMeets generation [] w w
  | visit {id : Nat} {rest : List Nat} {w v : World κ σ} :
    VisitMeets client nested during generation id w v → VisitAllMeets generation (id :: rest) w v
  | later {id : Nat} {rest : List Nat} {turn : Turn} {w w' v : World κ σ} :
    visit client nested generation id w = some (turn, w') → turn ≠ .settled →
      VisitAllMeets generation rest w' v → VisitAllMeets generation (id :: rest) w v

theorem VisitAllMeets.start (generation : UInt64) (ids : List Nat) (w : World κ σ) :
    VisitAllMeets client nested during generation ids w w := by
  cases ids with
  | nil => exact .done
  | cons => exact .visit .turn

inductive PassesMeet : (left : Nat) → World κ σ → World κ σ → Prop where
  | pass {left : Nat} {w v : World κ σ} :
    VisitAllMeets client nested during w.scope.generation w.scope.ids (w.report .passStarted) v →
      PassesMeet (left + 1) w v
  | later {left : Nat} {w w' v : World κ σ} : pass client nested w = some (true, w') →
    PassesMeet left w' v → PassesMeet (left + 1) w v

end

/-- The worlds that a digest comes through in which digests are nested to a depth below `depth`. -/
def DigestMeets (client : Client κ σ) : (depth : Nat) → World κ σ → World κ σ → Prop
  | 0, _, _ => False
  | depth + 1, w, v => PassesMeet client (digest client depth) (DigestMeets client depth)
      (max w.scope.config.ttl 1) (w.mark none) v

/-- The worlds that a client gets to from a first one with the scripts that it runs. -/
inductive Reaches (client : Client κ σ) (start : World κ σ) : World κ σ → Prop where
  | start : Reaches client start start
  | run {w w' : World κ σ} {α : Type} {depth : Nat} {script : Script κ σ α} {exit : Exit α} :
    Reaches client start w → w.runScript client depth script = some (exit, w') →
      Reaches client start w'

/-- The worlds that it comes through on the way, also with a script that comes to no end. -/
inductive ComesThrough (client : Client κ σ) (start : World κ σ) : World κ σ → Prop where
  | run {w v : World κ σ} {α : Type} {depth : Nat} {script : Script κ σ α} :
    Reaches client start w →
      script.Meets (digest client depth) (DigestMeets client depth) [] w v →
        ComesThrough client start v

theorem Reaches.comesThrough {client : Client κ σ} {start w : World κ σ}
    (reaches : Reaches client start w) : ComesThrough client start w :=
  .run reaches (.now : (Script.pure () : Script κ σ Unit).Meets (digest client 0)
    (DigestMeets client 0) [] w w)

end World

namespace Stable

open World

variable {I : List Value → World κ σ → Prop} {client : Client κ σ} {nested : Digest κ σ}
  {during : World κ σ → World κ σ → Prop} {held values : List Value} {w v : World κ σ}

theorem forget (stable : Stable I) (inv : I held w) : I [] w :=
  stable.fewer (fun _ mem => absurd mem List.not_mem_nil) inv

theorem script_meets (stable : Stable I) (keeps : nested.Keeps I) (held : List Value)
    (within : ∀ {w v : World κ σ}, during w v → I [] w → I [] v) {script : Script κ σ α}
    (meets : script.Meets nested during values w v) (inv : I (held ++ values) w) : I [] v := by
  induction meets with
  | now => exact stable.forget inv
  | digest inside => exact within inside (stable.forget inv)
  | @later op _ _ values _ w _ _ run _ ih =>
    apply ih
    rcases op.run_eq nested values w with same | rfl
    · rw [same] at run
      exact stable.step run inv
    · simp only [Op.run, Option.map_eq_some_iff] at run
      obtain ⟨_, digested, result⟩ := run
      cases result
      exact keeps _ digested inv

theorem visit_meets (stable : Stable I) (keeps : nested.Keeps I)
    (within : ∀ {w v : World κ σ}, during w v → I [] w → I [] v) {generation : UInt64} {id : Nat}
    (meets : VisitMeets client nested during generation id w v) (inv : I [] w) : I [] v := by
  cases meets with
  | turn => exact inv
  | @asked watcher key _ found source meets =>
    have named : watcher.id = id := by simpa using List.find?_some found
    exact stable.script_meets keeps [] within meets (stable.asked (named ▸ found) inv)
  | @told watcher watcher' new w₁ _ key _ found evaluated still differs listens announced meets =>
    have named : watcher.id = id := by simpa using List.find?_some found
    have named' : watcher'.id = id := by simpa using List.find?_some still
    have answered := (stable.evaluate keeps (named ▸ found) evaluated inv).2 new rfl
    subst named' announced
    exact stable.script_meets keeps [] within meets
      (stable.changed (some ⟨watcher'.id, generation⟩) still differs answered)

theorem visitAll_meets (stable : Stable I) (keeps : nested.Keeps I)
    (within : ∀ {w v : World κ σ}, during w v → I [] w → I [] v) {generation : UInt64}
    {ids : List Nat} (meets : VisitAllMeets client nested during generation ids w v)
    (inv : I [] w) : I [] v := by
  induction meets with
  | done => exact inv
  | visit meets => exact stable.visit_meets keeps within meets inv
  | later visited _ _ ih => exact ih (stable.visit keeps [] visited inv)

theorem passes_meet (stable : Stable I) (keeps : nested.Keeps I)
    (within : ∀ {w v : World κ σ}, during w v → I [] w → I [] v) {left : Nat}
    (meets : PassesMeet client nested during left w v) (inv : I [] w) : I [] v := by
  induction meets with
  | pass meets => exact stable.visitAll_meets keeps within meets (stable.report _ rfl inv)
  | later passed _ ih => exact ih (stable.visitAll keeps [] passed (stable.report _ rfl inv))

theorem digest_meets (stable : Stable I) (client : Client κ σ) (depth : Nat)
    (meets : DigestMeets client depth w v) (inv : I [] w) : I [] v := by
  induction depth generalizing w v with
  | zero => exact meets.elim
  | succ depth ih =>
    exact stable.passes_meet (stable.digest client depth) (fun inside => ih inside) meets
      (stable.mark none inv)

theorem reaches (stable : Stable I) {start : World κ σ} (reaches : Reaches client start v)
    (inv : I [] start) : I [] v := by
  induction reaches with
  | start => exact inv
  | run _ ran ih => exact stable.runScript ran ih

/-- What everything keeps holds at every moment of a run. -/
theorem comesThrough (stable : Stable I) {start : World κ σ}
    (comes : ComesThrough client start v) (inv : I [] start) : I [] v := by
  cases comes with
  | @run w _ _ depth _ reaches meets =>
    exact stable.script_meets (stable.digest client depth) []
      (fun inside => stable.digest_meets client depth inside) meets (stable.reaches reaches inv)

end Stable
end DataBinding
