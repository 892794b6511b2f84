import DataBinding.Proofs.Building
import DataBinding.Proofs.Programs
import DataBinding.Proofs.Steps

/-! Scripts on alike worlds. A script holds no handles and looks at copies only, so in worlds
that are equal but for the identity of containers it does the same, gets the same answers and
leaves such worlds again. What watchers saw last is out of a script's reach: it is related by a
relation of its own, which scripts keep. -/
namespace DataBinding

variable {κ σ α : Type} {ρ ρ' : Pairing} {L : Value → Value → Prop}

/-- Watchers that are equal but for what they saw last. -/
structure Watcher.Alike (L : Value → Value → Prop) (a b : Watcher κ) : Prop where
  id : a.id = b.id
  source : a.source = b.source
  listener : a.listener = b.listener
  comparison : a.comparison = b.comparison
  last : Option.Rel L a.last b.last

/-- Worlds that a script cannot tell apart. The marker, the cache and the journal are free. -/
structure World.Alike (ρ : Pairing) (L : Value → Value → Prop) (l r : World κ σ) : Prop where
  heap : Heap.Alike ρ l.heap r.heap
  data : ρ.pairs l.scope.data r.scope.data
  watchers : List.Forall₂ (Watcher.Alike L) l.scope.watchers r.scope.watchers
  nextId : l.scope.nextId = r.scope.nextId
  generation : l.scope.generation = r.scope.generation
  config : l.scope.config = r.scope.config
  kept : l.kept.Alike ρ r.kept
  client : l.client = r.client

theorem Watcher.Alike.imp {M : Value → Value → Prop} (weaker : ∀ v w, L v w → M v w)
    {a b : Watcher κ} (alike : a.Alike L b) : a.Alike M b :=
  { alike with last := alike.last.imp weaker }

namespace Scope

variable {l r : Scope κ}

theorem find?_rel (watchers : List.Forall₂ (Watcher.Alike L) l.watchers r.watchers) (id : Nat) :
    Option.Rel (Watcher.Alike L) (l.find? id) (r.find? id) := by
  unfold find?
  generalize l.watchers = xs at watchers
  generalize r.watchers = ys at watchers
  induction watchers with
  | nil => exact .none
  | @cons a b _ _ head _ ih =>
    simp only [List.find?_cons, head.id]
    cases b.id == id with
    | true => exact .some head
    | false => exact ih

theorem ids_eq (watchers : List.Forall₂ (Watcher.Alike L) l.watchers r.watchers) :
    l.ids = r.ids := by
  have same : List.Forall₂ (fun a b : Watcher κ => a.id = b.id) l.watchers r.watchers :=
    watchers.imp fun _ _ alike => alike.id
  have mapped : List.Forall₂ (· = ·) l.ids r.ids := by
    simpa only [ids, List.forall₂_map_left_iff, List.forall₂_map_right_iff] using same
  rwa [List.forall₂_eq_eq_eq] at mapped

end Scope

namespace World.Alike

variable {l r : World κ σ}

theorem imp {M : Value → Value → Prop} (weaker : ∀ v w, L v w → M v w) (alike : l.Alike ρ L r) :
    l.Alike ρ M r :=
  { alike with watchers := alike.watchers.imp fun _ _ => Watcher.Alike.imp weaker }

theorem withHeap {l' r' : Heap} (alike : l.Alike ρ L r)
    (step : Heap.Lockstep ρ ρ' l.heap l' r.heap r') :
    Alike ρ' L { l with heap := l' } { r with heap := r' } where
  heap := step.alike
  data := step.larger _ _ alike.data
  watchers := alike.watchers
  nextId := alike.nextId
  generation := alike.generation
  config := alike.config
  kept := alike.kept.mono step.larger
  client := alike.client

theorem withCache (alike : l.Alike ρ L r) (cache cache' : Cache) :
    Alike ρ L { l with cache } { r with cache := cache' } := { alike with }

theorem report (alike : l.Alike ρ L r) (event event' : Event) :
    (l.report event).Alike ρ L (r.report event') := { alike with }

theorem dataValue (alike : l.Alike ρ L r) : l.data.Alike ρ r.data := .container alike.data

theorem register (alike : l.Alike ρ L r) (source : Source κ) (listener : Option κ)
    (comparison : Comparison) :
    (l.register source listener comparison).1 = (r.register source listener comparison).1 ∧
      Alike ρ L (l.register source listener comparison).2
        (r.register source listener comparison).2 := by
  refine ⟨alike.nextId, { alike with watchers := ?_, nextId := ?_, generation := ?_ }⟩
  · exact List.rel_append alike.watchers (.cons ⟨alike.nextId, rfl, rfl, rfl, .none⟩ .nil)
  · exact congrArg (· + 1) alike.nextId
  · exact congrArg (· + 1) alike.generation

theorem deregister (alike : l.Alike ρ L r) (id : Nat) :
    (l.deregister id).Alike ρ L (r.deregister id) := by
  have found := Scope.find?_rel alike.watchers id
  unfold World.deregister
  generalize l.scope.find? id = a at found
  generalize r.scope.find? id = b at found
  cases found with
  | none => exact alike
  | some _ =>
    refine { alike with watchers := ?_, generation := ?_ }
    · refine List.rel_filter ?_ alike.watchers
      intro a b same
      simp only [same.id]
    · exact congrArg (· + 1) alike.generation

theorem debugText_eq (alike : l.Alike ρ L r) : l.debugText = r.debugText := by
  simp only [World.debugText, Scope.outline, alike.heap.unfold_eq (.container alike.data),
    alike.watchers.length_eq, alike.config]

end World.Alike

/-! References. -/

section References

variable {values values' : List Value}

theorem Ref.value_alike (given : List.Forall₂ (Value.Alike ρ) values values') (ref : Ref) :
    (ref.value values).Alike ρ (ref.value values') :=
  Value.Alike.getD_getElem? given ref.index

theorem Ref.handle?_rel (given : List.Forall₂ (Value.Alike ρ) values values') (ref : Ref) :
    Option.Rel ρ.pairs (ref.handle? values) (ref.handle? values') := by
  have alike := ref.value_alike given
  unfold handle?
  generalize ref.value values = v at alike
  generalize ref.value values' = w at alike
  cases alike with
  | container pair => exact .some pair
  | leaf plain => cases v <;> first | exact .none | cases plain

theorem Ref.values_alike (given : List.Forall₂ (Value.Alike ρ) values values') (refs : List Ref) :
    List.Forall₂ (Value.Alike ρ) (refs.map (·.value values)) (refs.map (·.value values')) := by
  rw [List.forall₂_map_left_iff, List.forall₂_map_right_iff]
  exact List.forall₂_same.2 fun ref _ => ref.value_alike given

theorem Ref.entries_alike (given : List.Forall₂ (Value.Alike ρ) values values')
    (entries : List (String × Ref)) :
    List.Forall₂ (EntryAlike ρ) (entries.map fun entry => (entry.1, entry.2.value values))
      (entries.map fun entry => (entry.1, entry.2.value values')) := by
  rw [List.forall₂_map_left_iff, List.forall₂_map_right_iff]
  exact List.forall₂_same.2 fun entry _ => ⟨rfl, entry.2.value_alike given⟩

theorem Ref.value?_rel (given : List.Forall₂ (Value.Alike ρ) values values') (ref : Option Ref) :
    Option.Rel (Value.Alike ρ) (ref.map (·.value values)) (ref.map (·.value values')) := by
  cases ref with
  | none => exact .none
  | some ref => exact .some (ref.value_alike given)

end References

/-! Operations and scripts. -/

/-- Events that operations put into the journal. They carry no values. -/
def Event.isOperation : Event → Bool
  | .registered .. => true
  | .deregistered _ => true
  | event => event.isRemark

/-- The same operations were reported by two worlds. -/
def SameReports (l l' r r' : World κ σ) : Prop :=
  ∃ events : List Event, l'.journal = events ++ l.journal ∧ r'.journal = events ++ r.journal ∧
    ∀ event ∈ events, event.isOperation = true

namespace SameReports

variable {l l' l'' r r' r'' : World κ σ}

theorem none (left : l'.journal = l.journal) (right : r'.journal = r.journal) :
    SameReports l l' r r' := ⟨[], left, right, by simp⟩

theorem one (event : Event) (operation : event.isOperation = true)
    (left : l'.journal = event :: l.journal) (right : r'.journal = event :: r.journal) :
    SameReports l l' r r' := ⟨[event], left, right, by simp [operation]⟩

theorem trans (first : SameReports l l' r r') (second : SameReports l' l'' r' r'') :
    SameReports l l'' r r'' := by
  obtain ⟨events, left, right, operations⟩ := first
  obtain ⟨events', left', right', operations'⟩ := second
  refine ⟨events' ++ events, by rw [left', left, List.append_assoc],
    by rw [right', right, List.append_assoc], fun event mem => ?_⟩
  exact (List.mem_append.1 mem).elim (operations' event) (operations event)

end SameReports

/-- Results of a step on two alike worlds: one answer, worlds that are alike again, also in the
values that were obtained, and the same reports. -/
structure Together (ρ : Pairing) (L : Value → Value → Prop) (l r : World κ σ)
    (a b : α × List Value × World κ σ) : Prop where
  answer : a.1 = b.1
  worlds : ∃ ρ', Heap.Lockstep ρ ρ' l.heap a.2.2.heap r.heap b.2.2.heap ∧
    a.2.2.Alike ρ' L b.2.2 ∧ List.Forall₂ (Value.Alike ρ') a.2.1 b.2.1
  reports : SameReports l a.2.2 r b.2.2

section Running

variable {l r : World κ σ} {values values' : List Value}

theorem World.call_alike (alike : l.Alike ρ L r) {left right : Arguments}
    (arguments : left.Alike ρ right) (accessor : Accessor) :
    ∃ ρ', Heap.Lockstep ρ ρ' l.heap (l.call accessor left).2.heap r.heap
        (r.call accessor right).2.heap ∧
      (l.call accessor left).2.Alike ρ' L (r.call accessor right).2 ∧
      (l.call accessor left).1.Alike ρ' (r.call accessor right).1 := by
  obtain ⟨ρ', step, results⟩ := accessor.program.run_alike alike.heap arguments
  exact ⟨ρ', step, alike.withHeap step, results⟩

theorem Obtain.run_alike (alike : l.Alike ρ L r)
    (given : List.Forall₂ (Value.Alike ρ) values values') (op : Obtain) :
    ∃ ρ', Heap.Lockstep ρ ρ' l.heap (op.run values l).2.heap r.heap (op.run values' r).2.heap ∧
      (op.run values l).2.Alike ρ' L (op.run values' r).2 ∧
      (op.run values l).1.Alike ρ' (op.run values' r).1 := by
  have still : ∀ {v w : Value}, v.Alike ρ w →
      ∃ ρ', Heap.Lockstep ρ ρ' l.heap l.heap r.heap r.heap ∧ l.Alike ρ' L r ∧ v.Alike ρ' w :=
    fun results => ⟨ρ, .refl alike.heap, alike, results⟩
  have built : ∀ {a b : Value × Heap}, (∃ ρ', Heap.Lockstep ρ ρ' l.heap a.2 r.heap b.2 ∧
      a.1.Alike ρ' b.1) → ∃ ρ', Heap.Lockstep ρ ρ' l.heap a.2 r.heap b.2 ∧
        World.Alike ρ' L { l with heap := a.2 } { r with heap := b.2 } ∧ a.1.Alike ρ' b.1 :=
    fun ⟨ρ', step, results⟩ => ⟨ρ', step, alike.withHeap step, results⟩
  cases op with
  | undefined => exact still .undefined
  | literal value => exact still (.leaf (by cases value <;> rfl))
  | array items => exact built (alike.heap.newArray (Ref.values_alike given items))
  | object entries => exact built (alike.heap.newObject (Ref.entries_alike given entries))
  | json document => exact built (alike.heap.ofJson document)
  | member holder key => exact still (alike.heap.member (holder.value_alike given) key)
  | memberAt holder key =>
    exact still (alike.heap.memberAt (holder.value_alike given) (key.value_alike given))
  | copy v => exact built (alike.heap.deepCopy (v.value_alike given))
  | data => exact still alike.dataValue
  | get key => exact still (alike.heap.member alike.dataValue key)
  | kept name => exact still (alike.kept.getD_get? name)
  | call accessor context locals =>
    exact World.call_alike alike ⟨Ref.value?_rel given context, Ref.value?_rel given locals⟩ accessor

theorem Change.run_alike (alike : l.Alike ρ L r)
    (given : List.Forall₂ (Value.Alike ρ) values values') (op : Change) :
    Heap.Lockstep ρ ρ l.heap (op.run values l).heap r.heap (op.run values' r).heap ∧
      (op.run values l).Alike ρ L (op.run values' r) := by
  have moved : ∀ {l' r' : Heap}, Heap.Lockstep ρ ρ l.heap l' r.heap r' →
      Heap.Lockstep ρ ρ l.heap l' r.heap r' ∧
        World.Alike ρ L { l with heap := l' } { r with heap := r' } :=
    fun step => ⟨step, alike.withHeap step⟩
  have onContainer : ∀ (ref : Ref) (f g : Handle → Heap),
      (∀ a b, ρ.pairs a b → Heap.Lockstep ρ ρ l.heap (f a) r.heap (g b)) →
      Heap.Lockstep ρ ρ l.heap (Change.onContainer l (ref.handle? values) f).heap r.heap
          (Change.onContainer r (ref.handle? values') g).heap ∧
        (Change.onContainer l (ref.handle? values) f).Alike ρ L
          (Change.onContainer r (ref.handle? values') g) := by
    intro ref f g step
    have found := ref.handle?_rel given
    generalize ref.handle? values = a at found
    generalize ref.handle? values' = b at found
    cases found with
    | none => exact ⟨.refl alike.heap, alike⟩
    | some pair => exact moved (step _ _ pair)
  cases op with
  | push array v =>
    exact onContainer array _ _ fun _ _ pair => alike.heap.push pair (v.value_alike given)
  | pop array => exact onContainer array _ _ fun _ _ pair => alike.heap.pop pair
  | store array index v =>
    exact onContainer array _ _ fun _ _ pair => alike.heap.store pair index (v.value_alike given)
  | insert object key v =>
    exact onContainer object _ _ fun _ _ pair => alike.heap.insert pair key (v.value_alike given)
  | erase object key => exact onContainer object _ _ fun _ _ pair => alike.heap.erase pair key
  | set key v => exact moved (alike.heap.insert alike.data key (v.value_alike given))
  | keep name v =>
    exact ⟨.refl alike.heap, { alike with kept := alike.kept.insert name (v.value_alike given) }⟩

theorem World.evalExpr_alike (alike : l.Alike ρ L r) (text : String) {locals locals' : Option Value}
    (given : Option.Rel (Value.Alike ρ) locals locals') :
    ∃ ρ', Heap.Lockstep ρ ρ' l.heap (l.evalExpr text locals).2.heap r.heap
        (r.evalExpr text locals').2.heap ∧
      (l.evalExpr text locals).2.Alike ρ' L (r.evalExpr text locals').2 ∧
      ((∃ fault, (l.evalExpr text locals).1 = .error fault ∧
          (r.evalExpr text locals').1 = .error fault) ∨
        ∃ v w, (l.evalExpr text locals).1 = .ok v ∧ (r.evalExpr text locals').1 = .ok w ∧
          v.Alike ρ' w) := by
  unfold World.evalExpr
  rcases l.accessor_eq text with ⟨accessor, cache, compiled, left⟩ | ⟨fault, refused, left⟩ <;>
    rcases r.accessor_eq text with ⟨accessor', cache', compiled', right⟩ | ⟨fault', refused', right⟩
  · cases compiled.symm.trans compiled'
    have arguments : Arguments.Alike ρ ⟨some l.data, locals⟩ ⟨some r.data, locals'⟩ :=
      ⟨.some alike.dataValue, given⟩
    obtain ⟨ρ', step, worlds, results⟩ :=
      World.call_alike (alike.withCache cache cache') arguments accessor
    rw [left, right]
    exact ⟨ρ', step, worlds, .inr ⟨_, _, rfl, rfl, results⟩⟩
  · cases compiled.symm.trans refused'
  · cases refused.symm.trans compiled'
  · cases refused.symm.trans refused'
    rw [left, right]
    exact ⟨ρ, .refl alike.heap, alike, .inl ⟨fault, rfl, rfl⟩⟩

theorem World.register_reports (alike : l.Alike ρ L r) (source : Source κ) (listener : Option κ)
    (comparison : Comparison) :
    SameReports l (l.register source listener comparison).2 r
      (r.register source listener comparison).2 :=
  .one (.registered l.scope.nextId listener.isSome comparison) rfl rfl (by rw [alike.nextId]; rfl)

theorem World.deregister_reports (alike : l.Alike ρ L r) (id : Nat) :
    SameReports l (l.deregister id) r (r.deregister id) := by
  have found := Scope.find?_rel alike.watchers id
  unfold World.deregister
  generalize l.scope.find? id = a at found
  generalize r.scope.find? id = b at found
  cases found with
  | none => exact .none rfl rfl
  | some _ => exact .one (.deregistered id) rfl rfl rfl

theorem World.watchExpr_alike (alike : l.Alike ρ L r) (text : String) (listener : κ)
    (comparison : Comparison) :
    (l.watchExpr text listener comparison).1 = (r.watchExpr text listener comparison).1 ∧
      (l.watchExpr text listener comparison).2.heap = l.heap ∧
      (r.watchExpr text listener comparison).2.heap = r.heap ∧
      (l.watchExpr text listener comparison).2.Alike ρ L
        (r.watchExpr text listener comparison).2 ∧
      SameReports l (l.watchExpr text listener comparison).2 r
        (r.watchExpr text listener comparison).2 := by
  unfold World.watchExpr
  rcases l.accessor_eq text with ⟨accessor, cache, compiled, left⟩ | ⟨fault, refused, left⟩ <;>
    rcases r.accessor_eq text with ⟨accessor', cache', compiled', right⟩ | ⟨fault', refused', right⟩
  · cases compiled.symm.trans compiled'
    obtain ⟨same, worlds⟩ := (alike.withCache cache cache').register (.expression accessor)
      (some listener) comparison
    have reports := World.register_reports (alike.withCache cache cache') (.expression accessor)
      (some listener) comparison
    rw [left, right]
    exact ⟨congrArg Except.ok same, rfl, rfl, worlds, reports⟩
  · cases compiled.symm.trans refused'
  · cases refused.symm.trans compiled'
  · cases refused.symm.trans refused'
    rw [left, right]
    exact ⟨rfl, rfl, rfl, alike, .none rfl rfl⟩

theorem Op.run_alike (alike : l.Alike ρ L r) (given : List.Forall₂ (Value.Alike ρ) values values')
    (op : Op κ σ) :
    Option.Rel (Together ρ L l r) (op.run noDigest values l) (op.run noDigest values' r) := by
  have count := given.length_eq
  have still : ∀ {l' r' : World κ σ}, l'.Alike ρ L r' → l'.heap = l.heap → r'.heap = r.heap →
      SameReports l l' r r' →
      ∀ answer : op.Answer, Together ρ L l r (answer, values, l') (answer, values', r') :=
    fun worlds left right reports answer =>
      ⟨rfl, ⟨ρ, by rw [left, right]; exact .refl alike.heap, worlds, given⟩, reports⟩
  have silent : SameReports l l r r := .none rfl rfl
  cases op with
  | obtain op =>
    obtain ⟨ρ', step, worlds, results⟩ := op.run_alike alike given
    have journal : ∀ values (w : World κ σ), (op.run values w).2.journal = w.journal := by
      intro values w
      obtain ⟨heap, same⟩ := op.run_world values w
      rw [same]
    refine .some ⟨congrArg Ref.mk count, ⟨ρ', step, worlds, ?_⟩, .none (journal _ _) (journal _ _)⟩
    exact List.rel_append (Value.Alike.all_mono step.larger given) (.cons results .nil)
  | change op =>
    obtain ⟨step, worlds⟩ := op.run_alike alike given
    have journal : ∀ values (w : World κ σ), (op.run values w).journal = w.journal := by
      intro values w
      obtain ⟨heap, kept, same⟩ := op.run_world values w
      rw [same]
    exact .some ⟨rfl, ⟨ρ, step, worlds, given⟩, .none (journal _ _) (journal _ _)⟩
  | look refs =>
    have same := alike.heap.extract_eq (Ref.values_alike given refs)
    simp only [Op.run, same]
    exact .some (still alike rfl rfl silent _)
  | evalExpr text locals =>
    obtain ⟨ρ', step, worlds, results⟩ := World.evalExpr_alike alike text
      (Ref.value?_rel given locals)
    obtain ⟨heap, cache, left⟩ := l.evalExpr_world text (locals.map (·.value values))
    obtain ⟨heap', cache', right⟩ := r.evalExpr_world text (locals.map (·.value values'))
    simp only [Op.run]
    generalize l.evalExpr text (locals.map (·.value values)) = a at *
    generalize r.evalExpr text (locals.map (·.value values')) = b at *
    obtain ⟨a, l'⟩ := a
    obtain ⟨b, r'⟩ := b
    cases left
    cases right
    have given' := Value.Alike.all_mono step.larger given
    rcases results with ⟨fault, rfl, rfl⟩ | ⟨v, w, rfl, rfl, results⟩
    · exact .some ⟨rfl, ⟨ρ', step, worlds, given'⟩, .none rfl rfl⟩
    · exact .some ⟨congrArg (fun n => Except.ok (Ref.mk n)) count, ⟨ρ', step, worlds,
        List.rel_append given' (.cons results .nil)⟩, .none rfl rfl⟩
  | register callable listener comparison =>
    obtain ⟨same, worlds⟩ := alike.register (.callable callable) listener comparison
    have reports := World.register_reports alike (.callable callable) listener comparison
    simp only [Op.run, same]
    exact .some (still worlds rfl rfl reports _)
  | watchExpr text listener comparison =>
    obtain ⟨same, left, right, worlds, reports⟩ :=
      World.watchExpr_alike alike text listener comparison
    simp only [Op.run, same]
    exact .some (still worlds left right reports _)
  | deregister watcher =>
    have left : ∀ w : World κ σ, (w.deregister watcher).heap = w.heap := by
      intro w
      unfold World.deregister
      split <;> rfl
    exact .some (still (alike.deregister watcher) (left l) (left r)
      (World.deregister_reports alike watcher) ())
  | status =>
    simp only [Op.run, alike.watchers.length_eq, alike.config]
    exact .some (still alike rfl rfl silent _)
  | inspect =>
    simp only [Op.run, alike.debugText_eq]
    exact .some (still alike rfl rfl silent _)
  | client f =>
    have worlds : World.Alike ρ L { l with client := f l.client } { r with client := f r.client } :=
      { alike with client := congrArg f alike.client }
    simp only [Op.run]
    rw [alike.client] at worlds ⊢
    exact .some (still worlds rfl rfl (.none rfl rfl) _)
  | note message =>
    exact .some (still (alike.report _ _) rfl rfl (.one (.note message) rfl rfl rfl) ())
  | digest => exact .none
  | reportDivergence divergence =>
    exact .some (still (alike.report _ _) rfl rfl (.one (.applyDiverged divergence) rfl rfl rfl) ())

/-- A script does the same in alike worlds. -/
theorem Script.run_alike (script : Script κ σ α) (alike : l.Alike ρ L r)
    (given : List.Forall₂ (Value.Alike ρ) values values') :
    Option.Rel (Together ρ L l r) (script.run noDigest values l)
      (script.run noDigest values' r) := by
  induction script generalizing ρ l r values values' with
  | pure a => exact .some ⟨rfl, ⟨ρ, .refl alike.heap, alike, given⟩, .none rfl rfl⟩
  | panic p => exact .some ⟨rfl, ⟨ρ, .refl alike.heap, alike, given⟩, .none rfl rfl⟩
  | perform op next ih =>
    have step := op.run_alike alike given
    simp only [Script.run]
    generalize op.run noDigest values l = a at step
    generalize op.run noDigest values' r = b at step
    cases step with
    | none => exact .none
    | @some a b together =>
      obtain ⟨answer, values₁, l₁⟩ := a
      obtain ⟨answer', values₁', r₁⟩ := b
      obtain ⟨rfl, ⟨ρ₁, moved, worlds, given₁⟩, reports⟩ := together
      apply (ih answer worlds given₁).imp
      intro a b rest
      obtain ⟨ρ₂, moved', worlds', given₂⟩ := rest.worlds
      exact ⟨rest.answer, ⟨ρ₂, moved.trans moved', worlds', given₂⟩, reports.trans rest.reports⟩

end Running

end DataBinding
