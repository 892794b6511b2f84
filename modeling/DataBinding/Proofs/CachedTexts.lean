import DataBinding.Proofs.Similarity
import DataBinding.Proofs.Steps
import Mathlib.Data.Set.Card

/-! Nothing shows that compiled texts are kept. Whatever was asked for before, a text gives what
compiling it gives. Only the stamps tell that an accessor is the one handed out earlier: a stamp
belongs to one text as long as the cache is not cleared, and to none afterwards. -/
namespace DataBinding

namespace Cache

/-- A call of a cache. -/
inductive Call where
  | get (text : String)
  | clear
  deriving DecidableEq

/-- The cache after a call. A text that does not compile leaves it as it is. -/
def after (cache : Cache) : Call → Cache
  | .get text =>
    match cache.getOrCompile text with
    | .ok (_, later) => later
    | .error _ => cache
  | .clear => cache.clear

/-- A new cache after some calls. -/
def afterAll (calls : List Call) : Cache := calls.foldl after empty

/-- The text was asked for since the last clearing, and it compiles. -/
def Asked (calls : List Call) (text : String) : Prop :=
  (∃ before since, calls = before ++ .get text :: since ∧ .clear ∉ since) ∧
    ∃ accessor, Accessor.ofText text = .ok accessor

variable {cache : Cache} {text : String} {stamp : Nat} {owner : Option String}

/-- What a text gives does not depend on what is held. -/
theorem getOrCompile_accessor (cache : Cache) (text : String) :
    (cache.getOrCompile text).map (fun answer => answer.1.accessor) = Accessor.ofText text := by
  rcases cache.getOrCompile_cases text with ⟨held, found, get⟩ | ⟨accessor, ok, -, get⟩ |
    ⟨fault, failed, -, get⟩
  · rw [get, cache.faithful text held found]
    rfl
  · rw [get, ok]
    rfl
  · rw [get, failed]
    rfl

theorem after_get_hit {held : Compiled} (found : cache.entries.get? text = some held) :
    cache.after (.get text) = cache := by
  simp only [after, getOrCompile, found]

theorem get?_hold {accessor : Accessor} (ok : Accessor.ofText text = .ok accessor) (other : String) :
    (cache.hold text accessor ok).entries.get? other =
      if other = text then some ⟨cache.compiled, accessor⟩ else cache.entries.get? other :=
  Members.get?_insert _ _ _ _

theorem get?_clear (cache : Cache) (text : String) : cache.clear.entries.get? text = none := rfl

/-- The stamp was given out, and what is held under it is what is held under the owner. -/
structure Owns (cache : Cache) (stamp : Nat) (owner : Option String) : Prop where
  issued : stamp < cache.compiled
  held : ∀ text, owner = some text → cache.entries.get? text ≠ none
  only : ∀ text held, cache.entries.get? text = some held → (held.stamp = stamp ↔ owner = some text)

theorem Owns.get (owns : cache.Owns stamp owner) (text : String) :
    (cache.after (.get text)).Owns stamp owner := by
  rcases cache.getOrCompile_cases text with ⟨held, found, -⟩ | ⟨accessor, ok, absent, get⟩ |
    ⟨fault, -, -, get⟩
  · rw [after_get_hit found]
    exact owns
  · simp only [after, get]
    refine ⟨Nat.lt_succ_of_lt owns.issued, fun other is => ?_, fun other held found => ?_⟩
    · rw [get?_hold]
      split
      · exact Option.some_ne_none _
      · exact owns.held other is
    · rw [get?_hold] at found
      split at found
      · rename_i same
        cases found
        refine iff_of_false (Nat.ne_of_gt owns.issued) fun is => ?_
        exact owns.held other is (same ▸ absent)
      · exact owns.only other held found
  · simp only [after, get]
    exact owns

theorem Owns.clear (owns : cache.Owns stamp owner) : cache.clear.Owns stamp none where
  issued := owns.issued
  held := fun _ is => by cases is
  only := fun text held found => by
    rw [get?_clear] at found
    cases found

/-- A stamp keeps its owner up to the next clearing. -/
theorem Owns.calls (owns : cache.Owns stamp owner) (calls : List Call) :
    (calls.foldl after cache).Owns stamp (if .clear ∈ calls then none else owner) := by
  induction calls generalizing cache owner with
  | nil => simpa using owns
  | cons call calls ih =>
    cases call with
    | get text => simpa using ih (owns.get text)
    | clear => simpa [after] using ih owns.clear

/-- A get gives out a stamp of the owner's text only. -/
theorem Owns.stamp_iff (owns : cache.Owns stamp owner) {compiled : Compiled} {later : Cache}
    (got : cache.getOrCompile text = .ok (compiled, later)) :
    compiled.stamp = stamp ↔ owner = some text := by
  rcases cache.getOrCompile_cases text with ⟨held, found, get⟩ | ⟨accessor, ok, absent, get⟩ |
    ⟨fault, -, -, get⟩
  · obtain ⟨rfl, rfl⟩ := Prod.mk.inj (Except.ok.inj (get.symm.trans got))
    exact owns.only text held found
  · obtain ⟨rfl, rfl⟩ := Prod.mk.inj (Except.ok.inj (get.symm.trans got))
    exact iff_of_false (Nat.ne_of_gt owns.issued) fun is => owns.held text is absent
  · cases get.symm.trans got

/-- Every stamp that is held belongs to its text. -/
def Orderly (cache : Cache) : Prop :=
  ∀ text held, cache.entries.get? text = some held → cache.Owns held.stamp (some text)

/-- The text that a get was for owns the stamp that it gave out. -/
theorem Orderly.owns (orderly : cache.Orderly) {compiled : Compiled} {later : Cache}
    (got : cache.getOrCompile text = .ok (compiled, later)) :
    later.Owns compiled.stamp (some text) := by
  rcases cache.getOrCompile_cases text with ⟨held, found, get⟩ | ⟨accessor, ok, absent, get⟩ |
    ⟨fault, -, -, get⟩
  · obtain ⟨rfl, rfl⟩ := Prod.mk.inj (Except.ok.inj (get.symm.trans got))
    exact orderly text held found
  · obtain ⟨rfl, rfl⟩ := Prod.mk.inj (Except.ok.inj (get.symm.trans got))
    refine ⟨Nat.lt_succ_self _, ?_, fun other held found => ?_⟩
    · rintro _ ⟨rfl⟩
      rw [get?_hold, if_pos rfl]
      exact Option.some_ne_none _
    · rw [get?_hold] at found
      split at found
      · rename_i same
        cases found
        exact iff_of_true rfl (congrArg some same.symm)
      · rename_i other_ne
        refine iff_of_false (Nat.ne_of_lt (orderly other held found).issued) fun same => ?_
        exact other_ne (Option.some.inj same).symm
  · cases get.symm.trans got

theorem Orderly.after (orderly : cache.Orderly) (call : Call) : (cache.after call).Orderly := by
  cases call with
  | clear =>
    intro text held found
    cases (get?_clear cache text).symm.trans found
  | get text =>
    rcases cache.getOrCompile_cases text with ⟨held, found, -⟩ | ⟨accessor, ok, absent, get⟩ |
      ⟨fault, -, -, get⟩
    · rw [after_get_hit found]
      exact orderly
    · intro other held found
      have kept := fun known => (orderly other held known).get text
      have fresh := orderly.owns get
      simp only [Cache.after, get] at found kept ⊢
      rw [get?_hold] at found
      split at found
      · rename_i same
        cases found
        exact same ▸ fresh
      · exact kept found
    · simp only [Cache.after, get]
      exact orderly

theorem afterAll_append (calls more : List Call) :
    afterAll (calls ++ more) = more.foldl after (afterAll calls) := List.foldl_append

theorem orderly_afterAll (calls : List Call) : (afterAll calls).Orderly := by
  induction calls using List.reverseRecOn with
  | nil => exact fun _ _ found => by cases found
  | append_singleton calls call ih =>
    rw [afterAll_append]
    exact ih.after call

/-- Two gets give one object if they ask for one text and the cache is not cleared in between. -/
theorem stamp_eq_iff (before between : List Call) {text text' : String} {first last : Compiled}
    {later later' : Cache} (got : (afterAll before).getOrCompile text = .ok (first, later))
    (got' : (afterAll (before ++ .get text :: between)).getOrCompile text' = .ok (last, later')) :
    first.stamp = last.stamp ↔ text = text' ∧ .clear ∉ between := by
  have next : (afterAll before).after (.get text) = later := by simp only [after, got]
  have owns := ((orderly_afterAll before).owns got).calls between
  rw [← next, ← List.foldl_cons (f := after), ← afterAll_append] at owns
  rw [eq_comm, owns.stamp_iff got']
  split
  · rename_i cleared
    simp [cleared]
  · rename_i kept
    simp [kept]

/-! What is held. -/

theorem asked_append_get (calls : List Call) (text other : String) :
    Asked (calls ++ [.get text]) other ↔
      Asked calls other ∨ other = text ∧ ∃ accessor, Accessor.ofText other = .ok accessor := by
  constructor
  · rintro ⟨⟨before, since, split, kept⟩, compiles⟩
    rcases List.eq_nil_or_concat since with rfl | ⟨since, last, rfl⟩
    · obtain ⟨rfl, same⟩ := List.append_inj' split rfl
      obtain ⟨⟨⟩⟩ := List.cons.inj same
      exact .inr ⟨rfl, compiles⟩
    · rw [List.concat_eq_append, ← List.cons_append, ← List.append_assoc] at split
      obtain ⟨rfl, -⟩ := List.append_inj' split rfl
      refine .inl ⟨⟨before, since, rfl, fun cleared => kept ?_⟩, compiles⟩
      simp [cleared]
  · rintro (⟨⟨before, since, rfl, kept⟩, compiles⟩ | ⟨rfl, compiles⟩)
    · exact ⟨⟨before, since ++ [.get text], by simp, by simp [kept]⟩, compiles⟩
    · exact ⟨⟨calls, [], rfl, List.not_mem_nil⟩, compiles⟩

theorem not_asked_append_clear (calls : List Call) (text : String) :
    ¬ Asked (calls ++ [.clear]) text := by
  rintro ⟨⟨before, since, split, kept⟩, -⟩
  rcases List.eq_nil_or_concat since with rfl | ⟨since, last, rfl⟩
  · obtain ⟨-, same⟩ := List.append_inj' split rfl
    cases same
  · rw [List.concat_eq_append, ← List.cons_append, ← List.append_assoc] at split
    obtain ⟨-, same⟩ := List.append_inj' split rfl
    obtain ⟨⟨⟩⟩ := List.cons.inj same
    exact kept (by simp)

theorem get?_after_get (cache : Cache) (text other : String) :
    (cache.after (.get text)).entries.get? other ≠ none ↔ cache.entries.get? other ≠ none ∨
      other = text ∧ ∃ accessor, Accessor.ofText other = .ok accessor := by
  rcases cache.getOrCompile_cases text with ⟨held, found, -⟩ | ⟨accessor, ok, absent, get⟩ |
    ⟨fault, failed, -, get⟩
  · rw [after_get_hit found]
    refine ⟨.inl, fun either => either.elim id fun same => ?_⟩
    rw [same.1, found]
    exact Option.some_ne_none _
  · simp only [after, get, get?_hold]
    split
    · rename_i same
      exact iff_of_true (Option.some_ne_none _) (.inr ⟨same, accessor, same ▸ ok⟩)
    · rename_i apart
      simp [apart]
  · simp only [after, get]
    refine ⟨.inl, fun either => either.elim id ?_⟩
    rintro ⟨rfl, accessor, ok⟩
    cases failed.symm.trans ok

/-- A cache holds the texts that were asked for since the last clearing. -/
theorem held_iff_asked (calls : List Call) (text : String) :
    (afterAll calls).entries.get? text ≠ none ↔ Asked calls text := by
  induction calls using List.reverseRecOn with
  | nil =>
    refine iff_of_false (fun held => held rfl) ?_
    rintro ⟨⟨before, since, split, -⟩, -⟩
    simp at split
  | append_singleton calls call ih =>
    rw [afterAll_append, List.foldl_cons, List.foldl_nil]
    cases call with
    | get asked => rw [get?_after_get, asked_append_get, ih]
    | clear => exact iff_of_false (fun held => held rfl) (not_asked_append_clear calls text)

/-- The size counts the texts that were asked for since the last clearing. -/
theorem size_eq_ncard (calls : List Call) :
    (afterAll calls).size = {text | Asked calls text}.ncard := by
  have keys : {text | Asked calls text} = ((afterAll calls).entries.keys.toFinset : Set String) := by
    ext text
    rw [Finset.mem_coe, List.mem_toFinset, Members.mem_keys_iff, ← Option.ne_none_iff_exists']
    exact (held_iff_asked calls text).symm
  have distinct : (afterAll calls).entries.keys.Nodup := (afterAll calls).entries.distinct
  rw [keys, Set.ncard_coe_finset, List.toFinset_card_of_nodup distinct]
  exact (List.length_map _).symm

end Cache

namespace World

variable {κ σ : Type}

/-- The accessor of a text, and a cache that nobody else sees. -/
theorem accessor_compiles (w : World κ σ) (text : String) :
    ∃ later, w.accessor text =
      (Accessor.ofText text).map fun accessor => (accessor, { w with cache := later }) := by
  rcases w.accessor_eq text with ⟨accessor, later, ok, found⟩ | ⟨fault, failed, found⟩
  · exact ⟨later, by rw [found, ok]; rfl⟩
  · exact ⟨w.cache, by rw [found, failed]; rfl⟩

/-- An expression over the data gives what its compilation gives when it is run. -/
theorem evalExpr_compiles (w : World κ σ) (text : String) (locals : Option Value) :
    ∃ later, w.evalExpr text locals =
      match Accessor.ofText text with
      | .ok accessor =>
        let (v, heap) := accessor.run ⟨some w.data, locals⟩ w.heap
        (.ok v, { w with heap, cache := later })
      | .error fault => (.error fault, w) := by
  obtain ⟨later, found⟩ := w.accessor_compiles text
  refine ⟨later, ?_⟩
  rw [evalExpr, found]
  cases Accessor.ofText text <;> rfl

/-- Watching an expression registers a watcher on its compilation. -/
theorem watchExpr_compiles (w : World κ σ) (text : String) (listener : κ)
    (comparison : Comparison) :
    ∃ later, w.watchExpr text listener comparison =
      match Accessor.ofText text with
      | .ok accessor =>
        let (id, w) := w.register (.expression accessor) (some listener) comparison
        (.ok id, { w with cache := later })
      | .error fault => (.error fault, w) := by
  obtain ⟨later, found⟩ := w.accessor_compiles text
  refine ⟨later, ?_⟩
  rw [watchExpr, found]
  cases Accessor.ofText text <;> rfl

/-- What the scope gives for an expression is the same with any cache. -/
theorem evalExpr_cache (w : World κ σ) (cache : Cache) (text : String) (locals : Option Value) :
    ∃ later, ({ w with cache } : World κ σ).evalExpr text locals =
      ((w.evalExpr text locals).1, { (w.evalExpr text locals).2 with cache := later }) := by
  obtain ⟨_, own⟩ := w.evalExpr_compiles text locals
  obtain ⟨later, other⟩ := ({ w with cache } : World κ σ).evalExpr_compiles text locals
  rw [own, other]
  cases Accessor.ofText text with
  | ok accessor => exact ⟨later, rfl⟩
  | error fault => exact ⟨cache, rfl⟩

theorem watchExpr_cache (w : World κ σ) (cache : Cache) (text : String) (listener : κ)
    (comparison : Comparison) :
    ∃ later, ({ w with cache } : World κ σ).watchExpr text listener comparison =
      ((w.watchExpr text listener comparison).1,
        { (w.watchExpr text listener comparison).2 with cache := later }) := by
  obtain ⟨_, own⟩ := w.watchExpr_compiles text listener comparison
  obtain ⟨later, other⟩ := ({ w with cache } : World κ σ).watchExpr_compiles text listener comparison
  rw [own, other]
  cases Accessor.ofText text with
  | ok accessor => exact ⟨later, rfl⟩
  | error fault => exact ⟨cache, rfl⟩

/-- A text that does not compile registers nothing. -/
theorem watchExpr_error (w : World κ σ) {text : String} {listener : κ} {comparison : Comparison}
    {fault : CompileError} (failed : (w.watchExpr text listener comparison).1 = .error fault) :
    (w.watchExpr text listener comparison).2 = w := by
  obtain ⟨_, own⟩ := w.watchExpr_compiles text listener comparison
  rw [own] at failed ⊢
  cases compiled : Accessor.ofText text with
  | ok accessor =>
    rw [compiled] at failed
    cases failed
  | error fault => rfl

end World

theorem Accessor.source_of_ofText {text : String} {accessor : Accessor}
    (ok : Accessor.ofText text = .ok accessor) : accessor.source = some text := by
  unfold ofText at ok
  cases read : Expression.ofText text with
  | ok expression =>
    rw [read] at ok
    cases ok
    rfl
  | error fault =>
    rw [read] at ok
    cases ok

/-- The cache does not show. After any calls a text gives what compiling it gives, the same fault or
an accessor of the same source and program; two gets give one object exactly if they ask for one
text and nothing was cleared in between; the size counts the texts asked for since the last
clearing; and a failed get changes nothing. So what a scope gives for an expression, or registers
for it, is the same with any cache, and an expression that does not compile registers nothing. -/
theorem Cache.answers_as_compiled {κ σ : Type} (calls : List Cache.Call) :
    (∀ text, ((afterAll calls).getOrCompile text).map (fun answer => answer.1.accessor) =
      Accessor.ofText text) ∧
    (∀ text accessor, Accessor.ofText text = .ok accessor → accessor.source = some text) ∧
    (∀ between text text' first last later later',
      (afterAll calls).getOrCompile text = .ok (first, later) →
      (afterAll (calls ++ .get text :: between)).getOrCompile text' = .ok (last, later') →
        (first.stamp = last.stamp ↔ text = text' ∧ .clear ∉ between)) ∧
    (afterAll calls).size = {text | Asked calls text}.ncard ∧
    (∀ text fault, (afterAll calls).getOrCompile text = .error fault →
      afterAll (calls ++ [.get text]) = afterAll calls) ∧
    (∀ (w : World κ σ) (cache : Cache) text locals, ∃ later,
      ({ w with cache } : World κ σ).evalExpr text locals =
        ((w.evalExpr text locals).1, { (w.evalExpr text locals).2 with cache := later })) ∧
    (∀ (w : World κ σ) (cache : Cache) text listener comparison, ∃ later,
      ({ w with cache } : World κ σ).watchExpr text listener comparison =
        ((w.watchExpr text listener comparison).1,
          { (w.watchExpr text listener comparison).2 with cache := later })) ∧
    ∀ (w : World κ σ) text listener comparison fault,
      (w.watchExpr text listener comparison).1 = .error fault →
        (w.watchExpr text listener comparison).2 = w := by
  refine ⟨getOrCompile_accessor _, fun _ _ => Accessor.source_of_ofText,
    fun between _ _ _ _ _ _ => stamp_eq_iff calls between, size_eq_ncard calls, ?_,
    World.evalExpr_cache, World.watchExpr_cache, fun w _ _ _ _ => w.watchExpr_error⟩
  intro text fault failed
  rw [afterAll_append, List.foldl_cons, List.foldl_nil, after, failed]

theorem Accessor.ofText_name : Accessor.ofText "a" =
    .ok ⟨some "a", .ofExpression (.program (.identifier "a"))⟩ := by
  have tokens : Token.scan "a" = .ok [.ofName ['a']] := by
    simp [Token.scan, Token.scanFrom, Token.isBlank, Token.first, Token.numberStarts, Token.isQuote,
      Token.isPunctuation, Token.isNameStart, Token.ofName, bind, Except.bind, pure, Except.pure,
      ← String.length_toList]
  have read : Expression.ofTokens [.ofName ['a']] = .ok (.program (.identifier "a")) := rfl
  simp [Accessor.ofText, Expression.ofText, tokens, read, Except.mapError, bind, Except.bind, pure,
    Except.pure]

/-- One text asked for three times, the last time after a clearing. The first two gets give one
object and the third gives another, with the same program. -/
theorem Cache.answers_as_compiled_cleared :
    ∃ first second third later later' later'',
      (afterAll []).getOrCompile "a" = .ok (first, later) ∧
      (afterAll [.get "a"]).getOrCompile "a" = .ok (second, later') ∧
      (afterAll [.get "a", .clear]).getOrCompile "a" = .ok (third, later'') ∧
      first.stamp = second.stamp ∧ first.stamp ≠ third.stamp ∧
      third.accessor.program = first.accessor.program := by
  have answers (calls : List Cache.Call) : ∃ compiled later,
      (afterAll calls).getOrCompile "a" = .ok (compiled, later) ∧
        compiled.accessor = ⟨some "a", .ofExpression (.program (.identifier "a"))⟩ := by
    have same := (answers_as_compiled (κ := Unit) (σ := Unit) calls).1 "a"
    rw [Accessor.ofText_name] at same
    cases got : (afterAll calls).getOrCompile "a" with
    | ok answer =>
      rw [got] at same
      exact ⟨answer.1, answer.2, rfl, Except.ok.inj same⟩
    | error fault =>
      rw [got] at same
      cases same
  obtain ⟨first, later, got, accessor⟩ := answers []
  obtain ⟨second, later', got', -⟩ := answers [.get "a"]
  obtain ⟨third, later'', got'', accessor'⟩ := answers [.get "a", .clear]
  obtain ⟨-, -, objects, -⟩ := answers_as_compiled (κ := Unit) (σ := Unit) []
  refine ⟨first, second, third, later, later', later'', got, got', got'', ?_, ?_, ?_⟩
  · exact (objects [] "a" "a" first second later later' got got').mpr ⟨rfl, List.not_mem_nil⟩
  · intro same
    have kept := (objects [.clear] "a" "a" first third later later'' got got'').mp same
    exact kept.2 List.mem_cons_self
  · rw [accessor, accessor']

end DataBinding
