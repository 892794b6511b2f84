import DataBinding.Program.Accessor
import DataBinding.Value.Members

/-! A cache of compiled texts. Each accessor that it hands out is stamped with the number
of the compilation that made it, so accessors of one compilation can be told. Texts that
do not compile are not kept. -/
namespace DataBinding

structure Compiled where
  stamp : Nat
  accessor : Accessor

structure Cache where
  entries : Members Compiled
  /-- How many compilations have succeeded so far. -/
  compiled : Nat
  /-- What is held under a text is what the text compiles to. -/
  faithful : ∀ text held, entries.get? text = some held → Accessor.ofText text = .ok held.accessor

namespace Cache

def empty : Cache := ⟨.empty, 0, fun _ _ held => by simp [Members.get?, Members.empty] at held⟩

def size (cache : Cache) : Nat := cache.entries.size

/-- Holds the accessor of a text under a fresh stamp. -/
def hold (cache : Cache) (text : String) (accessor : Accessor)
    (ok : Accessor.ofText text = .ok accessor) : Cache :=
  ⟨cache.entries.insert text ⟨cache.compiled, accessor⟩, cache.compiled + 1,
    fun other held found => by
      rw [Members.get?_insert] at found
      split at found
      · rename_i same
        rw [same, ok, ← Option.some.inj found]
      · exact cache.faithful other held found⟩

/-- The accessor of a text, compiled if it is not held. -/
def getOrCompile (cache : Cache) (text : String) : Except CompileError (Compiled × Cache) :=
  match cache.entries.get? text with
  | some held => .ok (held, cache)
  | none =>
    match ok : Accessor.ofText text with
    | .ok accessor => .ok (⟨cache.compiled, accessor⟩, cache.hold text accessor ok)
    | .error fault => .error fault

def clear (cache : Cache) : Cache := { empty with compiled := cache.compiled }

end Cache
end DataBinding
